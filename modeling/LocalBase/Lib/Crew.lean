import Mathlib.Data.Finset.Dedup
import Mathlib.Data.Fintype.EquivFin
import Mathlib.Logic.Function.Basic
import LocalBase.Lib.Program

/-!
# Programs side by side

Parties over one world. Each keeps memory of its own between its calls, and
runs a call's program one operation at a time, while the others go on with
theirs. A party may die between any two operations; one of the same name can be
started again, with new memory.

The rule of such a run is the one of rely and guarantee. `rely p` is what the
others may do to the world as `p` sees it. A program `Stands` when each of its
operations, performed on any world that `rely` leads to and that is sound,
leaves a sound one and does to the others nothing but what they rely on.
-/

namespace Program

variable {O : Type} {R : O → Type} {α β σ δ κ μ π ι : Type} {s : σ}

/-! ## One program among others -/

section
variable (sem : Sem R σ δ) (W : σ → Prop) (rely guar : σ → σ → Prop) {p : Prog R α}
  {Q : α → σ → Prop}

/-- From `s` on, whatever the others do in between. -/
def Prog.Stands (Q : α → σ → Prop) : Prog R α → σ → Prop
  | .done a, s => Q a s
  | .act o k, s => ∀ s', rely s s' → W s' → ∀ c r t, sem s' o c = some (r, t) →
      W t ∧ guar s' t ∧ Prog.Stands Q (k r) t

variable {sem W rely guar}

@[simp] theorem stands_done {a : α} :
    (Prog.done a : Prog R α).Stands sem W rely guar Q s ↔ Q a s := Iff.rfl

theorem stands_bind {Q : β → σ → Prop} {f : α → Prog R β}
    (h : p.Stands sem W rely guar (fun a t => (f a).Stands sem W rely guar Q t) s) :
    (p >>= f).Stands sem W rely guar Q s := by
  induction p generalizing s with
  | done a => exact h
  | act o k ih =>
    intro s' hrely hW c r t ht
    obtain ⟨hWt, hguar, hrest⟩ := h s' hrely hW c r t ht
    exact ⟨hWt, hguar, ih r hrest⟩

theorem Prog.Stands.mono {Q' : α → σ → Prop} (h : p.Stands sem W rely guar Q s)
    (hQ : ∀ a t, Q a t → Q' a t) :
    p.Stands sem W rely guar Q' s := by
  induction p generalizing s with
  | done a => exact hQ a s h
  | act o k ih =>
    intro s' hrely hW c r t ht
    obtain ⟨hWt, hguar, hrest⟩ := h s' hrely hW c r t ht
    exact ⟨hWt, hguar, ih r hrest⟩

theorem Prog.Stands.stable {u : σ} (h : p.Stands sem W rely guar Q s)
    (htrans : ∀ a b c, rely a b → rely b c → rely a c) (hQ : ∀ a s u, Q a s → rely s u → Q a u)
    (hu : rely s u) :
    p.Stands sem W rely guar Q u := by
  cases p with
  | done a => exact hQ a s u h hu
  | act o k => exact fun s' hrely hW => h s' (htrans _ _ _ hu hrely) hW

end

/-! ## A crew -/

/-- Parties named by `π`. A party of a kind `ι` is started with the memory
`start`; its calls are of the kinds `κ`, and leave a result and its memory. A
party that dies leaves the world as `die` has it. -/
structure Crew (R : O → Type) (σ δ κ β μ π ι : Type) where
  sem : π → Sem R σ δ
  start : ι → μ
  call : κ → μ → Prog R (β × μ)
  die : π → σ → σ

/-- What a party is at. -/
inductive Party (R : O → Type) (κ β μ : Type) where
  | gone
  | idle (m : μ)
  | busy (k : κ) (left : Prog R (β × μ))

/-- The world and its parties. -/
structure Scene (R : O → Type) (σ κ β μ π : Type) where
  now : σ
  party : π → Party R κ β μ

inductive Deed (π ι κ δ : Type) where
  | start (p : π) (i : ι)
  | call (p : π) (k : κ)
  | act (p : π) (c : δ)
  | ret (p : π)
  | die (p : π)

/-- Whose deed it is. -/
def Deed.party : Deed π ι κ δ → π
  | .start p _ | .call p _ | .act p _ | .ret p | .die p => p

namespace Crew

variable [DecidableEq π] (A : Crew R σ δ κ β μ π ι) {m : Scene R σ κ β μ π} {init : σ → Prop}
  {a : Party R κ β μ}

def put (m : Scene R σ κ β μ π) (p : π) (a : Party R κ β μ) : Scene R σ κ β μ π :=
  { m with party := Function.update m.party p a }

/-- Perform the next operation of a party's call. -/
def next (m : Scene R σ κ β μ π) (p : π) (c : δ) : Option (Scene R σ κ β μ π) :=
  match m.party p with
  | .busy k (.act o f) =>
    (A.sem p m.now o c).map fun a => put { m with now := a.2 } p (.busy k (f a.1))
  | _ => none

def step (m : Scene R σ κ β μ π) : Deed π ι κ δ → Option (Scene R σ κ β μ π)
  | .start p i =>
    match m.party p with
    | .gone => some (put m p (.idle (A.start i)))
    | _ => none
  | .call p k =>
    match m.party p with
    | .idle mem => some (put m p (.busy k (A.call k mem)))
    | _ => none
  | .act p c => A.next m p c
  | .ret p =>
    match m.party p with
    | .busy _ (.done a) => some (put m p (.idle a.2))
    | _ => none
  | .die p =>
    match m.party p with
    | .gone => none
    | _ => some (put { m with now := A.die p m.now } p .gone)

/-- The runs of the crew, from a world that `init` allows and no parties. -/
def machine (init : σ → Prop) : Machine.System (Scene R σ κ β μ π) (Deed π ι κ δ) where
  init m := init m.now ∧ ∀ p, m.party p = .gone
  step := A.step

/-- The runs whose operations meet `g`. -/
def Guard (g : π → σ → O → δ → Prop) (m : Scene R σ κ β μ π) : Deed π ι κ δ → Prop
  | .act p c => ∀ k o f, m.party p = .busy k (.act o f) → g p m.now o c
  | _ => True

/-- A guard that can be evaluated is evaluated at the operation that is
next. -/
instance decidableGuard (g : π → σ → O → δ → Prop) [∀ p s o c, Decidable (g p s o c)]
    (m : Scene R σ κ β μ π) : ∀ e : Deed π ι κ δ, Decidable (Guard g m e)
  | .start _ _ | .call _ _ | .ret _ | .die _ => isTrue trivial
  | .act p c =>
    match hp : m.party p with
    | .gone => isTrue fun k o f h => by rw [hp] at h; cases h
    | .idle _ => isTrue fun k o f h => by rw [hp] at h; cases h
    | .busy _ (.done _) => isTrue fun k o f h => by rw [hp] at h; cases h
    | .busy k (.act o f) => decidable_of_iff (g p m.now o c) ⟨fun hg k' o' f' h => by
        rw [hp] at h
        cases h
        exact hg, fun hg => hg k o f hp⟩

variable {A}

theorem next_spec {t : Scene R σ κ β μ π} {p : π} {c : δ} (h : A.next m p c = some t) :
    ∃ k o f r s, m.party p = .busy k (.act o f) ∧ A.sem p m.now o c = some (r, s) ∧
      t = put { m with now := s } p (.busy k (f r)) := by
  unfold next at h
  split at h
  · next k o f hp =>
    obtain ⟨⟨r, s⟩, hsem, rfl⟩ := Option.map_eq_some_iff.mp h
    exact ⟨k, o, f, r, s, hp, hsem, rfl⟩
  · cases h

@[simp] theorem put_self {p : π} :
    (put m p a).party p = a := Function.update_self ..

theorem put_of_ne {p q : π} (h : q ≠ p) :
    (put m p a).party q = m.party q := Function.update_of_ne h _ _

@[simp] theorem put_now {p : π} :
    (put m p a).now = m.now := rfl

/-- A call that is under way comes to no other operations than its program
does. -/
theorem only_reached {P : κ → O → Prop} (h : ∀ k m, (A.call k m).Only (P k))
    (hm : Machine.Reachable (A.machine init) m) :
    ∀ p k left, m.party p = .busy k left → left.Only (P k) := by
  refine Machine.Reachable.invariant (M := A.machine init)
    (I := fun m => ∀ p k left, m.party p = .busy k left → left.Only (P k)) ?_ ?_ hm
  · rintro m ⟨_, hgone⟩ p k left hp
    rw [hgone] at hp
    cases hp
  · intro m e t ih he
    have hput : ∀ (m' : Scene R σ κ β μ π) (p : π) (a : Party R κ β μ),
        m'.party = m.party → (∀ k left, a = .busy k left → left.Only (P k)) →
        ∀ q k left, (put m' p a).party q = .busy k left → left.Only (P k) := by
      intro m' p a hm' ha q k left hq
      by_cases hqp : q = p
      · rw [hqp, put_self] at hq
        exact ha k left hq
      · rw [put_of_ne hqp, hm'] at hq
        exact ih q k left hq
    cases e with
    | start p i =>
      simp only [machine, step] at he
      split at he
      · cases he
        exact hput m p _ rfl fun _ _ h => by cases h
      · cases he
    | call p k =>
      simp only [machine, step] at he
      split at he
      · cases he
        refine hput m p _ rfl fun k' left hk => ?_
        cases hk
        exact h _ _
      · cases he
    | act p c =>
      obtain ⟨k, o, f, r, s, hp, _, rfl⟩ := next_spec he
      refine hput _ p _ rfl fun k' left hk => ?_
      cases hk
      exact (ih p k _ hp).2 r
    | ret p =>
      simp only [machine, step] at he
      split at he
      · cases he
        exact hput m p _ rfl fun _ _ h => by cases h
      · cases he
    | die p =>
      simp only [machine, step] at he
      split at he
      · cases he
      · cases he
        exact hput _ p _ rfl fun _ _ h => by cases h

/-! ## The rule -/

section
variable (A) (g : π → σ → O → δ → Prop) [∀ p s o c, Decidable (g p s o c)] (W : σ → Prop)
  (rely : π → σ → σ → Prop) (L : π → μ → σ → Prop) (Q : π → κ → β → σ → Prop)

/-- What a party does to the others is what they rely on. -/
def Guar (p : π) (s t : σ) : Prop := ∀ q, q ≠ p → rely q s t

/-- A program of a party, among the others. -/
abbrev Holds {α : Type} (p : π) (Q : α → σ → Prop) (left : Prog R α) (s : σ) : Prop :=
  left.Stands ((A.sem p).under (g p)) W (rely p) (Guar rely p) Q s

/-- A party's memory tells the truth, and its call stands. -/
def Fits (p : π) (now : σ) : Party R κ β μ → Prop
  | .gone => True
  | .idle m => L p m now
  | .busy k left => Holds A g W rely p (fun a t => L p a.2 t ∧ Q p k a.1 t) left now

/-- What is needed of a crew for its runs under a guard to be sound. -/
structure Sound (init : σ → Prop) : Prop where
  refl : ∀ p s, rely p s s
  trans : ∀ p s t u, rely p s t → rely p t u → rely p s u
  memory : ∀ p m s t, L p m s → rely p s t → L p m t
  result : ∀ p k b s t, Q p k b s → rely p s t → Q p k b t
  init : ∀ s, init s → W s
  start : ∀ p i s, W s → L p (A.start i) s
  call : ∀ p k m s, W s → L p m s →
    Holds A g W rely p (fun a t => L p a.2 t ∧ Q p k a.1 t) (A.call k m) s
  die : ∀ p s, W s → W (A.die p s) ∧ Guar rely p s (A.die p s)

variable {A g W rely L Q}

omit [DecidableEq π] in
theorem Fits.stable (hA : Sound A g W rely L Q init) {p : π} {t : σ}
    (h : Fits A g W rely L Q p s a) (hrely : rely p s t) :
    Fits A g W rely L Q p t a := by
  cases a with
  | gone => trivial
  | idle m => exact hA.memory _ _ _ _ h hrely
  | busy k left =>
    exact Prog.Stands.stable h (hA.trans p)
      (fun _ _ _ hq hr => ⟨hA.memory _ _ _ _ hq.1 hr, hA.result _ _ _ _ _ hq.2 hr⟩) hrely

/-- In every run under the guard the world is sound and every party fits. -/
theorem Sound.reached (hA : Sound A g W rely L Q init)
    (h : Machine.ReachesUnder (A.machine init) (Guard g) m) :
    W m.now ∧ ∀ p, Fits A g W rely L Q p m.now (m.party p) := by
  refine Machine.ReachesUnder.invariant (M := A.machine init)
    (I := fun m => W m.now ∧ ∀ p, Fits A g W rely L Q p m.now (m.party p)) ?_ ?_ h
  · rintro m ⟨hi, hgone⟩
    exact ⟨hA.init _ hi, fun p => by rw [hgone]; trivial⟩
  · rintro m e t ⟨hW, hfits⟩ hg he
    -- A party that changes itself only leaves the others where they are.
    have hself : ∀ (p : π) (a : Party R κ β μ), Fits A g W rely L Q p m.now a →
        W (put m p a).now ∧
          ∀ q, Fits A g W rely L Q q (put m p a).now ((put m p a).party q) := by
      intro p a ha
      refine ⟨hW, fun q => ?_⟩
      by_cases hq : q = p
      · rw [hq, put_self]
        exact ha
      · rw [put_of_ne hq]
        exact hfits q
    have hothers : ∀ (p : π) (a : Party R κ β μ) (s : σ), W s → Guar rely p m.now s →
        Fits A g W rely L Q p s a →
        W (put { m with now := s } p a).now ∧ ∀ q, Fits A g W rely L Q q
          (put { m with now := s } p a).now ((put { m with now := s } p a).party q) := by
      intro p a s hs hguar ha
      refine ⟨hs, fun q => ?_⟩
      by_cases hq : q = p
      · rw [hq, put_self]
        exact ha
      · rw [put_of_ne hq]
        exact (hfits q).stable hA (hguar q hq)
    cases e with
    | start p i =>
      simp only [machine, step] at he
      split at he
      · cases he
        exact hself p _ (hA.start p i _ hW)
      · cases he
    | call p k =>
      simp only [machine, step] at he
      split at he
      · next mem hp =>
        cases he
        have hmem := hfits p
        rw [hp] at hmem
        exact hself p _ (hA.call p k mem _ hW hmem)
      · cases he
    | act p c =>
      obtain ⟨k, o, f, r, s, hp, hsem, rfl⟩ := next_spec he
      have hstands := hfits p
      rw [hp] at hstands
      obtain ⟨hs, hguar, hrest⟩ := hstands m.now (hA.refl p _) hW c r s
        (under_eq_some.mpr ⟨hg k o f hp, hsem⟩)
      exact hothers p _ s hs hguar hrest
    | ret p =>
      simp only [machine, step] at he
      split at he
      · next k a hp =>
        cases he
        have hdone := hfits p
        rw [hp] at hdone
        exact hself p _ hdone.1
      · cases he
    | die p =>
      simp only [machine, step] at he
      split at he
      · cases he
      · cases he
        obtain ⟨hs, hguar⟩ := hA.die p _ hW
        exact hothers p .gone _ hs hguar trivial

theorem Sound.step_rely (hA : Sound A g W rely L Q init) {t : Scene R σ κ β μ π}
    {e : Deed π ι κ δ} {q : π} (h : Machine.ReachesUnder (A.machine init) (Guard g) m)
    (hg : Guard g m e) (he : A.step m e = some t) (hq : e.party ≠ q) : rely q m.now t.now := by
  obtain ⟨hW, hfits⟩ := hA.reached h
  cases e with
  | start p i | call p k | ret p =>
    simp only [step] at he
    split at he
    · cases he
      exact hA.refl q _
    · cases he
  | act p c =>
    obtain ⟨k, o, f, r, s, hp, hsem, rfl⟩ := next_spec he
    have hstands := hfits p
    rw [hp] at hstands
    obtain ⟨_, hguar, _⟩ := hstands m.now (hA.refl p _) hW c r s
      (under_eq_some.mpr ⟨hg k o f hp, hsem⟩)
    exact hguar q (Ne.symm hq)
  | die p =>
    simp only [step] at he
    split at he
    · cases he
    · cases he
      exact (hA.die p _ hW).2 q (Ne.symm hq)

theorem Sound.run_rely (hA : Sound A g W rely L Q init) {t : Scene R σ κ β μ π}
    {es : List (Deed π ι κ δ)} {q : π} (h : Machine.ReachesUnder (A.machine init) (Guard g) m)
    (ho : (A.machine init).Obeys (Guard g) m es) (hr : (A.machine init).run m es = some t)
    (hq : ∀ e ∈ es, e.party ≠ q) : rely q m.now t.now := by
  induction es generalizing m with
  | nil =>
    rw [Machine.System.run] at hr
    cases hr
    exact hA.refl q _
  | cons e es ih =>
    obtain ⟨u, hu, hrest⟩ := Machine.run_cons hr
    have hstep := hA.step_rely h ho.1 hu (hq e List.mem_cons_self)
    refine hA.trans q _ _ _ hstep (ih (h.step ho.1 hu) (ho.2 u hu) hrest ?_)
    exact fun e he => hq e (List.mem_cons_of_mem _ he)

/-- Among infinitely many parties there is one that stands by in a run. -/
theorem Sound.run_watched [Infinite π] (hA : Sound A g W rely L Q init) {t : Scene R σ κ β μ π}
    {es : List (Deed π ι κ δ)} (h : Machine.ReachesUnder (A.machine init) (Guard g) m)
    (ho : (A.machine init).Obeys (Guard g) m es) (hr : (A.machine init).run m es = some t) :
    ∃ q, rely q m.now t.now := by
  obtain ⟨q, hq⟩ := Infinite.exists_notMem_finset (es.map Deed.party).toFinset
  refine ⟨q, hA.run_rely h ho hr fun e he hp => hq ?_⟩
  rw [List.mem_toFinset, ← hp]
  exact List.mem_map_of_mem he

end

/-! ## Runs without a guard -/

section
variable {W : σ → Prop} {rely : π → σ → σ → Prop} {L : π → μ → σ → Prop}
  {Q : π → κ → β → σ → Prop} {init : σ → Prop}

omit [DecidableEq π] in
theorem guard_free (m : Scene R σ κ β μ π) :
    ∀ e : Deed π ι κ δ, Guard (fun _ _ _ _ => True) m e
  | .start _ _ | .call _ _ | .ret _ | .die _ => trivial
  | .act _ _ => fun _ _ _ _ => trivial

theorem obeys_free (m : Scene R σ κ β μ π) (es : List (Deed π ι κ δ)) :
    (A.machine init).Obeys (Guard fun _ _ _ _ => True) m es := by
  induction es generalizing m with
  | nil => trivial
  | cons e es ih => exact ⟨guard_free m e, fun t _ => ih t⟩

theorem reaches_free (h : Machine.Reachable (A.machine init) m) :
    Machine.ReachesUnder (A.machine init) (Guard fun _ _ _ _ => True) m :=
  Machine.ReachesUnder.mono (fun m e _ _ => guard_free m e) h

end

end Crew

end Program
