import LocalBase.Lib.Machine

/-!
# Programs of atomic operations

A program is over with a result, or performs an operation and goes on with
its answer. What an operation does to the world, and what it answers, depends
on a choice the program does not make: whether a disk is full, what a server
says. `Safe` is the rule of such a program: a condition that holds after every
operation, wherever the program is cut off, and another at its end.

A `Shop` takes calls of several kinds one after another. Every call may be cut
off between two of its operations, and the next begins on what it left.
-/

namespace Program

/-- A program over operations `O`, each with answers of its own type. -/
inductive Prog {O : Type} (R : O → Type) (α : Type) where
  | done (a : α) : Prog R α
  | act (o : O) (k : R o → Prog R α) : Prog R α

variable {O : Type} {R : O → Type} {α β σ δ κ : Type} {p : Prog R α} {Q : α → σ → Prop}
  {f : α → Prog R β} {s : σ} {P : O → Prop} {cs : List δ} {a : α}

def Prog.bind (p : Prog R α) (f : α → Prog R β) : Prog R β :=
  match p with
  | .done a => f a
  | .act o k => .act o fun r => (k r).bind f

instance : Monad (Prog R) where
  pure := .done
  bind := Prog.bind

/-- Perform one operation and answer what it answered. -/
def perform (o : O) : Prog R (R o) := .act o .done

@[simp] theorem pure_eq (a : α) : (pure a : Prog R α) = .done a := rfl

@[simp] theorem bind_done (a : α) (f : α → Prog R β) : (Prog.done a >>= f) = f a := rfl

@[simp] theorem bind_act (o : O) (k : R o → Prog R α) (f : α → Prog R β) :
    (Prog.act o k >>= f) = .act o fun r => k r >>= f := rfl

@[simp] theorem bind_perform (o : O) (f : R o → Prog R β) :
    (perform o >>= f) = .act o f := rfl

/-- What an operation answers and leaves, for each choice; `none` where the
choice is not to be had. -/
abbrev Sem (R : O → Type) (σ δ : Type) : Type := σ → (o : O) → δ → Option (R o × σ)

/-! ## The rule -/

section
variable (sem : Sem R σ δ) (I : σ → Prop)

/-- From `s` on, `I` holds after every operation and `Q` at the end. -/
def Prog.Safe (Q : α → σ → Prop) : Prog R α → σ → Prop
  | .done a, s => Q a s
  | .act o k, s => ∀ c r t, sem s o c = some (r, t) → I t ∧ Prog.Safe Q (k r) t

variable {sem I}

@[simp] theorem safe_done :
    (Prog.done a : Prog R α).Safe sem I Q s ↔ Q a s := Iff.rfl

/-- A program and then another: the second is safe from wherever the first
ends. -/
theorem safe_bind {Q : β → σ → Prop}
    (h : p.Safe sem I (fun a t => (f a).Safe sem I Q t) s) : (p >>= f).Safe sem I Q s := by
  induction p generalizing s with
  | done a => exact h
  | act o k ih =>
    intro c r t ht
    obtain ⟨hi, hrest⟩ := h c r t ht
    exact ⟨hi, ih r hrest⟩

theorem Prog.Safe.mono {J : σ → Prop} {Q' : α → σ → Prop} (h : p.Safe sem I Q s)
    (hI : ∀ t, I t → J t) (hQ : ∀ a t, Q a t → Q' a t) :
    p.Safe sem J Q' s := by
  induction p generalizing s with
  | done a => exact hQ a s h
  | act o k ih =>
    intro c r t ht
    obtain ⟨hi, hrest⟩ := h c r t ht
    exact ⟨hI t hi, ih r hrest⟩

/-- What holds on the way holds at the end too, when it held at the start. -/
theorem Prog.Safe.at_end (h : p.Safe sem I Q s)
    (hs : I s) : p.Safe sem I (fun a t => Q a t ∧ I t) s := by
  induction p generalizing s with
  | done a => exact ⟨h, hs⟩
  | act o k ih =>
    intro c r t ht
    obtain ⟨hi, hrest⟩ := h c r t ht
    exact ⟨hi, ih r hrest hi⟩

end

/-- Every operation that a program can come to is one of these. -/
def Prog.Only (P : O → Prop) : Prog R α → Prop
  | .done _ => True
  | .act o k => P o ∧ ∀ r, Prog.Only P (k r)

@[simp] theorem only_done : (Prog.done a : Prog R α).Only P ↔ True := Iff.rfl

theorem only_bind (hp : p.Only P) (hf : ∀ a, (f a).Only P) : (p >>= f).Only P := by
  induction p with
  | done a => exact hf a
  | act o k ih => exact ⟨hp.1, fun r => ih r (hp.2 r)⟩

theorem only_of_forall (h : ∀ o, P o) : ∀ p : Prog R α, p.Only P
  | .done _ => trivial
  | .act o k => ⟨h o, fun r => only_of_forall h (k r)⟩

/-- What is left of a program after some choices, and what they left it with;
`none` where one is not to be had. -/
def Prog.after (sem : Sem R σ δ) : Prog R α → σ → List δ → Option (Prog R α × σ)
  | p, s, [] => some (p, s)
  | .done _, _, _ :: _ => none
  | .act o k, s, c :: cs => (sem s o c).bind fun x => Prog.after sem (k x.1) x.2 cs

variable {sem : Sem R σ δ}

/-- When two programs one after the other are over, the first was over before the second
began. -/
theorem after_bind {t : σ} {b : β} (h : (p >>= f).after sem s cs = some (.done b, t)) :
    ∃ cs₁ cs₂ a u, cs = cs₁ ++ cs₂ ∧ p.after sem s cs₁ = some (.done a, u) ∧
      (f a).after sem u cs₂ = some (.done b, t) := by
  induction p generalizing s cs with
  | done a => exact ⟨[], cs, a, s, rfl, rfl, h⟩
  | act o k ih =>
    cases cs with
    | nil => cases h
    | cons c cs =>
      obtain ⟨⟨r, u⟩, hu, h⟩ := Option.bind_eq_some_iff.mp h
      obtain ⟨cs₁, cs₂, a, v, rfl, hk, hf⟩ := ih r h
      exact ⟨c :: cs₁, cs₂, a, v, rfl, Option.bind_eq_some_iff.mpr ⟨(r, u), hu, hk⟩, hf⟩

theorem Prog.Safe.after {I : σ → Prop} {left : Prog R α} {t : σ} (h : p.Safe sem I Q s) (hs : I s)
    (ht : p.after sem s cs = some (left, t)) : I t := by
  induction cs generalizing p s with
  | nil =>
    cases p <;> · cases ht; exact hs
  | cons c cs ih =>
    cases p with
    | done a => cases ht
    | act o k =>
      obtain ⟨⟨r, u⟩, hu, ht⟩ := Option.bind_eq_some_iff.mp ht
      obtain ⟨hi, hrest⟩ := h c r u hu
      exact ih hrest hi ht

theorem Prog.Safe.ends {I : σ → Prop} {t : σ} (h : p.Safe sem I Q s)
    (ht : p.after sem s cs = some (.done a, t)) : Q a t := by
  induction cs generalizing p s with
  | nil =>
    cases p with
    | done b => cases ht; exact h
    | act o k => cases ht
  | cons c cs ih =>
    cases p with
    | done b => cases ht
    | act o k =>
      obtain ⟨⟨r, u⟩, hu, ht⟩ := Option.bind_eq_some_iff.mp ht
      exact ih (h c r u hu).2 ht

/-- The operations that a guard lets through. -/
def Sem.under (sem : Sem R σ δ) (g : σ → O → δ → Prop) [∀ s o c, Decidable (g s o c)] :
    Sem R σ δ :=
  fun s o c => if g s o c then sem s o c else none

theorem under_eq_some {g : σ → O → δ → Prop} [∀ s o c, Decidable (g s o c)] {o : O} {c : δ}
    {x : R o × σ} :
    sem.under g s o c = some x ↔ g s o c ∧ sem s o c = some x := by
  unfold Sem.under
  split
  · next h => exact (and_iff_right h).symm
  · next h => exact iff_of_false (by simp) fun hx => h hx.1

/-! ## Calls one after another -/

/-- Calls of the kinds `κ`: what each finds when it begins, and its program. -/
structure Shop (R : O → Type) (σ δ κ β : Type) where
  sem : Sem R σ δ
  enter : σ → κ → Option σ
  call : κ → Prog R β

/-- A call that was begun: its kind, the world it found, what is left of it. -/
structure Call (R : O → Type) (σ κ β : Type) where
  kind : κ
  before : σ
  left : Prog R β

/-- The world, and the last call unless it was cut off. -/
structure Moment (R : O → Type) (σ κ β : Type) where
  now : σ
  call : Option (Call R σ κ β)

inductive Event (κ δ : Type) where
  | begin (k : κ)
  | next (c : δ)
  | cut

/-- No call is under way. -/
def Moment.idle (m : Moment R σ κ β) : Bool :=
  match m.call with
  | none => true
  | some c => match c.left with
    | .done _ => true
    | .act _ _ => false

/-- Perform the next operation of the call under way. -/
def Shop.next (A : Shop R σ δ κ β) (m : Moment R σ κ β) (c : δ) : Option (Moment R σ κ β) :=
  match m.call with
  | none => none
  | some call => match call.left with
    | .done _ => none
    | .act o k => (A.sem m.now o c).map fun a => ⟨a.2, some { call with left := k a.1 }⟩

def Shop.step (A : Shop R σ δ κ β) (m : Moment R σ κ β) : Event κ δ → Option (Moment R σ κ β)
  | .begin k =>
    if m.idle then (A.enter m.now k).map fun s => ⟨s, some ⟨k, s, A.call k⟩⟩ else none
  | .next c => A.next m c
  | .cut => if m.idle then none else some ⟨m.now, none⟩

/-- The runs of the calls, from a world that `init` allows. -/
def Shop.machine (A : Shop R σ δ κ β) (init : σ → Prop) :
    Machine.System (Moment R σ κ β) (Event κ δ) where
  init m := init m.now ∧ m.call = none
  step := A.step

variable {A : Shop R σ δ κ β} {m : Moment R σ κ β}

/-- An operation was performed, or nothing was left to perform. -/
theorem Shop.next_spec {t : Moment R σ κ β} {c : δ} (h : A.next m c = some t) :
    ∃ call o k r s, m.call = some call ∧ call.left = .act o k ∧
      A.sem m.now o c = some (r, s) ∧ t = ⟨s, some { call with left := k r }⟩ := by
  unfold Shop.next at h
  split at h
  · cases h
  · next call hcall =>
    split at h
    · cases h
    · next o k hleft =>
      obtain ⟨⟨r, s⟩, hsem, rfl⟩ := Option.map_eq_some_iff.mp h
      exact ⟨call, o, k, r, s, hcall, hleft, hsem, rfl⟩

/-- The runs whose operations meet `g` and whose calls are cut off only where
`stop` lets them. -/
def Shop.Guard (g : κ → σ → O → δ → Prop) (stop : σ → Prop) (m : Moment R σ κ β) :
    Event κ δ → Prop
  | .begin _ => True
  | .next c => ∀ call o k, m.call = some call → call.left = .act o k → g call.kind m.now o c
  | .cut => stop m.now

/-- A guard that can be evaluated is evaluated at the operation that is
next. -/
instance decidableGuard (g : κ → σ → O → δ → Prop) [∀ k s o c, Decidable (g k s o c)]
    (stop : σ → Prop) [DecidablePred stop] (m : Moment R σ κ β) :
    ∀ e : Event κ δ, Decidable (Shop.Guard g stop m e)
  | .begin _ => isTrue trivial
  | .cut => inferInstanceAs (Decidable (stop m.now))
  | .next c =>
    match hc : m.call with
    | none => isTrue fun call o k h _ => by rw [hc] at h; cases h
    | some call =>
      match hl : call.left with
      | .done r => isTrue fun call' o k h h' => by
          rw [hc] at h
          cases h
          rw [hl] at h'
          cases h'
      | .act o k => decidable_of_iff (g call.kind m.now o c) ⟨fun hg call' o' k' h h' => by
          rw [hc] at h
          cases h
          rw [hl] at h'
          cases h'
          exact hg, fun hg => hg call o k hc hl⟩

/-- What a call has found and done: `I` holds of it, and `Q` when it has
returned, as long as its operations meet `g`. -/
def Call.FollowsUnder (A : Shop R σ δ κ β) (g : κ → σ → O → δ → Prop)
    [∀ k s o c, Decidable (g k s o c)] (I : κ → σ → σ → Prop) (Q : κ → σ → β → σ → Prop)
    (c : Call R σ κ β) (now : σ) : Prop :=
  I c.kind c.before now ∧
    c.left.Safe (A.sem.under (g c.kind)) (I c.kind c.before) (Q c.kind c.before) now

/-- The rule of calls under a guard: a call begun on a world that is sound
follows its rule, and leaves a sound one, where it ends and wherever the guard
lets it be cut off. -/
theorem Shop.follows_under {init S : σ → Prop} {g : κ → σ → O → δ → Prop}
    [∀ k s o c, Decidable (g k s o c)] {stop : σ → Prop} {I : κ → σ → σ → Prop}
    {Q : κ → σ → β → σ → Prop} (h0 : ∀ s, init s → S s)
    (hcall : ∀ s k t, S s → A.enter s k = some t →
      I k t t ∧ (A.call k).Safe (A.sem.under (g k)) (I k t) (Q k t) t)
    (hcut : ∀ k b s, I k b s → stop s → S s) (hend : ∀ k b r s, I k b s → Q k b r s → S s)
    (h : Machine.ReachesUnder (A.machine init) (Shop.Guard g stop) m) :
    (m.call = none → S m.now) ∧ ∀ c, m.call = some c → c.FollowsUnder A g I Q m.now := by
  refine Machine.ReachesUnder.invariant (M := A.machine init)
    (I := fun m => (m.call = none → S m.now) ∧
      ∀ c, m.call = some c → c.FollowsUnder A g I Q m.now) ?_ ?_ h
  · rintro m ⟨hs, hnone⟩
    exact ⟨fun _ => h0 _ hs, fun c hc => absurd hc (by rw [hnone]; simp)⟩
  · rintro m e t ⟨hs, hc⟩ hg he
    cases e with
    | begin k =>
      simp only [Shop.machine, Shop.step] at he
      split at he
      · next hidle =>
        obtain ⟨u, hu, rfl⟩ := Option.map_eq_some_iff.mp he
        have hsound : S m.now := by
          cases hcall' : m.call with
          | none => exact hs hcall'
          | some c =>
            obtain ⟨hi, hsafe⟩ := hc c hcall'
            simp only [Moment.idle, hcall'] at hidle
            cases hleft : c.left with
            | done r =>
              rw [hleft] at hsafe
              exact hend _ _ _ _ hi hsafe
            | act o f =>
              rw [hleft] at hidle
              cases hidle
        refine ⟨fun hnone => absurd hnone (by simp), ?_⟩
        rintro c ⟨⟩
        exact hcall _ _ _ hsound hu
      · cases he
    | next c =>
      obtain ⟨call, o, k, r, s, hsome, hleft, hsem, rfl⟩ := Shop.next_spec he
      obtain ⟨_, hsafe⟩ := hc call hsome
      rw [hleft] at hsafe
      obtain ⟨hi, hrest⟩ :=
        hsafe c r s (under_eq_some.mpr ⟨hg call o k hsome hleft, hsem⟩)
      refine ⟨fun hnone => absurd hnone (by simp), ?_⟩
      rintro c' ⟨⟩
      exact ⟨hi, hrest⟩
    | cut =>
      simp only [Shop.machine, Shop.step] at he
      split at he
      · cases he
      · next hidle =>
        cases he
        refine ⟨fun _ => ?_, fun c hc' => absurd hc' (by simp)⟩
        cases hcall' : m.call with
        | none => exact hs hcall'
        | some c => exact hcut _ _ _ (hc c hcall').1 hg

/-- What a call has found and done: `I` holds of it, and `Q` when it has
returned. -/
def Call.Follows (A : Shop R σ δ κ β) (I : κ → σ → σ → Prop) (Q : κ → σ → β → σ → Prop)
    (c : Call R σ κ β) (now : σ) : Prop :=
  I c.kind c.before now ∧ c.left.Safe A.sem (I c.kind c.before) (Q c.kind c.before) now

theorem under_true (sem : Sem R σ δ) : sem.under (fun _ _ _ => True) = sem := by
  funext s o c
  exact if_pos trivial

/-- A call begun on a world that is sound is safe throughout, and leaves one:
then every world is sound, however the calls are cut off, and every call
follows its rule. -/
theorem Shop.follows {init S : σ → Prop} {I : κ → σ → σ → Prop} {Q : κ → σ → β → σ → Prop}
    (h0 : ∀ s, init s → S s) (hcall : ∀ s k t, S s → A.enter s k = some t →
      I k t t ∧ (A.call k).Safe A.sem (I k t) (Q k t) t) (hS : ∀ k b s, I k b s → S s)
    (h : Machine.Reachable (A.machine init) m) :
    S m.now ∧ ∀ c, m.call = some c → c.Follows A I Q m.now := by
  have hunder : Machine.ReachesUnder (A.machine init)
      (Shop.Guard (fun _ _ _ _ => True) fun _ => True) m :=
    Machine.ReachesUnder.mono (fun s e _ _ => by
      cases e with
      | begin k => trivial
      | next c => exact fun _ _ _ _ _ => trivial
      | cut => trivial) h
  obtain ⟨hnone, hsome⟩ := Shop.follows_under (g := fun _ _ _ _ => True) (S := S) (I := I) (Q := Q)
    h0 (fun s k t hs ht => by rw [under_true]; exact hcall s k t hs ht)
    (fun k b s hi _ => hS k b s hi) (fun k b r s hi _ => hS k b s hi) hunder
  refine ⟨?_, fun c hc => ?_⟩
  · cases hc : m.call with
    | none => exact hnone hc
    | some c => exact hS _ _ _ (hsome c hc).1
  · obtain ⟨hi, hsafe⟩ := hsome c hc
    rw [under_true] at hsafe
    exact ⟨hi, hsafe⟩

end Program
