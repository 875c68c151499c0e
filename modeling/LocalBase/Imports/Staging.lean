import LocalBase.Imports.Sane

/-!
# In a staging directory

What an import finds in its staging directory is what it left there. A download
changes a partial and what is kept beside it, and nothing else.
-/

namespace LocalBase.Imports

open Program Files

variable {sum : Bytes → String} {short : String → String} {p : Run} {w t u : World} {d : Dir}
  {work : Work} {n i : Nat} {es es' : Entries} {x y : Name} {xs : List Name} {bs : Bytes}
  {α : Type} {b : Budget}

/-- The call works in its staging directory, and this is what is in it. -/
structure Mine (short : String → String) (p : Run) (work : Work) (n : Nat) (es : Entries)
    (w : World) : Prop where
  under : (p, work) ∈ w.under
  look : w.folders.look (.staging (work.staging short)) = some (n, es)

theorem Mine.owns (h : Mine short p work n es w) : Owns short p w (.staging (work.staging short)) :=
  ⟨work, h.under, rfl⟩

theorem mine_stable : Stable short p (Mine short p work n es) := fun _ _ h hk =>
  ⟨(hk.under _ h.under rfl).1, (hk.under _ h.under rfl).2.trans h.look⟩

theorem Mine.place (h : Mine short p work n es w) :
    w.folders.place (.staging (work.staging short)) = some n :=
  (Folders.place_of_look h.look).1

theorem Mine.entry (h : Mine short p work n es w) : w.folders.entry n = es :=
  (Folders.place_of_look h.look).2

theorem Mine.file (h : Mine short p work n es w) :
    w.folders.file (.staging (work.staging short)) x = es x := by
  rw [Folders.file_of_place h.place, h.entry]

theorem Mine.changed {f : Folders Dir Name UInt8} (h : Mine short p work n es w)
    (hp : f.place = w.folders.place) (he : ∀ y, f.entry n y = es' y)
    (hl : ∀ e, e ≠ .staging (work.staging short) → f.look e = w.folders.look e) :
    Touches (· = .staging (work.staging short)) w { w with folders := f } ∧
      Mine short p work n es' { w with folders := f } :=
  ⟨⟨rfl, rfl, rfl, hl⟩, h.under, by
    rw [Folders.look_of_place ((congrFun hp _).trans h.place), funext he]⟩

/-! ## Operations -/

theorem removed_spec (h : Mine short p work n es w)
    (hu : w.removed (.staging (work.staging short)) x = some u) :
    Touches (· = .staging (work.staging short)) w u ∧
      Mine short p work n (Function.update es x none) u := by
  obtain ⟨m, hm, rfl⟩ := Option.map_eq_some_iff.mp hu
  obtain rfl : m = n := Option.some.inj (hm.symm.trans h.place)
  refine h.changed rfl (fun y => ?_) fun e he => Folders.remove_look fun k hk =>
    Folders.number_ne_of_folder h.place hk he
  by_cases hy : y = x
  · rw [hy, Folders.remove_entry_self, Function.update_self]
  · rw [Folders.remove_entry_of_ne fun hp => hy (congrArg Prod.snd hp), h.entry,
      Function.update_of_ne hy]

theorem created_spec (h : Mine short p work n es w) (x : Name) (bs : Bytes)
    (hn : n < w.folders.count) :
    Touches (· = .staging (work.staging short)) w
        { w with folders := w.folders.create n x bs hn } ∧
      Mine short p work n (Function.update es x (some (w.folders.disk.next, bs)))
        { w with folders := w.folders.create n x bs hn } := by
  refine h.changed rfl (fun y => ?_) fun e he => Folders.create_look h.place he
  by_cases hy : y = x
  · rw [hy, Folders.create_entry_self, Function.update_self]
  · rw [Folders.create_entry_of_ne fun hp => hy (congrArg Prod.snd hp), h.entry,
      Function.update_of_ne hy]

theorem put_spec (h : Mine short p work n es w) {old : Bytes} (hx : es x = some (i, old))
    (bs : Bytes) :
    Touches (· = .staging (work.staging short)) w { w with folders := w.folders.put i bs } ∧
      Mine short p work n (Function.update es x (some (i, bs)))
        { w with folders := w.folders.put i bs } := by
  rw [← h.entry] at hx
  have hname := (Folders.names_of_entry hx).1
  refine h.changed rfl (fun y => ?_) fun e he => Folders.put_look h.place hname he
  by_cases hy : y = x
  · rw [hy, Folders.put_entry_self hname, Function.update_self]
  · rw [Folders.put_entry_of_ne hname fun hp => hy (congrArg Prod.snd hp), h.entry,
      Function.update_of_ne hy]

theorem replaced_spec (h : Mine short p work n es w)
    (hu : w.replaced (.staging (work.staging short)) x bs = some u) :
    Touches (· = .staging (work.staging short)) w u ∧
      ∃ e, Mine short p work n (Function.update es x e) u := by
  unfold World.replaced at hu
  split at hu
  · cases hu
  · next m hm =>
    obtain rfl : m = n := Option.some.inj (hm.symm.trans h.place)
    cases hu
    obtain ⟨ht, hmine⟩ := created_spec h x bs (w.folders.given _ _ hm)
    exact ⟨ht, _, hmine⟩

theorem opened_spec {trunc : Bool} (h : Mine short p work n es w)
    (hu : w.opened (.staging (work.staging short)) x trunc = some (i, u)) :
    Touches (· = .staging (work.staging short)) w u ∧
      ∃ bs, Mine short p work n (Function.update es x (some (i, bs))) u := by
  unfold World.opened at hu
  split at hu
  · cases hu
  · next m hm =>
    obtain rfl : m = n := Option.some.inj (hm.symm.trans h.place)
    split at hu
    · cases hu
      obtain ⟨ht, hmine⟩ := created_spec h x [] (w.folders.given _ _ hm)
      exact ⟨ht, _, hmine⟩
    · next j hj =>
      cases hu
      have hx : es x = some (i, w.folders.disk.bytes i) := by
        rw [← h.entry]
        exact Folders.entry_of_names hj
      cases trunc with
      | true =>
        obtain ⟨ht, hmine⟩ := put_spec h hx []
        exact ⟨ht, _, hmine⟩
      | false =>
        refine ⟨.refl _ w, w.folders.disk.bytes i, ?_⟩
        rw [← hx, Function.update_eq_self]
        exact h

theorem renamed_spec (h : Mine short p work n es w) (hxy : x ≠ y)
    (hu : w.renamed (.staging (work.staging short)) x y = some u) :
    Touches (· = .staging (work.staging short)) w u ∧
      Mine short p work n (Function.update (Function.update es x none) y (es x)) u := by
  obtain ⟨m, hm, hu⟩ := Option.bind_eq_some_iff.mp hu
  obtain rfl : m = n := Option.some.inj (hm.symm.trans h.place)
  obtain ⟨f, hf, rfl⟩ := Option.map_eq_some_iff.mp hu
  obtain ⟨_, hplace, hy, hx, hother⟩ := Folders.rename_entries hf hxy
  refine h.changed hplace (fun z => ?_) fun e he => Folders.rename_look hf h.place he
  by_cases hzy : z = y
  · rw [hzy, hy, h.entry, Function.update_self]
  · rw [Function.update_of_ne hzy]
    by_cases hzx : z = x
    · rw [hzx, hx, Function.update_self]
    · rw [Function.update_of_ne hzx, ← h.entry]
      exact hother m z (fun hp => hzx (congrArg Prod.snd hp)) fun hp => hzy (congrArg Prod.snd hp)

/-! ## Some files may be anything -/

/-- Nothing is different from what was in the directory but at these names. -/
def Near (short : String → String) (p : Run) (work : Work) (n : Nat) (xs : List Name)
    (es : Entries) (w : World) : Prop :=
  ∃ es', Mine short p work n es' w ∧ ∀ y, y ∉ xs → es' y = es y

def Opened (short : String → String) (p : Run) (work : Work) (n : Nat) (xs : List Name)
    (es : Entries) (x : Name) (i : Nat) (w : World) : Prop :=
  ∃ es', Mine short p work n es' w ∧ (∀ y, y ∉ xs → es' y = es y) ∧ ∃ bs, es' x = some (i, bs)

theorem near_stable : Stable short p (Near short p work n xs es) :=
  fun _ _ ⟨es', h, hes⟩ hk => ⟨es', mine_stable _ _ h hk, hes⟩

theorem opened_stable : Stable short p (Opened short p work n xs es x i) :=
  fun _ _ ⟨es', h, hes⟩ hk => ⟨es', mine_stable _ _ h hk, hes⟩

theorem Opened.near (h : Opened short p work n xs es x i w) : Near short p work n xs es w := by
  obtain ⟨es', hm, hes, _⟩ := h
  exact ⟨es', hm, hes⟩

theorem Mine.near (h : Mine short p work n es w) : Near short p work n xs es w :=
  ⟨es, h, fun _ _ => rfl⟩

theorem near_update {e : Option (Nat × Bytes)} (hx : x ∈ xs) (h : ∀ y, y ∉ xs → es' y = es y) :
    ∀ y, y ∉ xs → Function.update es' x e y = es y := fun y hy => by
  have hne : y ≠ x := fun he => hy (he ▸ hx)
  rw [Function.update_of_ne hne]
  exact h y hy

theorem Near.owns (h : Near short p work n xs es w) :
    ∀ d, d = .staging (work.staging short) → Owns short p w d := by
  obtain ⟨_, hm, _⟩ := h
  rintro _ rfl
  exact hm.owns

section
variable {Q : α → World → Prop}

theorem runs_remove {k : Unit → Steps α} (hx : x ∈ xs) (hw : Near short p work n xs es w)
    (h : ∀ u, Near short p work n xs es u → Runs sum short p Q (k ()) u) :
    Runs sum short p Q (perform (.remove (.staging (work.staging short)) x) >>= k) w :=
  runs_own near_stable hw (fun _ ht _ => ht.owns) fun t c r u ht _ hact => by
    obtain ⟨es', hm, hes⟩ := ht
    cases c <;> simp only [act, reduceCtorEq, Option.map_eq_some_iff, Option.some.injEq,
      Prod.mk.injEq] at hact
    · obtain ⟨u', hu, _, rfl⟩ := hact
      obtain ⟨htouches, hm'⟩ := removed_spec hm hu
      exact ⟨htouches, h _ ⟨_, hm', near_update hx hes⟩⟩
    · obtain ⟨_, rfl⟩ := hact
      exact ⟨.refl _ t, h _ ⟨es', hm, hes⟩⟩

theorem runs_writeValidator {v : String} {k : Unit → Steps α} (hx : x ∈ xs)
    (hw : Near short p work n xs es w)
    (h : ∀ u, Near short p work n xs es u → Runs sum short p Q (k ()) u) :
    Runs sum short p Q (perform (.writeValidator (.staging (work.staging short)) x v) >>= k) w :=
  runs_own near_stable hw (fun _ ht _ => ht.owns) fun t c r u ht _ hact => by
    obtain ⟨es', hm, hes⟩ := ht
    cases c <;> simp only [act, reduceCtorEq, Option.map_eq_some_iff, Option.some.injEq,
      Prod.mk.injEq] at hact
    · obtain ⟨u', hu, _, rfl⟩ := hact
      obtain ⟨htouches, e, hm'⟩ := replaced_spec hm hu
      exact ⟨htouches, h _ ⟨_, hm', near_update hx hes⟩⟩
    · obtain ⟨_, rfl⟩ := hact
      exact ⟨.refl _ t, h _ ⟨es', hm, hes⟩⟩

theorem runs_openPartial {trunc : Bool} {k : Except Err Nat → Steps α} (hx : x ∈ xs)
    (hw : Near short p work n xs es w)
    (hfail : ∀ err u, Near short p work n xs es u → Runs sum short p Q (k (.error err)) u)
    (h : ∀ i u, Opened short p work n xs es x i u → Runs sum short p Q (k (.ok i)) u) :
    Runs sum short p Q (perform (.openPartial (.staging (work.staging short)) x trunc) >>= k) w :=
  runs_own near_stable hw (fun _ ht _ => ht.owns) fun t c r u ht _ hact => by
    obtain ⟨es', hm, hes⟩ := ht
    cases c <;> simp only [act, reduceCtorEq, Option.map_eq_some_iff, Option.some.injEq,
      Prod.mk.injEq] at hact
    · obtain ⟨⟨i, u'⟩, hu, rfl, rfl⟩ := hact
      obtain ⟨htouches, bs, hm'⟩ := opened_spec hm hu
      exact ⟨htouches, h i _ ⟨_, hm', near_update hx hes, bs, Function.update_self ..⟩⟩
    · obtain ⟨rfl, rfl⟩ := hact
      exact ⟨.refl _ t, hfail _ _ ⟨es', hm, hes⟩⟩
    · obtain ⟨⟨i, u'⟩, hu, rfl, rfl⟩ := hact
      obtain ⟨htouches, bs, hm'⟩ := opened_spec hm hu
      exact ⟨htouches, hfail _ _ ⟨_, hm', near_update hx hes⟩⟩

theorem runs_write {off : Option Nat} {piece : Bytes} {k : Option Err → Steps α} (hx : x ∈ xs)
    (hw : Opened short p work n xs es x i w)
    (h : ∀ r u, Opened short p work n xs es x i u → Runs sum short p Q (k r) u) :
    Runs sum short p Q (perform (.write i off piece) >>= k) w :=
  runs_own opened_stable hw (fun _ ht _ => ht.near.owns) fun t c r u ht _ hact => by
    obtain ⟨es', hm, hes, bs, hbs⟩ := ht
    have hput : ∀ new, Touches (· = .staging (work.staging short)) t
        { t with folders := t.folders.put i new } ∧
        Opened short p work n xs es x i { t with folders := t.folders.put i new } := fun new => by
      obtain ⟨htouches, hm'⟩ := put_spec hm hbs new
      exact ⟨htouches, _, hm', near_update hx hes, new, Function.update_self ..⟩
    cases c <;> simp only [act, reduceCtorEq, Option.some.injEq, Prod.mk.injEq] at hact
    · obtain ⟨_, rfl⟩ := hact
      exact ⟨(hput _).1, h _ _ (hput _).2⟩
    · obtain ⟨_, rfl⟩ := hact
      exact ⟨.refl _ t, h _ _ ⟨es', hm, hes, bs, hbs⟩⟩
    · obtain ⟨_, rfl⟩ := hact
      exact ⟨(hput _).1, h _ _ (hput _).2⟩

end

/-! ## Downloading -/

theorem budget_runs {I : World → Prop} {done : Nat} (hI : Stable short p I) (hw : I w) :
    Runs sum short p (fun _ u => I u) (b.check done) w := by
  unfold Budget.check
  split
  · exact hw
  · split
    · exact hw
    · refine runs_quiet hI hw rfl fun r t _ ht _ _ => ?_
      cases r <;> exact ht

theorem receive_runs {append : Bool} {expected : Int} {broken : Option Err} (hx : x ∈ xs)
    (body : List Bytes) : ∀ {b : Budget} {done : Nat} {w : World},
      Opened short p work n xs es x i w →
      Runs sum short p (fun _ u => Opened short p work n xs es x i u)
        (receive i append expected broken b done body) w := by
  induction body with
  | nil => exact fun hw => hw
  | cons piece rest ih =>
    intro b done w hw
    unfold receive
    split
    · exact ih hw
    · refine runs_write hx hw fun r t ht => ?_
      cases r with
      | some err => exact ht
      | none =>
        dsimp only
        split
        · exact ht
        · refine Runs.bind (budget_runs opened_stable ht) fun r u hu => ?_
          cases h : r.2 with
          | some err => exact hu
          | none => exact ih hu

theorem save_runs {append : Bool} {offset : Nat} {expected : Int} {resp : Response}
    (hx : x ∈ xs) (hv : validatorName x ∈ xs) (hw : Near short p work n xs es w) :
    Runs sum short p (fun _ u => Near short p work n xs es u)
      (save (.staging (work.staging short)) x append offset expected b resp) w := by
  refine runs_openPartial hx hw (fun _ _ h => h) fun i t ht => ?_
  refine Runs.bind (receive_runs hx _ ht) fun werr u hu => ?_
  refine runs_quiet opened_stable hu rfl fun cerr v _ hvv _ _ => ?_
  cases h : werr <|> cerr with
  | none => exact runs_remove hv hvv.near fun _ h => h
  | some err =>
    dsimp only
    split
    · exact runs_remove hx hvv.near fun _ h => runs_remove hv h fun _ h => h
    · exact hvv.near

theorem partialSize_runs {expected : Int} (hx : x ∈ xs) (hw : Near short p work n xs es w) :
    Runs sum short p (fun _ u => Near short p work n xs es u)
      (partialSize (.staging (work.staging short)) x expected) w := by
  refine runs_quiet near_stable hw rfl fun r t _ ht _ _ => ?_
  dsimp only
  split
  · exact runs_remove hx ht fun _ h => h
  · exact ht

theorem takesUp_runs {pinned : Bool} {offset : Nat} (hx : x ∈ xs) (hv : validatorName x ∈ xs)
    (hw : Near short p work n xs es w) :
    Runs sum short p (fun _ u => Near short p work n xs es u)
      (takesUp (.staging (work.staging short)) x pinned offset) w := by
  refine runs_quiet near_stable hw rfl fun r t _ ht _ _ => ?_
  split
  · exact runs_remove hx ht fun _ h => runs_writeValidator hv h fun _ h => h
  · exact ht

theorem noteValidator_runs {v : String} {resp : Response} (hv : validatorName x ∈ xs)
    (hw : Near short p work n xs es w) :
    Runs sum short p (fun _ u => Near short p work n xs es u)
      (noteValidator (.staging (work.staging short)) x v resp) w := by
  unfold noteValidator
  split
  · exact runs_writeValidator (k := .done) hv hw fun _ h => h
  · exact hw

theorem download_runs {url : String} {expected : Int} {pinned : Bool} (hx : x ∈ xs)
    (hv : validatorName x ∈ xs) (attempts : Nat) :
    ∀ {w : World}, Near short p work n xs es w →
      Runs sum short p (fun _ u => Near short p work n xs es u)
        (download url (.staging (work.staging short)) x expected b pinned attempts) w := by
  induction attempts with
  | zero => exact fun hw => hw
  | succ attempts ih =>
    intro w hw
    unfold download
    refine Runs.bind (partialSize_runs hx hw) fun offset t ht => ?_
    split
    · exact runs_remove hv ht fun _ h => h
    · refine Runs.bind (takesUp_runs hx hv ht) fun up u hu => ?_
      refine runs_quiet near_stable hu rfl fun r v _ hvv _ _ => ?_
      cases r with
      | error err => exact hvv
      | ok resp =>
        dsimp only
        split
        · split
          · exact runs_remove hx hvv fun _ h => ih h
          · split
            · exact runs_remove hx hvv fun _ h => runs_remove hv h fun _ h => ih h
            · exact save_runs hx hv hvv
        · split
          · exact Runs.bind (noteValidator_runs hv hvv) fun _ _ h => save_runs hx hv h
          · split
            · exact runs_remove hx hvv fun _ h => ih h
            · exact hvv

theorem copyPieces_runs {broken : Option Err} (hx : x ∈ xs) (body : List Bytes) :
    ∀ {b : Budget} {done : Nat} {w : World}, Opened short p work n xs es x i w →
      Runs sum short p (fun _ u => Near short p work n xs es u)
        (copyPieces (.staging (work.staging short)) x i broken b done body) w := by
  have hclose : ∀ {err : Option Err} {w : World}, Opened short p work n xs es x i w →
      Runs sum short p (fun _ u => Near short p work n xs es u)
        (close i >>= fun _ => pure err) w := fun hw =>
    runs_quiet opened_stable hw rfl fun _ _ _ ht _ _ => ht.near
  induction body with
  | nil =>
    intro b done w hw
    refine runs_quiet opened_stable hw rfl fun r t _ ht _ _ => ?_
    cases r with
    | some err => exact hclose ht
    | none => exact runs_quiet opened_stable ht rfl fun _ _ _ hu _ _ => hu.near
  | cons piece rest ih =>
    intro b done w hw
    refine runs_quiet opened_stable hw rfl fun r t _ ht _ _ => ?_
    cases r with
    | some err => exact hclose ht
    | none =>
      dsimp only
      split
      · exact ih ht
      · refine runs_write hx ht fun r u hu => ?_
        cases r with
        | some err => exact hclose hu
        | none =>
          refine Runs.bind (budget_runs opened_stable hu) fun r v hvv => ?_
          cases h : r.2 with
          | none => exact ih hvv
          | some err =>
            exact runs_quiet opened_stable hvv rfl fun _ _ _ hz _ _ =>
              runs_remove hx hz.near fun _ h => h

theorem copyFile_runs {path : String} (hx : x ∈ xs) (hw : Near short p work n xs es w) :
    Runs sum short p (fun _ u => Near short p work n xs es u)
      (copyFile path (.staging (work.staging short)) x b) w := by
  refine runs_quiet near_stable hw rfl fun r t _ ht _ _ => ?_
  cases r with
  | error err => exact ht
  | ok found => exact runs_openPartial hx ht (fun _ _ h => h) fun i u hu => copyPieces_runs hx _ hu

end LocalBase.Imports
