import LocalBase.Install.Pinned

/-!
# What a call throws away

A call for one artifact alone: nobody else has the files, and every operation
can fail. What it must not do is remove a file that is what the catalog pins;
renaming it to the other of its two names is not removing it.

`verify` has one answer for a file that is not what is pinned and for a failure
of its own, and the callers remove the file on either. `Unhurt` is a run in which
no failure hits a file that is what is pinned.
-/

namespace LocalBase.Install

open Program Files

variable {sum : Bytes → String} {p : Caller} {w t u : World} {a : Artifact} {f : Path}
  {dir : String} {α : Type} {expected : Int} {n i : Nat}

def Artifact.both (a : Artifact) (dir : String) : List Path := [a.out dir, a.partialPath dir]

instance (sum : Bytes → String) (a : Artifact) (bs : Bytes) : Decidable (Pinned sum a bs) :=
  inferInstanceAs (Decidable (_ ∧ _))

/-- The file of this name, if there is one, is not what is pinned. -/
def Unpinned (sum : Bytes → String) (a : Artifact) (f : Path) (w : World) : Prop :=
  ∀ i ∈ w.disk.names f, ¬Pinned sum a (w.disk.bytes i)

instance (sum : Bytes → String) (a : Artifact) (f : Path) (w : World) :
    Decidable (Unpinned sum a f w) :=
  inferInstanceAs (Decidable (∀ i ∈ _, _))

/-- A file with a name of the artifact that is what is pinned keeps one of the
two, and its bytes. -/
def Spares (sum : Bytes → String) (a : Artifact) (dir : String) (w t : World) : Prop :=
  ∀ f ∈ a.both dir, ∀ i ∈ w.disk.names f, Pinned sum a (w.disk.bytes i) →
    (∃ g ∈ a.both dir, t.disk.names g = some i) ∧ w.disk.bytes i <+: t.disk.bytes i

instance (sum : Bytes → String) (a : Artifact) (dir : String) (w t : World) :
    Decidable (Spares sum a dir w t) :=
  inferInstanceAs (Decidable (∀ f ∈ _, ∀ i ∈ _, _ → _))

/-- A call as it is watched: whether it has published its partial, and whether
it threw away a file that was what is pinned. -/
structure Watch where
  now : World
  published : Bool
  thrown : Bool

/-- The partial is given the final name. -/
def publishing (a : Artifact) (dir : String) : Op → Choice → Bool
  | .rename old new, .at _ _ => old = a.partialPath dir ∧ new = a.out dir
  | _, _ => false

def watched (sum : Bytes → String) (p : Caller) (a : Artifact) (dir : String) :
    Sem Answer Watch Choice :=
  fun x o c => (act p x.now o c).map fun y =>
    (y.1, ⟨y.2, x.published || publishing a dir o c,
      x.thrown || !decide (Spares sum a dir x.now y.2)⟩)

/-- The final file is there, and is not all of the artifact. -/
def Short (a : Artifact) (dir : String) (w : World) : Prop :=
  ∃ bs ∈ w.disk.file (a.out dir), (bs.length : Int) < a.expectedSizeBytes

instance (a : Artifact) (dir : String) (w : World) : Decidable (Short a dir w) :=
  inferInstanceAs (Decidable (∃ bs ∈ _, _))

/-- A failure that hits a file that is what is pinned. A partial that cannot be
looked at is lost to a final file that is too short. The record is locked and
written for a file that was found to be what is pinned, or was published. -/
def hurts (sum : Bytes → String) (a : Artifact) (dir : String) (x : Watch) : Op → Choice → Bool
  | .stat f, .fails _ =>
    !decide (Unpinned sum a f x.now) && (f = a.out dir || decide (Short a dir x.now))
  | .fileIdentity f, .fails _ => !x.published && !decide (Unpinned sum a f x.now)
  | .openRead f, .fails _ => !decide (Unpinned sum a f x.now)
  | .read i _ _, .fails _ => decide (Pinned sum a (x.now.disk.bytes i))
  | .readEnd i _, .fails _ => decide (Pinned sum a (x.now.disk.bytes i))
  | .lockCache _, .fails _ => !x.published
  | .writeCache _ _, .fails _ => !x.published
  | _, _ => false

/-- No failure hits a file that is what is pinned. -/
abbrev Unhurt (sum : Bytes → String) (a : Artifact) (dir : String) (x : Watch) (o : Op)
    (c : Choice) : Prop :=
  hurts sum a dir x o c = false

/-- A final file that is long enough and not what is pinned takes the partial
with it. -/
def Shadowed (sum : Bytes → String) (a : Artifact) (dir : String) (w : World) : Prop :=
  Unpinned sum a (a.out dir) w ∧ ¬Unpinned sum a (a.partialPath dir) w ∧
    ∃ bs ∈ w.disk.file (a.out dir), a.expectedSizeBytes ≤ bs.length

instance (sum : Bytes → String) (a : Artifact) (dir : String) (w : World) :
    Decidable (Shadowed sum a dir w) :=
  inferInstanceAs (Decidable (_ ∧ _ ∧ ∃ bs ∈ _, _))

/-! ## The files -/

/-- A final file that is what is pinned is the partial under another name. -/
def Shed (sum : Bytes → String) (a : Artifact) (dir : String) (w : World) : Prop :=
  ∀ i, w.disk.names (a.out dir) = some i → Pinned sum a (w.disk.bytes i) →
    w.disk.names (a.partialPath dir) = some i

theorem out_mem_both : a.out dir ∈ a.both dir := List.mem_cons_self

theorem partialPath_mem_both : a.partialPath dir ∈ a.both dir :=
  List.mem_cons_of_mem _ List.mem_cons_self

theorem out_ne_partialPath : a.out dir ≠ a.partialPath dir := fun he => by
  have hlen := congrArg (fun f : Path => f.name.toList.length) he
  simp [Artifact.out, Artifact.partialPath] at hlen

theorem Unpinned.shed (h : Unpinned sum a (a.out dir) w) : Shed sum a dir w :=
  fun i hi hpinned => absurd hpinned (h i hi)

theorem Unpinned.disk (h : Unpinned sum a f w) (ht : t.disk = w.disk) : Unpinned sum a f t := by
  unfold Unpinned
  rw [ht]
  exact h

theorem Shed.disk (h : Shed sum a dir w) (ht : t.disk = w.disk) : Shed sum a dir t := by
  unfold Shed
  rw [ht]
  exact h

theorem unpinned_of_length (h : (w.disk.file f).map List.length = some n)
    (hn : (n : Int) ≠ a.expectedSizeBytes) : Unpinned sum a f w := by
  intro i hi hpinned
  rw [Disk.file_eq_some hi, Option.map_some, Option.some.injEq] at h
  exact hn (h ▸ hpinned.1)

theorem spares_disk (h : t.disk = w.disk) : Spares sum a dir w t := by
  intro f hf i hi _
  rw [h]
  exact ⟨⟨f, hf, hi⟩, List.prefix_rfl⟩

theorem removed_spares {g : Path} (h : Unpinned sum a g w) : Spares sum a dir w (w.removed g) := by
  intro f hf i hi hpinned
  have hne : f ≠ g := fun he => h i (he ▸ hi) hpinned
  exact ⟨⟨f, hf, (Disk.remove_names_of_ne hne).trans hi⟩, List.prefix_rfl⟩

theorem Unpinned.removed {g : Path} (h : Unpinned sum a f w) : Unpinned sum a f (w.removed g) := by
  intro i hi
  by_cases hf : f = g
  · subst hf
    exact absurd (Option.mem_def.mp hi) (by simp [World.removed])
  · exact h i ((Disk.remove_names_of_ne hf).symm.trans hi)

theorem Shed.removed (h : Shed sum a dir w) (hf : Unpinned sum a f w) :
    Shed sum a dir (w.removed f) := by
  intro i hi hpinned
  by_cases hout : a.out dir = f
  · exact absurd hi (by simp [World.removed, hout])
  · have hold : w.disk.names (a.out dir) = some i := (Disk.remove_names_of_ne hout).symm.trans hi
    have hpartial := h i hold hpinned
    have hne : a.partialPath dir ≠ f := fun he => hf i (he ▸ hpartial) hpinned
    exact (Disk.remove_names_of_ne hne).trans hpartial

theorem moved_spares {old new : Path} (ht : w.moved old new n = some t) (hnew : new ∈ a.both dir)
    (h : ∀ i, w.disk.names new = some i → Pinned sum a (w.disk.bytes i) →
      w.disk.names old = some i) : Spares sum a dir w t := by
  unfold World.moved at ht
  split at ht
  case h_2 => cases ht
  next i disk hi hdisk =>
  obtain ⟨rfl, _⟩ := noted_spec ht
  obtain ⟨j, hj, hbytes, _, hafter, hothers, _⟩ := Disk.rename_spec hdisk
  rw [hi, Option.some.injEq] at hj
  subst hj
  intro f hf k hk hpinned
  refine ⟨?_, by rw [show disk.bytes = w.disk.bytes from hbytes]⟩
  by_cases hfnew : f = new
  · subst hfnew
    have hik : i = k := Option.some.inj (hi.symm.trans (h k hk hpinned))
    exact ⟨f, hnew, hik ▸ hafter⟩
  · by_cases hfold : f = old
    · subst hfold
      have hik : i = k := Option.some.inj (hi.symm.trans hk)
      exact ⟨new, hnew, hik ▸ hafter⟩
    · exact ⟨f, hf, (hothers f hfold hfnew).trans hk⟩

theorem moved_away {old new : Path} (ht : w.moved old new n = some t)
    (h : Unpinned sum a old w) : Unpinned sum a old t := by
  unfold World.moved at ht
  split at ht
  case h_2 => cases ht
  next i disk hi hdisk =>
  obtain ⟨rfl, _⟩ := noted_spec ht
  obtain ⟨_, _, _, _, _, _, hnone | ⟨_, hsame⟩⟩ := Disk.rename_spec hdisk
  · intro k hk
    exact absurd (Option.mem_def.mp hk) (by rw [show disk.names old = none from hnone]; simp)
  · exact h.disk hsame

theorem written_spares {m : Nat} {piece : Bytes} (ht : w.written i piece m n = some t) :
    Spares sum a dir w t := by
  obtain ⟨rfl, _⟩ := noted_spec ht
  intro f hf j hj _
  refine ⟨⟨f, hf, hj⟩, ?_⟩
  by_cases hji : j = i
  · subst hji
    exact ⟨piece, (Disk.append_bytes_self).symm⟩
  · have hsame : (w.disk.append i piece).bytes j = w.disk.bytes j :=
      Disk.append_bytes_of_ne hji
    exact hsame ▸ List.prefix_rfl

theorem Shed.written {m : Nat} {piece : Bytes} (h : Shed sum a dir w)
    (hi : w.disk.names (a.partialPath dir) = some i) (ht : w.written i piece m n = some t) :
    Shed sum a dir t ∧ t.disk.names (a.partialPath dir) = some i := by
  obtain ⟨rfl, _⟩ := noted_spec ht
  refine ⟨fun j hj hpinned => ?_, hi⟩
  by_cases hji : j = i
  · exact hji ▸ hi
  · have hb : (w.disk.append i piece).bytes j = w.disk.bytes j := Disk.append_bytes_of_ne hji
    exact h j hj (hb ▸ hpinned)

theorem opened_kept {m : Nat} (h : Shed sum a dir w)
    (ht : w.opened (a.partialPath dir) m n = some (i, t)) :
    Spares sum a dir w t ∧ Shed sum a dir t ∧ t.disk.names (a.partialPath dir) = some i := by
  unfold World.opened at ht
  split at ht
  · next j hj =>
    obtain ⟨t', ht', he⟩ := Option.map_eq_some_iff.mp ht
    cases he
    obtain ⟨rfl, _⟩ := noted_spec ht'
    exact ⟨spares_disk rfl, h.disk rfl, hj⟩
  · next hnone =>
    obtain ⟨t', ht', he⟩ := Option.map_eq_some_iff.mp ht
    cases he
    obtain ⟨rfl, _⟩ := noted_spec ht'
    have hkept : ∀ f k, w.disk.names f = some k →
        (w.disk.create (a.partialPath dir) []).names f = some k ∧
          (w.disk.create (a.partialPath dir) []).bytes k = w.disk.bytes k := by
      intro f k hk
      have hne : f ≠ a.partialPath dir := fun he => by
        rw [he, hnone] at hk
        cases hk
      exact ⟨(Disk.create_names_of_ne hne).trans hk, Disk.create_bytes_of_lt (w.disk.fresh f k hk)⟩
    refine ⟨fun f hf k hk _ => ⟨⟨f, hf, (hkept f k hk).1⟩, ?_⟩, fun k hk hpinned => ?_,
      Disk.create_names_self⟩
    · exact (hkept f k hk).2 ▸ List.prefix_rfl
    · have hout : w.disk.names (a.out dir) = some k :=
        (Disk.create_names_of_ne out_ne_partialPath).symm.trans hk
      have hpartial := h k hout ((hkept _ k hout).2 ▸ hpinned)
      rw [hnone] at hpartial
      cases hpartial

/-! ## Operations -/

/-- An unhurt run throws nothing away, and ends as `Q` says. -/
abbrev Kept (sum : Bytes → String) (p : Caller) (a : Artifact) (dir : String)
    (Q : α → Watch → Prop) (left : Steps α) (x : Watch) : Prop :=
  left.Safe ((watched sum p a dir).under (Unhurt sum a dir)) (fun x => x.thrown = false) Q x

theorem Kept.bind {β : Type} {P : α → Watch → Prop} {Q : β → Watch → Prop} {left : Steps α}
    {k : α → Steps β} {x : Watch} (h : Kept sum p a dir P left x)
    (hk : ∀ r y, P r y → Kept sum p a dir Q (k r) y) : Kept sum p a dir Q (left >>= k) x :=
  safe_bind (h.mono (fun _ hy => hy) hk)

variable {Q : α → Watch → Prop}

section
variable {b : Bool} {o : Op}

theorem kept_act {k : Answer o → Steps α}
    (h : ∀ c r t, hurts sum a dir ⟨w, b, false⟩ o c = false → act p w o c = some (r, t) →
      Spares sum a dir w t ∧
        Kept sum p a dir Q (k r) ⟨t, b || publishing a dir o c, false⟩) :
    Kept sum p a dir Q (perform o >>= k) ⟨w, b, false⟩ := by
  intro c _ y hy
  obtain ⟨hc, hy⟩ := under_eq_some.mp hy
  obtain ⟨⟨_, t⟩, hact, he⟩ := Option.map_eq_some_iff.mp hy
  obtain ⟨rfl, rfl⟩ := Prod.mk.inj he
  obtain ⟨hspares, hrest⟩ := h c _ t hc hact
  have hthrown : (false || !decide (Spares sum a dir w t)) = false := by
    rw [decide_eq_true hspares]
    rfl
  show (false || !decide (Spares sum a dir w t)) = false ∧ Kept sum p a dir Q (k _)
    ⟨t, b || publishing a dir o c, false || !decide (Spares sum a dir w t)⟩
  rw [hthrown]
  exact ⟨rfl, hrest⟩

/-- An operation that leaves the files what they are. -/
def Op.beside : Op → Bool
  | .lockCache _ | .writeCache _ _ | .unlockCache _ => true
  | o => o.quiet

theorem beside_spec {c : Choice} {r : Answer o} (ho : o.beside = true)
    (hact : act p w o c = some (r, t)) : t.disk = w.disk ∧ publishing a dir o c = false := by
  by_cases hq : o.quiet = true
  · refine ⟨congrArg World.disk (quiet_spec hq hact), ?_⟩
    cases o <;> first | rfl | cases hq
  · cases o <;> first | exact absurd ho hq | skip
    all_goals
      refine ⟨?_, rfl⟩
      cases c <;> simp only [act, reduceCtorEq, Option.some.injEq, Prod.mk.injEq,
        Option.ite_none_right_eq_some] at hact
    all_goals first
      | exact hact.2 ▸ rfl
      | exact hact.2.2 ▸ rfl

theorem kept_beside {k : Answer o → Steps α} (ho : o.beside = true)
    (h : ∀ c r t, hurts sum a dir ⟨w, b, false⟩ o c = false → act p w o c = some (r, t) →
      t.disk = w.disk → Kept sum p a dir Q (k r) ⟨t, b, false⟩) :
    Kept sum p a dir Q (perform o >>= k) ⟨w, b, false⟩ := by
  refine kept_act fun c r t hc hact => ?_
  have hbeside : t.disk = w.disk ∧ publishing a dir o c = false := beside_spec ho hact
  obtain ⟨hdisk, hno⟩ := hbeside
  rw [hno, Bool.or_false]
  exact ⟨spares_disk hdisk, h c r t hc hact hdisk⟩

theorem kept_remove {k : Unit → Steps α} (hf : Unpinned sum a f w)
    (h : ∀ t, t = w ∨ t = w.removed f → Kept sum p a dir Q (k ()) ⟨t, b, false⟩) :
    Kept sum p a dir Q (remove f >>= k) ⟨w, b, false⟩ := by
  refine kept_act fun c r t _ hact => ?_
  have hno : publishing a dir (.remove f) c = false := rfl
  rw [hno, Bool.or_false]
  cases c <;> simp only [act, reduceCtorEq, Option.some.injEq, Prod.mk.injEq, true_and] at hact
  · exact ⟨hact ▸ removed_spares hf, h t (.inr hact.symm)⟩
  · exact ⟨spares_disk (congrArg World.disk hact.symm), h t (.inl hact.symm)⟩

theorem stat_spec {c : Choice} {r : Option Nat}
    (hc : hurts sum a dir ⟨w, b, false⟩ (.stat f) c = false)
    (hact : act p w (.stat f) c = some (r, t)) :
    (r = none → f = a.out dir ∨ Short a dir w → Unpinned sum a f w) ∧
      ∀ n, r = some n → (w.disk.file f).map List.length = some n := by
  cases c <;> simp only [act, reduceCtorEq, Option.some.injEq, Prod.mk.injEq] at hact
  · refine ⟨fun hr _ => ?_, fun n hr => hact.1.trans hr⟩
    have hnone := Disk.file_eq_none.mp (Option.map_eq_none_iff.mp (hact.1.trans hr))
    exact fun i hi => absurd (Option.mem_def.mp hi) (by simp [hnone])
  · refine ⟨fun _ hf => ?_, fun n hr => absurd (hact.1.trans hr) (by simp)⟩
    by_contra hpinned
    simp only [hurts, Bool.and_eq_false_iff, Bool.or_eq_false_iff, Bool.not_eq_false',
      decide_eq_true_eq, decide_eq_false_iff_not] at hc
    obtain hun | ⟨hout, hlong⟩ := hc
    · exact hpinned hun
    · exact hf.elim hout hlong

end

/-! ## Verifying -/

/-- The files are what they were, and an error is of a file that is not what is
pinned. -/
def Verified (sum : Bytes → String) (a : Artifact) (f : Path) (w : World)
    (r : Except Err Verification) (x : Watch) : Prop :=
  ∃ t, x = ⟨t, false, false⟩ ∧ t.disk = w.disk ∧ ∀ err, r = .error err → Unpinned sum a f w

theorem readAll_kept (sizes : List Nat) :
    ∀ {got : Bytes} {w : World}, got <+: w.disk.bytes i →
      Kept sum p a dir (fun r x => ∃ t, x = ⟨t, false, false⟩ ∧ t.disk = w.disk ∧
          (∀ err, r = .error err → ¬Pinned sum a (w.disk.bytes i)) ∧
          ∀ bs, r = .ok bs → bs = w.disk.bytes i)
        (readAll i got sizes) ⟨w, false, false⟩ := by
  induction sizes with
  | nil =>
    intro got w hgot
    refine kept_beside rfl fun c r t hc hact hdisk => ?_
    cases c <;> simp only [act, reduceCtorEq, Option.ite_none_right_eq_some,
      Option.some.injEq, Prod.mk.injEq] at hact
    · obtain ⟨hlen, rfl, rfl⟩ := hact
      refine ⟨w, rfl, rfl, fun err he => (by cases he), fun bs hbs => ?_⟩
      cases hbs
      exact hgot.eq_of_length_le hlen
    · obtain ⟨rfl, rfl⟩ := hact
      refine ⟨w, rfl, rfl, fun err he => ?_, fun bs hbs => (by cases hbs)⟩
      exact of_decide_eq_false hc
  | cons n sizes ih =>
    intro got w hgot
    refine kept_beside rfl fun c r t hc hact hdisk => ?_
    cases c <;> simp only [act, reduceCtorEq, Option.ite_none_right_eq_some,
      Option.some.injEq, Prod.mk.injEq] at hact
    · obtain ⟨hlen, rfl, rfl⟩ := hact
      refine ih ?_
      obtain ⟨rest, hrest⟩ := hgot
      rw [← hrest, List.drop_left]
      exact List.prefix_append_right_inj got |>.mpr (List.take_prefix n rest)
    · obtain ⟨rfl, rfl⟩ := hact
      refine ⟨w, rfl, rfl, fun err he => ?_, fun bs hbs => (by cases hbs)⟩
      exact of_decide_eq_false hc

theorem sha256File_kept :
    Kept sum p a dir (fun r x => ∃ t, x = ⟨t, false, false⟩ ∧ t.disk = w.disk ∧
        (∀ err, r = .error err → Unpinned sum a f w) ∧
        ∀ d, r = .ok d → ∃ i, w.disk.names f = some i ∧ d = sum (w.disk.bytes i))
      (sha256File sum f) ⟨w, false, false⟩ := by
  refine kept_beside rfl fun c r t hc hact hdisk => ?_
  cases c <;> simp only [act, reduceCtorEq, Option.some.injEq, Prod.mk.injEq,
    Option.map_eq_some_iff] at hact
  · obtain ⟨rfl, rfl⟩ := hact
    exact ⟨w, rfl, rfl, fun _ _ => by simpa [hurts] using hc, fun d hd => by cases hd⟩
  · obtain ⟨i, hi, rfl, rfl⟩ := hact
    refine (readAll_kept _ List.nil_prefix).bind ?_
    rintro r x ⟨t, rfl, hdisk, herr, hok⟩
    cases r with
    | error err =>
      refine ⟨t, rfl, hdisk, fun _ _ j hj => ?_, fun d hd => by cases hd⟩
      have hij : i = j := Option.some.inj (hi.symm.trans hj)
      exact hij ▸ herr err rfl
    | ok got =>
      refine ⟨t, rfl, hdisk, fun _ he => (by cases he), fun d hd => ⟨i, hi, ?_⟩⟩
      cases hd
      rw [hok got rfl]

theorem record_kept {name : String} {e : CacheEntry} :
    Kept sum p a dir (fun r x => ∃ t, x = ⟨t, false, false⟩ ∧ t.disk = w.disk ∧ r = none)
      (withCacheLock dir (record dir name e)) ⟨w, false, false⟩ := by
  refine kept_beside rfl fun c r t hc hact hdisk => ?_
  cases c <;> simp only [act, reduceCtorEq, Option.ite_none_right_eq_some, Option.some.injEq,
    Prod.mk.injEq] at hact
  case fails err => cases hc
  obtain ⟨_, rfl, _⟩ := hact
  refine Kept.bind (P := fun r x => ∃ u, x = ⟨u, false, false⟩ ∧ u.disk = w.disk ∧ r = none)
    ?_ ?_
  · refine kept_beside rfl fun c r u _ _ hu => ?_
    refine kept_beside (k := .done) rfl fun c r v hc hact hv => ?_
    cases c <;> simp only [act, reduceCtorEq, Option.some.injEq, Prod.mk.injEq] at hact
    case fails err => cases hc
    exact ⟨v, rfl, hv.trans (hu.trans hdisk), hact.1.symm⟩
  · rintro r x ⟨u, rfl, hu, rfl⟩
    exact kept_beside rfl fun _ _ v _ _ hv => ⟨v, rfl, hv.trans hu, rfl⟩

theorem verify_kept : Kept sum p a dir (Verified sum a f w) (verify sum f a dir)
    ⟨w, false, false⟩ := by
  refine kept_beside rfl fun c r t hc hact hdisk => ?_
  cases c <;> simp only [act, reduceCtorEq, Option.some.injEq, Prod.mk.injEq,
    Option.map_eq_some_iff] at hact
  case fails err =>
    obtain ⟨rfl, rfl⟩ := hact
    exact ⟨w, rfl, rfl, fun _ _ => by simpa [hurts] using hc⟩
  obtain ⟨i, hi, rfl, rfl⟩ := hact
  dsimp only
  split
  · next hsize =>
    refine ⟨w, rfl, rfl, fun _ _ j hj hpinned => hsize ?_⟩
    have hij : i = j := Option.some.inj (hi.symm.trans hj)
    exact hij ▸ hpinned.1
  · refine kept_beside rfl fun c r t _ _ ht => ?_
    split
    · exact ⟨t, rfl, ht, fun _ he => by cases he⟩
    · refine sha256File_kept.bind ?_
      rintro r x ⟨u, rfl, hu, herr, hok⟩
      have hback : Unpinned sum a f t → Unpinned sum a f w := fun h => h.disk ht.symm
      cases r with
      | error err => exact ⟨u, rfl, hu.trans ht, fun _ _ => hback (herr err rfl)⟩
      | ok actual =>
        obtain ⟨j, hj, rfl⟩ := hok actual rfl
        dsimp only
        split
        · next hsum =>
          refine ⟨u, rfl, hu.trans ht, fun _ _ => hback fun k hk hpinned => hsum ?_⟩
          have hjk : j = k := Option.some.inj (hj.symm.trans hk)
          exact hjk ▸ hpinned.2
        · refine record_kept.bind ?_
          rintro r x ⟨v, rfl, hv, rfl⟩
          exact ⟨v, rfl, hv.trans (hu.trans ht), fun _ he => by cases he⟩

/-! ## Publishing -/

theorem rerecord_kept : Kept sum p a dir (fun _ x => ∃ t, x = ⟨t, true, false⟩) (rerecord a dir)
    ⟨w, true, false⟩ := by
  refine kept_beside rfl fun _ r t _ _ _ => ?_
  refine kept_beside rfl fun _ r u _ _ _ => ?_
  cases r with
  | error err => exact ⟨u, rfl⟩
  | ok now =>
    dsimp only
    split
    · exact ⟨u, rfl⟩
    · exact kept_beside (k := .done) rfl fun _ _ v _ _ _ => ⟨v, rfl⟩

theorem recordPublished_kept :
    Kept sum p a dir (fun _ _ => True) (recordPublished a dir) ⟨w, true, false⟩ := by
  have hlocked : Kept sum p a dir (fun _ _ => True) (withCacheLock dir (rerecord a dir))
      ⟨w, true, false⟩ := by
    refine kept_beside rfl fun _ r t _ _ _ => ?_
    cases r with
    | some err => trivial
    | none =>
      refine rerecord_kept.bind ?_
      rintro _ _ ⟨u, rfl⟩
      exact kept_beside rfl fun _ _ _ _ _ _ => trivial
  exact hlocked.bind fun _ _ _ => trivial

theorem publish_kept (h : Shed sum a dir w) :
    Kept sum p a dir (fun _ _ => True) (publish a dir) ⟨w, false, false⟩ := by
  refine kept_act fun c r t _ hact => ?_
  cases c <;> simp only [act, reduceCtorEq, Option.map_eq_some_iff, Option.some.injEq,
    Prod.mk.injEq] at hact
  · obtain ⟨rfl, rfl⟩ := hact
    exact ⟨spares_disk rfl, trivial⟩
  · obtain ⟨u, hu, rfl, rfl⟩ := hact
    refine ⟨moved_spares hu out_mem_both h, ?_⟩
    have hyes : (false || publishing a dir (.rename (a.partialPath dir) (a.out dir)) (.at 0 0)) =
        true := by
      simp [publishing]
    show Kept sum p a dir _ _ ⟨u,
      false || publishing a dir (.rename (a.partialPath dir) (a.out dir)) (.at 0 0), false⟩
    rw [hyes]
    exact recordPublished_kept.bind fun _ _ _ => trivial

/-! ## Downloading -/

/-- The final file is still not worth keeping. -/
def Going (sum : Bytes → String) (a : Artifact) (dir : String) (x : Watch) : Prop :=
  ∃ t, x = ⟨t, false, false⟩ ∧ Shed sum a dir t

section
variable (hsize : 0 < a.expectedSizeBytes)
include hsize

theorem failed_kept {err : Err} (h : Shed sum a dir w) :
    Kept sum p a dir (fun _ x => Going sum a dir x) (failed (a.partialPath dir) err)
      ⟨w, false, false⟩ := by
  refine kept_beside rfl fun c r t hc hact ht => ?_
  cases r with
  | none => exact ⟨t, rfl, h.disk ht⟩
  | some n =>
    cases n with
    | succ n => exact ⟨t, rfl, h.disk ht⟩
    | zero =>
      have hlen := (stat_spec hc hact).2 0 rfl
      have hpartial : Unpinned sum a (a.partialPath dir) t :=
        (unpinned_of_length hlen (by simpa using hsize.ne)).disk ht
      refine kept_remove hpartial fun u hu => ?_
      obtain rfl | rfl := hu
      · exact ⟨_, rfl, h.disk ht⟩
      · exact ⟨_, rfl, (h.disk ht).removed hpartial⟩

end

theorem copyBody_kept {broken : Option Err} (body : List Bytes) :
    ∀ {n : Nat} {w : World}, Shed sum a dir w → w.disk.names (a.partialPath dir) = some i →
      Kept sum p a dir (fun _ x => Going sum a dir x) (copyBody i expected broken n body)
        ⟨w, false, false⟩ := by
  induction body with
  | nil => exact fun h _ => ⟨_, rfl, h⟩
  | cons piece rest ih =>
    intro n w h hi
    unfold copyBody
    split
    · exact ih h hi
    · split
      · exact ⟨w, rfl, h⟩
      · refine kept_act fun c r t _ hact => ?_
        have hno : publishing a dir (.write i piece) c = false := rfl
        rw [hno]
        cases c <;> simp only [act, reduceCtorEq, Option.map_eq_some_iff, Option.some.injEq,
          Prod.mk.injEq] at hact
        · obtain ⟨rfl, rfl⟩ := hact
          exact ⟨spares_disk rfl, w, rfl, h⟩
        · obtain ⟨u, hu, rfl, rfl⟩ := hact
          obtain ⟨hshed, hnames⟩ := h.written hi hu
          exact ⟨written_spares hu, ih hshed hnames⟩
        · obtain ⟨u, hu, rfl, rfl⟩ := hact
          exact ⟨written_spares hu, u, rfl, (h.written hi hu).1⟩

theorem close_kept {k : Option Err → Steps α} (h : Shed sum a dir w)
    (hk : ∀ r t, Shed sum a dir t → Kept sum p a dir Q (k r) ⟨t, false, false⟩) :
    Kept sum p a dir Q (close i >>= k) ⟨w, false, false⟩ :=
  kept_beside rfl fun _ r t _ _ ht => hk r t (h.disk ht)

theorem receive_kept {offset : Nat} {resp : Response} (h : Shed sum a dir w) :
    Kept sum p a dir (fun _ x => Going sum a dir x)
      (receive (a.partialPath dir) expected offset resp) ⟨w, false, false⟩ := by
  refine kept_act fun c r t _ hact => ?_
  have hno : publishing a dir (.openAppend (a.partialPath dir)) c = false := rfl
  rw [hno]
  cases c <;> simp only [act, reduceCtorEq, Option.map_eq_some_iff, Option.some.injEq,
    Prod.mk.injEq] at hact
  · obtain ⟨rfl, rfl⟩ := hact
    exact ⟨spares_disk rfl, w, rfl, h⟩
  · obtain ⟨⟨i, u⟩, hu, rfl, rfl⟩ := hact
    obtain ⟨hspares, hshed, hi⟩ := opened_kept h hu
    refine ⟨hspares, (copyBody_kept resp.body hshed hi).bind ?_⟩
    rintro r x ⟨v, rfl, hv⟩
    cases r with
    | error err => exact close_kept hv fun _ y hy => ⟨y, rfl, hy⟩
    | ok n =>
      refine close_kept hv fun r y hy => ?_
      cases r <;> exact ⟨y, rfl, hy⟩
  · obtain ⟨⟨i, u⟩, hu, rfl, rfl⟩ := hact
    obtain ⟨hspares, hshed, _⟩ := opened_kept h hu
    exact ⟨hspares, u, rfl, hshed⟩

section
variable (hsize : 0 < a.expectedSizeBytes)
include hsize

theorem download_kept (h : Shed sum a dir w) :
    Kept sum p a dir (fun _ x => Going sum a dir x) (download (a.partialPath dir) expected)
      ⟨w, false, false⟩ := by
  refine kept_beside rfl fun _ _ t _ _ ht => ?_
  refine kept_beside rfl fun _ r u _ _ hu => ?_
  have hshed : Shed sum a dir u := (h.disk ht).disk hu
  cases r with
  | error err => exact failed_kept hsize hshed
  | ok resp =>
    dsimp only
    split
    · exact failed_kept hsize hshed
    · split
      · exact failed_kept hsize hshed
      · exact receive_kept hshed

/-! ## An artifact -/

theorem fetch_kept (h : Shed sum a dir w) :
    Kept sum p a dir (fun _ _ => True) (fetch sum a dir) ⟨w, false, false⟩ := by
  refine (download_kept hsize h).bind ?_
  rintro r x ⟨t, rfl, ht⟩
  cases r with
  | some err => trivial
  | none =>
    refine (verify_kept (f := a.partialPath dir)).bind ?_
    rintro r x ⟨u, rfl, hu, herr⟩
    cases r with
    | ok how => exact publish_kept (ht.disk hu)
    | error err => exact kept_remove ((herr err rfl).disk hu) fun _ _ => trivial

theorem remove_fetch_kept (h : Shed sum a dir w) (hf : Unpinned sum a (a.partialPath dir) w) :
    Kept sum p a dir (fun _ _ => True)
      (remove (a.partialPath dir) >>= fun _ => fetch sum a dir) ⟨w, false, false⟩ := by
  refine kept_remove hf fun t ht => ?_
  obtain rfl | rfl := ht
  · exact fetch_kept hsize h
  · exact fetch_kept hsize (h.removed hf)

theorem complete_kept (h : Shed sum a dir w) :
    Kept sum p a dir (fun _ _ => True) (complete sum a dir) ⟨w, false, false⟩ := by
  refine kept_beside rfl fun _ r t _ _ ht => ?_
  cases r with
  | some err => trivial
  | none =>
    refine kept_beside rfl fun c r u hc hact hu => ?_
    have hshed : Shed sum a dir u := (h.disk ht).disk hu
    cases r with
    | none => exact fetch_kept hsize hshed
    | some n =>
      have hlen := (stat_spec hc hact).2 n rfl
      dsimp only
      split
      · next hlong =>
        exact remove_fetch_kept hsize hshed ((unpinned_of_length hlen hlong.ne').disk hu)
      · split
        · refine (verify_kept (f := a.partialPath dir)).bind ?_
          rintro r x ⟨v, rfl, hv, herr⟩
          cases r with
          | ok how => exact publish_kept (hshed.disk hv)
          | error err => exact remove_fetch_kept hsize (hshed.disk hv) ((herr err rfl).disk hv)
        · exact fetch_kept hsize hshed

omit hsize in
theorem rename_kept (hout : Unpinned sum a (a.out dir) w)
    (hpart : Unpinned sum a (a.partialPath dir) w) :
    Kept sum p a dir (fun _ x => Going sum a dir x) (rename (a.out dir) (a.partialPath dir))
      ⟨w, false, false⟩ := by
  refine kept_act (k := .done) fun c r t _ hact => ?_
  cases c <;> simp only [act, reduceCtorEq, Option.map_eq_some_iff, Option.some.injEq,
    Prod.mk.injEq] at hact
  · obtain ⟨rfl, rfl⟩ := hact
    exact ⟨spares_disk rfl, w, rfl, hout.shed⟩
  · obtain ⟨u, hu, rfl, rfl⟩ := hact
    refine ⟨moved_spares hu partialPath_mem_both fun i hi hpinned => absurd hpinned (hpart i hi),
      u, ?_, (moved_away hu hout).shed⟩
    simp [publishing, out_ne_partialPath]

omit hsize in
/-- A final file that is too short is not what is pinned, and neither is a
partial that it takes the place of. -/
theorem demote_kept {existing : Nat}
    (hfinal : (w.disk.file (a.out dir)).map List.length = some existing)
    (hshort : (existing : Int) < a.expectedSizeBytes) :
    Kept sum p a dir (fun _ x => Going sum a dir x) (demote a dir existing)
      ⟨w, false, false⟩ := by
  refine kept_beside rfl fun c r t hc hact ht => ?_
  have hold : Unpinned sum a (a.out dir) t := (unpinned_of_length hfinal hshort.ne).disk ht
  cases r with
  | none =>
    obtain ⟨bs, hbs, rfl⟩ := Option.map_eq_some_iff.mp hfinal
    exact rename_kept hold (((stat_spec hc hact).1 rfl (.inr ⟨bs, hbs, hshort⟩)).disk ht)
  | some n =>
    have hlen := (stat_spec hc hact).2 n rfl
    dsimp only
    split
    · next hother =>
      have hpartial : Unpinned sum a (a.partialPath dir) t :=
        (unpinned_of_length hlen (by omega)).disk ht
      refine kept_remove hpartial fun u hu => ?_
      obtain rfl | rfl := hu
      · exact rename_kept hold hpartial
      · exact rename_kept hold.removed hpartial.removed
    · refine kept_remove hold fun u hu => ?_
      obtain rfl | rfl := hu
      · exact ⟨_, rfl, hold.shed⟩
      · exact ⟨_, rfl, hold.removed.shed⟩

theorem artifact_kept (hs : ¬Shadowed sum a dir w) :
    Kept sum p a dir (fun _ _ => True) (artifact sum a dir) ⟨w, false, false⟩ := by
  refine kept_beside rfl fun c r t hc hact ht => ?_
  obtain ⟨hnone, hsome⟩ := stat_spec hc hact
  cases r with
  | none => exact complete_kept hsize ((hnone rfl (.inl rfl)).disk ht).shed
  | some existing =>
    have hlen := hsome existing rfl
    dsimp only
    split
    · next hshort =>
      have hfinal : (t.disk.file (a.out dir)).map List.length = some existing := ht ▸ hlen
      refine (demote_kept hfinal hshort).bind ?_
      rintro r x ⟨u, rfl, hu⟩
      cases r with
      | some err => trivial
      | none => exact complete_kept hsize hu
    · next hlong =>
      refine (verify_kept (f := a.out dir)).bind ?_
      rintro r x ⟨u, rfl, hu, herr⟩
      cases r with
      | ok how => trivial
      | error err =>
        have hout : Unpinned sum a (a.out dir) u := (herr err rfl).disk hu
        have hpartial : Unpinned sum a (a.partialPath dir) u := by
          by_contra hpartial
          obtain ⟨bs, hbs, hn⟩ := Option.map_eq_some_iff.mp hlen
          have hback : u.disk = w.disk := hu.trans ht
          exact hs ⟨hout.disk hback.symm, fun h => hpartial (h.disk hback), bs, hbs, by omega⟩
        refine kept_remove hout fun v hv => ?_
        obtain ⟨hshed, hgone⟩ : Shed sum a dir v ∧ Unpinned sum a (a.partialPath dir) v := by
          obtain rfl | rfl := hv
          · exact ⟨hout.shed, hpartial⟩
          · exact ⟨hout.removed.shed, hpartial.removed⟩
        refine kept_remove hgone fun y hy => ?_
        obtain rfl | rfl := hy
        · exact complete_kept hsize hshed
        · exact complete_kept hsize (hshed.removed hgone)

end

/-- A call that no failure hits at a file that is what is pinned throws no such
file away, unless the final file is long enough and wrong while the partial is
what is pinned. -/
theorem good_bytes_spared (hsize : 0 < a.expectedSizeBytes) (hs : ¬Shadowed sum a dir w)
    {cs : List Choice} {left : Steps (Option Err)} {x : Watch}
    (h : (artifact sum a dir).after ((watched sum p a dir).under (Unhurt sum a dir))
      ⟨w, false, false⟩ cs = some (left, x)) : x.thrown = false :=
  (artifact_kept hsize hs).after rfl h

/-! ### A lock that is not to be had -/

/-- A directory with one file, which is what is pinned. -/
def holding (f : Path) : Watch :=
  ⟨{ nobody.now with disk := nobody.now.disk.create f [104, 105] }, false, false⟩

/-- The file is looked at and hashed. -/
def hashed : List Choice := [.ok, .ok, .ok, .reads [2], .ok, .ok]

theorem lock_timeout_throws :
    Pinned digest weights [104, 105] ∧
      (holding (weights.out "models")).now.disk.file (weights.out "models") = some [104, 105] ∧
      ((artifact digest weights "models").after (watched digest 1 weights "models")
          (holding (weights.out "models"))
          (hashed ++ [.fails (.system "Timed out waiting for the checksum store lock"), .ok])).map
        (fun y => (y.2.thrown, y.2.now.disk.file (weights.out "models"))) = some (true, none) := by
  decide +kernel

/-- A partial that was all there is published, though the record is locked
then. -/
theorem published_spared :
    ∃ y, (artifact digest weights "models").after
        ((watched digest 1 weights "models").under (Unhurt digest weights "models"))
        (holding (weights.partialPath "models"))
        ([.ok, .ok] ++ hashed ++ [.ok, .ok, .ok, .ok, .at 0 1, .fails (.system "locked")]) =
        some y ∧
      y.2.published = true ∧ y.2.thrown = false := by
  have hsome : (((artifact digest weights "models").after
      ((watched digest 1 weights "models").under (Unhurt digest weights "models"))
      (holding (weights.partialPath "models"))
      ([.ok, .ok] ++ hashed ++ [.ok, .ok, .ok, .ok, .at 0 1, .fails (.system "locked")])).map
        fun y => y.2.published) = some true := by decide +kernel
  obtain ⟨y, hy, hpublished⟩ := Option.map_eq_some_iff.mp hsome
  exact ⟨y, hy, hpublished, good_bytes_spared (by decide) (by decide +kernel) hy⟩

end LocalBase.Install
