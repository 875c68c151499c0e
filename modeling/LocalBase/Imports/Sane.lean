import Mathlib.Data.List.Pairwise
import LocalBase.Imports.Model

/-!
# What the calls keep

A recorded model is whole, and no two calls work in one staging directory.
`Alone` is what the second takes: equal plans have one staging directory, in
whatever processes they are imported.
-/

namespace LocalBase.Imports

open Program Files

variable {sum : Bytes → String} {short : String → String} {p q : Run} {w t u : World} {d e : Dir}
  {m : Model} {work : Work} {n : Nat}

/-- What is in a directory: the number and the bytes of each file. -/
abbrev Entries : Type := Name → Option (Nat × Bytes)

/-- A file is of the recorded size and SHA-256, as far as they are recorded. -/
def Artifact.Matches (sum : Bytes → String) (a : Artifact) (bs : Bytes) : Prop :=
  (∀ n ∈ a.sizeBytes, bs.length = n) ∧ ∀ s ∈ a.sha256, sum bs = s

def Present (sum : Bytes → String) (es : Entries) (arts : List Artifact) : Prop :=
  ∀ a ∈ arts, ∃ x, es a.filename = some x ∧ a.Matches sum x.2

/-- A model's directory exists, and each file its record lists is there as it is
recorded. -/
def Whole (sum : Bytes → String) (w : World) (m : Model) : Prop :=
  ∃ n es, w.folders.look (.imported m.id) = some (n, es) ∧ Present sum es m.artifacts

/-! ## The condition -/

/-- No file of a plan is where another's validator is kept, and one that may be
missing is not where another is downloaded to. -/
def Plan.Apart (p : Plan) : Prop :=
  ∀ f ∈ p.files, ∀ g ∈ p.files,
    f.filename ≠ g.validatorFile ∧ (f.required = true ∨ f.filename ≠ g.partialFile)

instance (p : Plan) : Decidable p.Apart :=
  inferInstanceAs (Decidable (∀ f ∈ p.files, ∀ g ∈ p.files, _ ∧ (_ ∨ _)))

def Work.plan : Work → Option Plan
  | .importing plan => some plan
  | .clearing _ => none

/-- What is begun by an operation. -/
def begun : Op → Option Work
  | .begins work => some work
  | _ => none

/-- A call begins to work in a staging directory that no other call works in. -/
def Alone (short : String → String) (_ : Run) (w : World) (o : Op) (_ : Choice) : Prop :=
  ∀ work ∈ begun o, (∀ x ∈ w.under, x.2.staging short ≠ work.staging short) ∧
    ∀ plan ∈ work.plan, plan.Apart

instance (p : Run) (w : World) (o : Op) (c : Choice) : Decidable (Alone short p w o c) :=
  inferInstanceAs (Decidable (∀ work ∈ begun o,
    (∀ x ∈ w.under, x.2.staging short ≠ work.staging short) ∧ ∀ plan ∈ work.plan, plan.Apart))

/-- One process runs no two imports of one id at once. -/
def OneEach (p : Run) (w : World) (o : Op) (_ : Choice) : Prop :=
  ∀ work ∈ begun o, ∀ plan ∈ work.plan, ∀ x ∈ w.under, x.1.process = p.process →
    ∀ other ∈ x.2.plan, other.id ≠ plan.id

instance (p : Run) (w : World) (o : Op) (c : Choice) : Decidable (OneEach p w o c) :=
  inferInstanceAs (Decidable (∀ work ∈ begun o, ∀ plan ∈ work.plan, ∀ x ∈ w.under,
    x.1.process = p.process → ∀ other ∈ x.2.plan, other.id ≠ plan.id))

/-! ## The world -/

/-- Two works in different staging directories. -/
def Elsewhere (short : String → String) (x y : Run × Work) : Prop :=
  x.2.staging short ≠ y.2.staging short

instance : Std.Symm (Elsewhere short) := ⟨fun _ _ h => Ne.symm h⟩

structure Sane (sum : Bytes → String) (short : String → String) (w : World) : Prop where
  apart : w.under.Pairwise (Elsewhere short)
  whole : ∀ m ∈ w.recorded, Whole sum w m

/-- What a call relies on: a staging directory that it works in stays what it
is, and while it holds the root, the records and the imported models do. -/
structure Keeps (short : String → String) (p : Run) (w t : World) : Prop where
  under : ∀ x ∈ w.under, x.1 = p → x ∈ t.under ∧
    t.folders.look (.staging (x.2.staging short)) = w.folders.look (.staging (x.2.staging short))
  lease : w.lease = some p → t.lease = some p ∧ t.recorded = w.recorded ∧
    ∀ id, t.folders.look (.imported id) = w.folders.look (.imported id)

theorem Keeps.refl (p : Run) (w : World) : Keeps short p w w :=
  ⟨fun _ h _ => ⟨h, rfl⟩, fun h => ⟨h, rfl, fun _ => rfl⟩⟩

theorem Keeps.trans (h : Keeps short p w t) (h' : Keeps short p t u) : Keeps short p w u where
  under x hx hp := by
    obtain ⟨ht, hlook⟩ := h.under x hx hp
    obtain ⟨hu, hlook'⟩ := h'.under x ht hp
    exact ⟨hu, hlook'.trans hlook⟩
  lease hp := by
    obtain ⟨ht, hrec, hlook⟩ := h.lease hp
    obtain ⟨hu, hrec', hlook'⟩ := h'.lease ht
    exact ⟨hu, hrec'.trans hrec, fun id => (hlook' id).trans (hlook id)⟩

/-- A directory is a call's own: a staging directory it works in, or while it
holds the root, one under which nothing is recorded. -/
def Owns (short : String → String) (p : Run) (w : World) : Dir → Prop
  | .imports => w.lease = some p
  | .imported id => w.lease = some p ∧ ∀ m ∈ w.recorded, m.id ≠ id
  | .staging name => ∃ work, (p, work) ∈ w.under ∧ work.staging short = name

/-- Nothing is changed but at these paths. -/
structure Touches (D : Dir → Prop) (w t : World) : Prop where
  recorded : t.recorded = w.recorded
  lease : t.lease = w.lease
  under : t.under = w.under
  elsewhere : ∀ e, ¬D e → t.folders.look e = w.folders.look e

theorem Touches.refl (D : Dir → Prop) (w : World) : Touches D w w :=
  ⟨rfl, rfl, rfl, fun _ _ => rfl⟩

theorem Whole.congr (h : Whole sum w m)
    (hl : t.folders.look (.imported m.id) = w.folders.look (.imported m.id)) : Whole sum t m := by
  obtain ⟨n, es, hlook, hpresent⟩ := h
  exact ⟨n, es, hl.trans hlook, hpresent⟩

theorem Sane.same_staging (h : Sane sum short w) {x y : Run × Work} (hx : x ∈ w.under)
    (hy : y ∈ w.under) (he : x.2.staging short = y.2.staging short) : x = y := by
  by_contra hne
  exact h.apart.forall hx hy hne he

/-- What a call does to its own directories leaves the models whole, and the
others do not see it. -/
theorem Touches.sound {D : Dir → Prop} (ht : Touches D w t) (h : Sane sum short w)
    (hD : ∀ d, D d → Owns short p w d) :
    Sane sum short t ∧ Crew.Guar (Keeps short) p w t := by
  refine ⟨⟨ht.under ▸ h.apart, fun m hm => ?_⟩, fun q hq => ⟨fun x hx hxq => ⟨ht.under ▸ hx, ?_⟩,
    fun hq' => ?_⟩⟩
  · rw [ht.recorded] at hm
    exact (h.whole m hm).congr (ht.elsewhere _ fun hd => (hD _ hd).2 m hm rfl)
  · refine ht.elsewhere _ fun hd => ?_
    obtain ⟨work, hmem, hwork⟩ := hD _ hd
    have he := h.same_staging hmem hx hwork
    exact hq (hxq ▸ (congrArg Prod.fst he).symm)
  · have hfree : w.lease ≠ some p := fun hp => hq (Option.some.inj (hq'.symm.trans hp))
    exact ⟨ht.lease.trans hq', ht.recorded, fun id => ht.elsewhere _ fun hd => hfree (hD _ hd).1⟩

theorem Owns.look (h : Owns short p w d) (hd : d ≠ .imports) (hk : Keeps short p w t) :
    t.folders.look d = w.folders.look d := by
  cases d with
  | imports => exact absurd rfl hd
  | imported id => exact (hk.lease h.1).2.2 id
  | staging name =>
    obtain ⟨work, hmem, rfl⟩ := h
    exact (hk.under _ hmem rfl).2

/-! ## Programs -/

abbrev Runs {α : Type} (sum : Bytes → String) (short : String → String) (p : Run)
    (Q : α → World → Prop) (left : Steps α) (w : World) : Prop :=
  Crew.Holds (calls sum short) (Alone short) (Sane sum short) (Keeps short) p Q left w

/-- What a call knows, whatever the others do. -/
def Stable (short : String → String) (p : Run) (I : World → Prop) : Prop :=
  ∀ w t, I w → Keeps short p w t → I t

section
variable {α β : Type} {I : World → Prop} {Q : α → World → Prop} {o : Op}

theorem Runs.bind {P : α → World → Prop} {Q : β → World → Prop} {left : Steps α}
    {f : α → Steps β} (h : Runs sum short p P left w)
    (hf : ∀ a t, P a t → Runs sum short p Q (f a) t) :
    Runs sum short p Q (left >>= f) w :=
  stands_bind (h.mono hf)

theorem runs_op {k : Answer o → Steps α} (hI : Stable short p I) (hw : I w)
    (h : ∀ t c r u, I t → Sane sum short t → Alone short p t o c → act p t o c = some (r, u) →
      Sane sum short u ∧ Crew.Guar (Keeps short) p t u ∧ Runs sum short p Q (k r) u) :
    Runs sum short p Q (perform o >>= k) w := by
  intro t hk ht c r u hact
  obtain ⟨halone, hact⟩ := under_eq_some.mp hact
  exact h t c r u (hI w t hw hk) ht halone hact

def Op.quiet : Op → Bool
  | .statDir _ | .openDir _ | .readStaging | .untouched _ | .availableBytes | .importedModels
  | .select _ | .cancelled | .stat _ _ | .readValidator _ _ | .get _ _ _ | .openLocal _
  | .contextErr | .close _ | .openRead _ _ | .read _ _ _ | .readEnd _ _ | .inspectFile _ _ => true
  | _ => false

theorem quiet_spec {c : Choice} {r : Answer o} (hq : o.quiet = true)
    (hact : act p w o c = some (r, t)) : t = w := by
  cases o <;> first | exact absurd hq Bool.false_ne_true | skip
  all_goals cases c <;> simp only [act, reduceCtorEq, Option.some.injEq, Prod.mk.injEq,
    Option.map_eq_some_iff, Option.ite_none_right_eq_some] at hact
  all_goals first | exact hact.2.symm | skip
  all_goals first | exact hact.2.2.symm | skip
  all_goals
    obtain ⟨_, _, _, h⟩ := hact
    exact h.symm

theorem runs_quiet {k : Answer o → Steps α} (hI : Stable short p I) (hw : I w)
    (hq : o.quiet = true) (h : ∀ r t c, I t → Sane sum short t → act p t o c = some (r, t) →
      Runs sum short p Q (k r) t) : Runs sum short p Q (perform o >>= k) w :=
  runs_op hI hw fun t c r u ht hs _ hact => by
    obtain rfl := quiet_spec hq hact
    exact ⟨hs, fun q _ => .refl q _, h r _ c ht hs hact⟩

theorem runs_own {D : Dir → Prop} {k : Answer o → Steps α} (hI : Stable short p I) (hw : I w)
    (hD : ∀ t, I t → Sane sum short t → ∀ d, D d → Owns short p t d)
    (h : ∀ t c r u, I t → Sane sum short t → act p t o c = some (r, u) →
      Touches D t u ∧ Runs sum short p Q (k r) u) :
    Runs sum short p Q (perform o >>= k) w :=
  runs_op hI hw fun t c r u ht hs _ hact => by
    obtain ⟨htouches, hrest⟩ := h t c r u ht hs hact
    obtain ⟨hu, hguar⟩ := htouches.sound hs (hD t ht hs)
    exact ⟨hu, hguar, hrest⟩

end

end LocalBase.Imports
