import Mathlib.Data.List.Pairwise
import Mathlib.Data.Nat.Basic
import Mathlib.Order.Basic

/-!
# Facts about a model

A fact is a value and where it came from. `Merge` combines two: a stronger source
replaces a weaker one, and a disagreement of equals leaves the fact unknown. Where
the stronger of two that disagree is the one that is there already, it takes them for
equals, so what a list of facts comes to depends on their order.
-/

namespace LocalBase.Models

inductive Source where
  | pinned
  | declared
  | inspect
  | verified
deriving DecidableEq

namespace Source

def text : Source → String
  | pinned => "pinned-metadata"
  | declared => "declared"
  | inspect => "inspected"
  | verified => "verified-runtime"

/-- `sourceRank`. -/
def rank : Source → Nat
  | pinned | declared => 1
  | inspect => 2
  | verified => 3

theorem rank_pos (s : Source) : 0 < s.rank := by
  cases s with
  | _ => decide

end Source

/-- A value with its evidence. A fact without a source is unknown. -/
structure Fact (T : Type) where
  value : T
  source : Option Source
  conflict : String := ""

namespace Fact

section
variable {T : Type} [DecidableEq T] [Inhabited T] [ToString T] {a b f : Fact T} {v : T}
  {l : List (Fact T)}

/-- The zero `Fact`. -/
def unknown : Fact T := ⟨default, none, ""⟩

def known (f : Fact T) : Bool := f.source.isSome && f.conflict = ""

def rank (f : Fact T) : Nat := f.source.elim 0 Source.rank

/-- What `Merge` notes of two facts that disagree. -/
def disagreement (a b : T) (sa sb : Source) : String :=
  toString a ++ " (" ++ sa.text ++ ") vs " ++ toString b ++ " (" ++ sb.text ++ ")"

def merge (a b : Fact T) : Fact T :=
  match b.source, a.source with
  | none, _ => a
  | some _, none => b
  | some sb, some sa =>
    if a.value = b.value then
      if sa.rank < sb.rank then b else a
    else if sa.rank < sb.rank then b
    else ⟨default, some sa, disagreement a.value b.value sa sb⟩

/-- `Merge`, over a list from the unknown fact. -/
def fold (l : List (Fact T)) : Fact T := l.foldl merge unknown

/-- The fact is of the strongest source in the list. -/
def Strongest (l : List (Fact T)) (f : Fact T) : Prop := ∀ g ∈ l, g.rank ≤ f.rank

/-- The strongest facts in the list, of which there is one, all have this value. -/
def Agreed (l : List (Fact T)) (v : T) : Prop := l ≠ [] ∧ ∀ f ∈ l, Strongest l f → f.value = v

/-- Every fact after one of the strongest has its value. -/
def Undisputed (l : List (Fact T)) : Prop := l.Pairwise fun f g => Strongest l f → g.value = f.value

/-! ## One step -/

omit [DecidableEq T] [Inhabited T] [ToString T] in
theorem source_of_known (h : f.known) : ∃ s, f.source = some s :=
  Option.isSome_iff_exists.1 (Bool.and_eq_true_iff.1 h).1

omit [DecidableEq T] [Inhabited T] [ToString T] in
theorem rank_pos (h : f.known) : 0 < f.rank := by
  obtain ⟨s, hs⟩ := source_of_known h
  rw [rank, hs]
  exact s.rank_pos

omit [DecidableEq T] [Inhabited T] in
theorem disagreement_ne (a b : T) (sa sb : Source) : disagreement a b sa sb ≠ "" := by
  intro h
  have hlength := congrArg String.length h
  simp only [disagreement, String.length_append] at hlength
  have hopen : (" (" : String).length = 2 := rfl
  have hempty : ("" : String).length = 0 := rfl
  omega

theorem merge_stronger (hb : b.known) (h : a.rank < b.rank) : merge a b = b := by
  obtain ⟨sb, hsb⟩ := source_of_known hb
  rw [rank, rank, hsb] at h
  rw [merge, hsb]
  cases hsa : a.source with
  | none => rfl
  | some sa =>
    rw [hsa] at h
    have hrank : sa.rank < sb.rank := h
    simp only [if_pos hrank, ite_self]

theorem merge_same (ha : a.source ≠ none) (h : b.rank ≤ a.rank) (hv : b.value = a.value) :
    merge a b = a := by
  obtain ⟨sa, hsa⟩ := Option.ne_none_iff_exists'.1 ha
  rw [merge, hsa]
  cases hsb : b.source with
  | none => rfl
  | some sb =>
    rw [rank, rank, hsa, hsb] at h
    have hrank : ¬ sa.rank < sb.rank := not_lt.2 h
    simp only [if_pos hv.symm, if_neg hrank]

theorem merge_differing (ha : a.source ≠ none) (hb : b.known) (h : b.rank ≤ a.rank)
    (hv : b.value ≠ a.value) :
    (merge a b).source = a.source ∧ (merge a b).conflict ≠ "" := by
  obtain ⟨sa, hsa⟩ := Option.ne_none_iff_exists'.1 ha
  obtain ⟨sb, hsb⟩ := source_of_known hb
  rw [rank, rank, hsa, hsb] at h
  have hrank : ¬ sa.rank < sb.rank := not_lt.2 h
  rw [merge, hsa, hsb]
  simp only [if_neg hv.symm, if_neg hrank]
  exact ⟨trivial, disagreement_ne _ _ _ _⟩

theorem rank_merge_lt {r : Nat} (ha : a.rank < r) (hb : b.rank < r) : (merge a b).rank < r := by
  unfold merge
  split
  · exact ha
  · exact hb
  · next sb sa hsb hsa =>
    split_ifs
    · exact hb
    · exact ha
    · exact hb
    · rw [rank, hsa] at ha
      exact ha

/-! ## Lists -/

theorem rank_foldl_lt {r : Nat} (ha : a.rank < r) (hl : ∀ f ∈ l, f.rank < r) :
    (l.foldl merge a).rank < r := by
  induction l generalizing a with
  | nil => exact ha
  | cons f l ih =>
    exact ih (rank_merge_lt ha (hl f List.mem_cons_self)) fun g hg =>
      hl g (List.mem_cons_of_mem f hg)

theorem foldl_conflict (ha : a.source ≠ none) (hc : a.conflict ≠ "")
    (hl : ∀ f ∈ l, f.known ∧ f.rank ≤ a.rank) : ¬ (l.foldl merge a).known := by
  induction l generalizing a with
  | nil => simp [known, hc]
  | cons f l ih =>
    obtain ⟨hf, hrank⟩ := hl f List.mem_cons_self
    have hrest : ∀ g ∈ l, g.known ∧ g.rank ≤ a.rank := fun g hg =>
      hl g (List.mem_cons_of_mem f hg)
    rw [List.foldl_cons]
    by_cases hv : f.value = a.value
    · rw [merge_same ha hrank hv]
      exact ih ha hc hrest
    · obtain ⟨hsource, hconflict⟩ := merge_differing ha hf hrank hv
      have hmerged : (merge a f).rank = a.rank := congrArg (Option.elim · 0 Source.rank) hsource
      exact ih (hsource ▸ ha) hconflict fun g hg => hmerged ▸ hrest g hg

/-- A known fact stays as it is while no stronger one comes, if all that come agree. -/
theorem foldl_known (ha : a.known) (hl : ∀ f ∈ l, f.known ∧ f.rank ≤ a.rank) (w : T) :
    (l.foldl merge a).known ∧ (l.foldl merge a).value = w ↔
      a.value = w ∧ ∀ f ∈ l, f.value = a.value := by
  induction l with
  | nil => simp [ha]
  | cons f l ih =>
    obtain ⟨hf, hrank⟩ := hl f List.mem_cons_self
    have hrest : ∀ g ∈ l, g.known ∧ g.rank ≤ a.rank := fun g hg =>
      hl g (List.mem_cons_of_mem f hg)
    obtain ⟨sa, hsa⟩ := source_of_known ha
    have hsource : a.source ≠ none := by
      rw [hsa]
      exact Option.some_ne_none sa
    rw [List.foldl_cons, List.forall_mem_cons]
    by_cases hv : f.value = a.value
    · rw [merge_same hsource hrank hv, ih hrest, and_iff_right hv]
    · obtain ⟨hmerged, hconflict⟩ := merge_differing hsource hf hrank hv
      refine iff_of_false (fun h => ?_) fun h => hv h.2.1
      have hsame : (merge a f).rank = a.rank := congrArg (Option.elim · 0 Source.rank) hmerged
      exact foldl_conflict (hmerged ▸ hsource) hconflict (fun g hg => hsame ▸ hrest g hg) h.1

theorem fold_first {pre post : List (Fact T)} (hf : f.known) (hpre : ∀ g ∈ pre, g.rank < f.rank) :
    fold (pre ++ f :: post) = post.foldl merge f := by
  rw [fold, List.foldl_append, List.foldl_cons,
    merge_stronger hf (rank_foldl_lt (a := unknown) (rank_pos hf) hpre)]

omit [DecidableEq T] [Inhabited T] [ToString T] in
theorem exists_first (h : l ≠ []) : ∃ pre f post, l = pre ++ f :: post ∧
    (∀ g ∈ pre, g.rank < f.rank) ∧ Strongest l f := by
  induction l with
  | nil => exact absurd rfl h
  | cons f l ih =>
    by_cases hf : Strongest (f :: l) f
    · exact ⟨[], f, l, rfl, fun g hg => absurd hg List.not_mem_nil, hf⟩
    · have hl : l ≠ [] := by
        rintro rfl
        exact hf fun g hg => (List.mem_singleton.1 hg ▸ le_rfl)
      obtain ⟨pre, g, post, rfl, hpre, hg⟩ := ih hl
      have hlt : f.rank < g.rank := by
        by_contra hle
        refine hf fun k hk => ?_
        rcases List.mem_cons.1 hk with rfl | hk
        · exact le_rfl
        · exact (hg k hk).trans (not_lt.1 hle)
      refine ⟨f :: pre, g, post, rfl, ?_, ?_⟩
      · exact List.forall_mem_cons.2 ⟨hlt, hpre⟩
      · exact List.forall_mem_cons.2 ⟨hlt.le, hg⟩

/-- Merging a list of known facts gives what the strongest of them agree on, if they do, and
nothing known if they do not: exactly when they disagree, or no fact that comes after
one of them says otherwise. -/
theorem fold_agreed_iff (l : List (Fact T)) (hl : ∀ f ∈ l, f.known) :
    (∀ v, (fold l).known ∧ (fold l).value = v ↔ Agreed l v) ↔
      (∀ v, ¬ Agreed l v) ∨ Undisputed l := by
  by_cases hne : l = []
  · subst hne
    refine iff_of_true (fun v => iff_of_false (fun h => ?_) fun h => h.1 rfl) (.inr .nil)
    exact absurd h.1 (by simp [fold, unknown, known])
  obtain ⟨pre, f, post, rfl, hpre, hf⟩ := exists_first hne
  have hknown : f.known := hl f (by simp)
  have hpost : ∀ g ∈ post, g.known ∧ g.rank ≤ f.rank := fun g hg =>
    ⟨hl g (by simp [hg]), hf g (by simp [hg])⟩
  have hfold : ∀ v, (fold (pre ++ f :: post)).known ∧ (fold (pre ++ f :: post)).value = v ↔
      f.value = v ∧ ∀ g ∈ post, g.value = f.value := fun v => by
    rw [fold_first hknown hpre]
    exact foldl_known hknown hpost v
  have hweak : ∀ g ∈ pre, ¬ Strongest (pre ++ f :: post) g := fun g hg h =>
    absurd (h f (by simp)) (not_le.2 (hpre g hg))
  -- After the first of the strongest is after any of them.
  have hundisputed : Undisputed (pre ++ f :: post) ↔ ∀ g ∈ post, g.value = f.value := by
    rw [Undisputed, List.pairwise_append, List.pairwise_cons]
    constructor
    · exact fun h g hg => h.2.1.1 g hg hf
    · intro h
      refine ⟨?_, ⟨fun g hg _ => h g hg, ?_⟩, fun g hg _ _ hs => absurd hs (hweak g hg)⟩
      · exact List.pairwise_of_forall_mem_list fun g hg _ _ hs => absurd hs (hweak g hg)
      · exact List.pairwise_of_forall_mem_list fun g hg k hk _ => (h k hk).trans (h g hg).symm
  have hagreed : ∀ v, Agreed (pre ++ f :: post) v → f.value = v := fun v h =>
    h.2 f (by simp) hf
  rw [hundisputed]
  constructor
  · intro h
    refine or_iff_not_imp_left.2 fun hsome => ?_
    obtain ⟨v, hv⟩ := not_forall_not.1 hsome
    exact ((hfold v).1 ((h v).2 hv)).2
  · intro h v
    rw [hfold]
    constructor
    · rintro ⟨rfl, hall⟩
      refine ⟨hne, fun g hg hs => ?_⟩
      rcases List.mem_append.1 hg with hg | hg
      · exact absurd hs (hweak g hg)
      · rcases List.mem_cons.1 hg with rfl | hg
        · rfl
        · exact hall g hg
    · exact fun hv => ⟨hagreed v hv, h.resolve_left fun hnone => hnone v hv⟩

end

/-- An architecture that the file itself gives. -/
def inspected : Fact String := { value := "llama", source := some .inspect }

/-- Another, of a record about it. -/
def recorded : Fact String := { value := "qwen", source := some .pinned }

/-- The file wins over a record that is read before it. -/
theorem record_first : ((fold [recorded, inspected]).known ∧
    (fold [recorded, inspected]).value = "llama") ↔ Agreed [recorded, inspected] "llama" := by
  refine (fold_agreed_iff [recorded, inspected] (by decide)).2 (.inr ?_) "llama"
  unfold Undisputed Strongest
  decide

/-- The record takes it back when it is read after it. -/
theorem record_last :
    ¬ ∀ l : List (Fact String), (∀ f ∈ l, f.known) →
      ∀ v, (fold l).known ∧ (fold l).value = v ↔ Agreed l v := by
  intro h
  have hagreed : Agreed [inspected, recorded] "llama" := by
    unfold Agreed Strongest
    decide
  have hunknown : ¬ (fold [inspected, recorded]).known := by decide
  exact hunknown ((h [inspected, recorded] (by decide) "llama").2 hagreed).1

end Fact

end LocalBase.Models
