import LocalBase.Backup.Disk
import Mathlib.Data.List.Nodup

/-!
# A restore can be undone

At every moment of a restore and of any undo, each old file is at its own name:
aside, or in the root. A file in the root that was not there before is new, and
while any is at a name that was never there, everything old is aside. An undo
decides by that what it may remove, and keeps it true.
-/

namespace LocalBase.Backup

open Restart

variable {α : Type} {n : String}

/-- What holds of the disk at every moment; `old` is the root as it was. -/
structure Safe (old : String → Option α) (d : Disk α) : Prop where
  /-- What is aside is old. -/
  aside : ∀ n ∈ replaceable, ∀ x, d.aside n = some x → old n = some x
  /-- What is old and not aside is in the root. -/
  here : ∀ n ∈ replaceable, d.aside n = none → ∀ x, old n = some x → d.root n = some x
  /-- A name that was never there is free, unless everything old is aside. -/
  absent : ∀ n ∈ replaceable, old n = none → d.root n = none ∨
    (d.before.isSome = true ∧ ∀ m ∈ replaceable, (old m).isSome = true → (d.aside m).isSome = true)
  /-- Nothing else in the root is touched. -/
  rest : ∀ n, n ∉ replaceable → d.root n = old n

structure AllAside (old : String → Option α) (d : Disk α) : Prop where
  before : d.before.isSome = true
  aside : ∀ m ∈ replaceable, (old m).isSome = true → (d.aside m).isSome = true

/-- Nothing is at a name that was never there. -/
def Cleared (old : String → Option α) (d : Disk α) : Prop :=
  ∀ n ∈ replaceable, old n = none → d.root n = none

def NoneAside (d : Disk α) : Prop := ∀ n ∈ replaceable, d.aside n = none

variable {old : String → Option α} {d : Disk α} {j : Journal}

theorem mem_had {staging newRoot : Bool} :
    n ∈ (d.journalOf staging newRoot).had ↔ n ∈ replaceable ∧ (d.root n).isSome = true := by
  unfold Disk.journalOf
  exact List.mem_filter

/-! ## The operations -/

namespace Disk

@[simp] theorem remove_root_self : (d.remove n).root n = none :=
  Function.update_self ..

theorem remove_root_of_ne {m : String} (h : m ≠ n) : (d.remove n).root m = d.root m :=
  Function.update_of_ne h ..

@[simp] theorem remove_aside {m : String} : (d.remove n).aside m = d.aside m := rfl

@[simp] theorem moveBack_root_self : (d.moveBack n).root n = d.aside n :=
  Function.update_self ..

theorem moveBack_root_of_ne {m : String} (h : m ≠ n) : (d.moveBack n).root m = d.root m :=
  Function.update_of_ne h ..

theorem moveBack_aside_self : (d.moveBack n).aside n = none := by
  unfold aside moveBack
  cases d.before with
  | none => rfl
  | some b => exact Function.update_self ..

theorem moveBack_aside_of_ne {m : String} (h : m ≠ n) : (d.moveBack n).aside m = d.aside m := by
  unfold aside moveBack
  cases d.before with
  | none => rfl
  | some b => exact Function.update_of_ne h ..

@[simp] theorem moveAside_root_self : (d.moveAside n).root n = none :=
  Function.update_self ..

theorem moveAside_root_of_ne {m : String} (h : m ≠ n) : (d.moveAside n).root m = d.root m :=
  Function.update_of_ne h ..

theorem moveAside_aside_self (hb : d.before.isSome = true) :
    (d.moveAside n).aside n = d.root n := by
  obtain ⟨b, hb⟩ := Option.isSome_iff_exists.mp hb
  unfold aside moveAside
  rw [hb]
  exact Function.update_self ..

theorem moveAside_aside_of_ne {m : String} (h : m ≠ n) :
    (d.moveAside n).aside m = d.aside m := by
  unfold aside moveAside
  cases d.before with
  | none => rfl
  | some b => exact Function.update_of_ne h ..

theorem moveIn_root_of_ne {m : String} (h : m ≠ n) : (d.moveIn n).root m = d.root m :=
  Function.update_of_ne h ..

@[simp] theorem moveIn_aside {m : String} : (d.moveIn n).aside m = d.aside m := rfl

end Disk

/-! ## Applying -/

/-- What `apply` knows where. -/
def ApplyPc.Knows (old : String → Option α) (j : Journal) (d : Disk α) : ApplyPc → Prop
  | .mkdir => NoneAside d ∧ Cleared old d
  | .aside ns =>
    d.before.isSome = true ∧ Cleared old d ∧ ns.Nodup ∧
      (∀ n ∈ ns, n ∈ replaceable ∧ (old n).isSome = true ∧ d.aside n = none) ∧
      ∀ n ∈ j.had, n ∉ ns → (d.aside n).isSome = true
  | .moving ns => AllAside old d ∧ ns ⊆ replaceable
  | .applied => AllAside old d
  | .failed => True

theorem AllAside.move_in (h : AllAside old d) : AllAside old (d.moveIn n) :=
  ⟨h.before, h.aside⟩

theorem Safe.move_in (h : Safe old d) (ha : AllAside old d)
    (hn : n ∈ replaceable) : Safe old (d.moveIn n) where
  aside := h.aside
  here m hm hnone x hx := by
    have hsome := ha.aside m hm (by rw [hx]; rfl)
    rw [Disk.moveIn_aside] at hnone
    rw [hnone] at hsome
    cases hsome
  absent _ _ _ := Or.inr ⟨ha.before, ha.aside⟩
  rest m hm := (Disk.moveIn_root_of_ne (ne_of_mem_of_not_mem hn hm).symm).trans (h.rest m hm)

theorem Safe.move_aside (h : Safe old d) (hb : d.before.isSome = true) (hc : Cleared old d)
    (hn : n ∈ replaceable) (hnone : d.aside n = none)
    (hold : (old n).isSome = true) : Safe old (d.moveAside n) ∧ Cleared old (d.moveAside n) := by
  obtain ⟨y, hy⟩ := Option.isSome_iff_exists.mp hold
  have hroot := h.here n hn hnone y hy
  have hclear : Cleared old (d.moveAside n) := by
    intro m hm hmold
    by_cases hmn : m = n
    · subst hmn
      exact Disk.moveAside_root_self
    · rw [Disk.moveAside_root_of_ne hmn]
      exact hc m hm hmold
  refine ⟨⟨?_, ?_, fun m hm hmold => Or.inl (hclear m hm hmold), ?_⟩, hclear⟩
  · intro m hm x hx
    by_cases hmn : m = n
    · subst hmn
      rw [Disk.moveAside_aside_self hb, hroot] at hx
      exact hy.trans hx
    · rw [Disk.moveAside_aside_of_ne hmn] at hx
      exact h.aside m hm x hx
  · intro m hm hmnone x hx
    by_cases hmn : m = n
    · subst hmn
      rw [Disk.moveAside_aside_self hb, hroot] at hmnone
      cases hmnone
    · rw [Disk.moveAside_aside_of_ne hmn] at hmnone
      rw [Disk.moveAside_root_of_ne hmn]
      exact h.here m hm hmnone x hx
  · intro m hm
    rw [Disk.moveAside_root_of_ne (ne_of_mem_of_not_mem hn hm).symm]
    exact h.rest m hm

theorem Safe.mk_before (h : Safe old d) (hn : NoneAside d) (hc : Cleared old d) :
    Safe old d.mkBefore where
  aside _ _ _ hx := by cases hx
  here n hm _ x hx := h.here n hm (hn n hm) x hx
  absent n hm hold := Or.inl (hc n hm hold)
  rest := h.rest

/-- A journal that lists the names that were there. -/
structure Journal.Lists (j : Journal) (old : String → Option α) : Prop where
  mem : ∀ n, n ∈ j.had ↔ n ∈ replaceable ∧ (old n).isSome = true
  nodup : j.had.Nodup

theorem apply_step (hj : j.Lists old) (d : Disk α) (pc : ApplyPc)
    (h : Safe old d ∧ pc.Knows old j d) :
    Safe old (applyStep j d pc).1 ∧ (applyStep j d pc).2.Knows old j (applyStep j d pc).1 := by
  obtain ⟨hs, hk⟩ := h
  cases pc with
  | mkdir =>
    simp only [applyStep]
    split
    · exact ⟨hs, trivial⟩
    · refine ⟨hs.mk_before hk.1 hk.2, rfl, hk.2, hj.nodup, fun n hn => ?_, ?_⟩
      · obtain ⟨hn, hold⟩ := (hj.mem n).mp hn
        exact ⟨hn, hold, rfl⟩
      · exact fun n hn hnot => absurd hn hnot
  | aside ns =>
    obtain ⟨hb, hc, hnodup, htodo, hdone⟩ := hk
    cases ns with
    | nil =>
      refine ⟨hs, ⟨hb, fun n hn hold => ?_⟩, fun n hn => mem_databaseLast.mp hn⟩
      exact hdone n ((hj.mem n).mpr ⟨hn, hold⟩) List.not_mem_nil
    | cons n ns =>
      simp only [applyStep]
      split
      · obtain ⟨hn, hns⟩ := List.nodup_cons.mp hnodup
        obtain ⟨hmem, hold, hnone⟩ := htodo n List.mem_cons_self
        obtain ⟨hsafe, hclear⟩ := hs.move_aside hb hc hmem hnone hold
        refine ⟨hsafe, ?_, hclear, hns, fun m hm => ?_, fun m hm hnot => ?_⟩
        · unfold Disk.moveAside
          rw [Option.isSome_map]
          exact hb
        · obtain ⟨hm', hmold, hmnone⟩ := htodo m (List.mem_cons_of_mem n hm)
          have hmn : m ≠ n := fun heq => hn (heq ▸ hm)
          rw [Disk.moveAside_aside_of_ne hmn]
          exact ⟨hm', hmold, hmnone⟩
        · by_cases hmn : m = n
          · subst hmn
            rw [Disk.moveAside_aside_self hb]
            assumption
          · rw [Disk.moveAside_aside_of_ne hmn]
            exact hdone m hm (List.not_mem_cons_of_ne_of_not_mem hmn hnot)
      · exact ⟨hs, trivial⟩
  | moving ns =>
    obtain ⟨hall, hns⟩ := hk
    cases ns with
    | nil => exact ⟨hs, hall⟩
    | cons n ns =>
      obtain ⟨hn, hns⟩ := List.cons_subset.mp hns
      simp only [applyStep]
      split
      · exact ⟨hs.move_in hall hn, hall.move_in, hns⟩
      · exact ⟨hs, hall, hns⟩
  | applied => exact ⟨hs, hk⟩
  | failed => exact ⟨hs, trivial⟩

/-! ## Undoing -/

/-- What `undo` knows where. -/
def UndoPc.Knows (old : String → Option α) (d : Disk α) : UndoPc → Prop
  | .deciding => True
  | .removing ns =>
    AllAside old d ∧ ns ⊆ replaceable ∧
      ∀ n ∈ replaceable, old n = none → n ∉ ns → d.root n = none
  | .back ns =>
    Cleared old d ∧ ns ⊆ replaceable ∧ ∀ n ∈ replaceable, n ∉ ns → d.aside n = none
  | .replacing n ns =>
    Cleared old d ∧ n ∈ replaceable ∧ ns ⊆ replaceable ∧ (d.aside n).isSome = true ∧
      ∀ m ∈ replaceable, m ∉ ns → m ≠ n → d.aside m = none
  | .before => Cleared old d ∧ NoneAside d
  | .staging | .journal => Cleared old d ∧ d.before = none
  | .marker | .lock | .runtime | .root | .undone =>
    Cleared old d ∧ d.before = none ∧ d.journal = false
  | .failed => False

theorem Journal.Lists.all_aside (hj : j.Lists old) :
    j.allAside d = true ↔ AllAside old d := by
  unfold Journal.allAside
  rw [Bool.and_eq_true, List.all_eq_true]
  refine ⟨fun h => ⟨h.1, fun m hm hold => h.2 m ((hj.mem m).mpr ⟨hm, hold⟩)⟩, fun h => ?_⟩
  refine ⟨h.before, fun m hm => ?_⟩
  obtain ⟨hm, hold⟩ := (hj.mem m).mp hm
  exact h.aside m hm hold

theorem Safe.remove (h : Safe old d) (hn : n ∈ replaceable)
    (hgone : d.aside n = none → old n = none) : Safe old (d.remove n) where
  aside := h.aside
  here m hm hnone x hx := by
    have hmn : m ≠ n := by
      rintro rfl
      rw [hgone hnone] at hx
      cases hx
    rw [Disk.remove_root_of_ne hmn]
    exact h.here m hm hnone x hx
  absent m hm hold := by
    by_cases hmn : m = n
    · subst hmn
      exact Or.inl Disk.remove_root_self
    · rw [Disk.remove_root_of_ne hmn]
      exact h.absent m hm hold
  rest m hm := (Disk.remove_root_of_ne (ne_of_mem_of_not_mem hn hm).symm).trans (h.rest m hm)

theorem Cleared.remove (h : Cleared old d) : Cleared old (d.remove n) := by
  intro m hm hold
  by_cases hmn : m = n
  · subst hmn
    exact Disk.remove_root_self
  · rw [Disk.remove_root_of_ne hmn]
    exact h m hm hold

theorem Safe.move_back (h : Safe old d) (hc : Cleared old d) (hn : n ∈ replaceable)
    (haside : (d.aside n).isSome = true) :
    Safe old (d.moveBack n) ∧ Cleared old (d.moveBack n) := by
  obtain ⟨y, hy⟩ := Option.isSome_iff_exists.mp haside
  have hclear : Cleared old (d.moveBack n) := by
    intro m hm hold
    by_cases hmn : m = n
    · subst hmn
      rw [h.aside m hm y hy] at hold
      cases hold
    · rw [Disk.moveBack_root_of_ne hmn]
      exact hc m hm hold
  refine ⟨⟨?_, ?_, fun m hm hold => Or.inl (hclear m hm hold), ?_⟩, hclear⟩
  · intro m hm x hx
    by_cases hmn : m = n
    · subst hmn
      rw [Disk.moveBack_aside_self] at hx
      cases hx
    · rw [Disk.moveBack_aside_of_ne hmn] at hx
      exact h.aside m hm x hx
  · intro m hm hnone x hx
    by_cases hmn : m = n
    · subst hmn
      rw [Disk.moveBack_root_self, hy, ← h.aside m hm y hy]
      exact hx
    · rw [Disk.moveBack_aside_of_ne hmn] at hnone
      rw [Disk.moveBack_root_of_ne hmn]
      exact h.here m hm hnone x hx
  · intro m hm
    rw [Disk.moveBack_root_of_ne (ne_of_mem_of_not_mem hn hm).symm]
    exact h.rest m hm

theorem AllAside.remove (h : AllAside old d) : AllAside old (d.remove n) :=
  ⟨h.before, h.aside⟩

theorem NoneAside.of_before (h : d.before = none) : NoneAside d := by
  intro n _
  unfold Disk.aside
  rw [h]
  rfl

theorem NoneAside.nothing_aside (h : NoneAside d) : d.nothingAside = true := by
  unfold Disk.nothingAside
  rw [List.all_eq_true]
  intro n hn
  rw [h n hn]
  rfl

theorem Safe.drop_before (h : Safe old d) (hc : Cleared old d) (hn : NoneAside d) :
    Safe old { d with before := none } where
  aside _ _ _ hx := by cases hx
  here n hm _ x hx := h.here n hm (hn n hm) x hx
  absent n hm hold := Or.inl (hc n hm hold)
  rest := h.rest

theorem Safe.of_eq {d' : Disk α} (h : Safe old d) (hroot : d'.root = d.root)
    (hbefore : d'.before = d.before) : Safe old d' where
  aside n hn x hx := h.aside n hn x (by rw [← hx]; unfold Disk.aside; rw [hbefore])
  here n hn hnone x hx := by
    rw [hroot]
    exact h.here n hn (by rw [← hnone]; unfold Disk.aside; rw [hbefore]) x hx
  absent n hn hold := by
    unfold Disk.aside
    rw [hroot, hbefore]
    exact h.absent n hn hold
  rest n hn := by
    rw [hroot]
    exact h.rest n hn

@[simp] theorem Disk.removeRoot_root : d.removeRoot.root = d.root := by
  unfold removeRoot
  dsimp only
  split <;> rfl

@[simp] theorem Disk.removeRoot_before : d.removeRoot.before = d.before := by
  unfold removeRoot
  dsimp only
  split <;> rfl

@[simp] theorem Disk.removeRoot_journal : d.removeRoot.journal = d.journal := by
  unfold removeRoot
  dsimp only
  split <;> rfl

theorem undo_removing {ns : List String} (hj : j.Lists old) (hs : Safe old d)
    (hk : UndoPc.Knows old d (.removing (n :: ns))) :
    Safe old (undoStep j d (.removing (n :: ns))).1 ∧
      (undoStep j d (.removing (n :: ns))).2.Knows old (undoStep j d (.removing (n :: ns))).1 := by
  obtain ⟨hall, hns, hdone⟩ := hk
  obtain ⟨hn, hns⟩ := List.cons_subset.mp hns
  simp only [undoStep]
  split
  · next hhad =>
    refine ⟨hs, hall, hns, fun m hm hold hnot => ?_⟩
    have hmn : m ≠ n := by
      rintro rfl
      have hsome := ((hj.mem m).mp hhad).2
      rw [hold] at hsome
      cases hsome
    exact hdone m hm hold (List.not_mem_cons_of_ne_of_not_mem hmn hnot)
  · next hhad =>
    have hnew : old n = none := by
      cases hold : old n with
      | none => rfl
      | some x =>
        have hsome : (old n).isSome = true := by rw [hold]; rfl
        exact absurd ((hj.mem n).mpr ⟨hn, hsome⟩) hhad
    refine ⟨hs.remove hn fun _ => hnew, hall.remove, hns, fun m hm hold hnot => ?_⟩
    by_cases hmn : m = n
    · subst hmn
      exact Disk.remove_root_self
    · rw [Disk.remove_root_of_ne hmn]
      exact hdone m hm hold (List.not_mem_cons_of_ne_of_not_mem hmn hnot)

theorem undo_step (hj : j.Lists old) (d : Disk α) (pc : UndoPc)
    (h : Safe old d ∧ pc.Knows old d) :
    Safe old (undoStep j d pc).1 ∧ (undoStep j d pc).2.Knows old (undoStep j d pc).1 := by
  obtain ⟨hs, hk⟩ := h
  cases pc with
  | deciding =>
    simp only [undoStep]
    split
    · next hall =>
      exact ⟨hs, hj.all_aside.mp hall, List.Subset.refl _, fun n hn _ hnot => absurd hn hnot⟩
    · next hall =>
      refine ⟨hs, fun n hn hold => ?_, fun n hn => mem_databaseLast.mp hn,
        fun n hn hnot => absurd (mem_databaseLast.mpr hn) hnot⟩
      rcases hs.absent n hn hold with hnone | haside
      · exact hnone
      · exact absurd (hj.all_aside.mpr ⟨haside.1, haside.2⟩) hall
  | removing ns =>
    cases ns with
    | nil =>
      obtain ⟨_, _, hdone⟩ := hk
      exact ⟨hs, fun n hn hold => hdone n hn hold List.not_mem_nil,
        fun n hn => mem_databaseLast.mp hn,
        fun n hn hnot => absurd (mem_databaseLast.mpr hn) hnot⟩
    | cons n ns => exact undo_removing hj hs hk
  | back ns =>
    obtain ⟨hc, hns, hdone⟩ := hk
    cases ns with
    | nil => exact ⟨hs, hc, fun n hn => hdone n hn List.not_mem_nil⟩
    | cons n ns =>
      obtain ⟨hn, hns⟩ := List.cons_subset.mp hns
      have hrest : ∀ m ∈ replaceable, m ∉ ns → m ≠ n → d.aside m = none :=
        fun m hm hnot hmn => hdone m hm (List.not_mem_cons_of_ne_of_not_mem hmn hnot)
      simp only [undoStep]
      split
      · next haside =>
        refine ⟨hs.remove hn fun hnone => ?_, hc.remove, hn, hns, haside, hrest⟩
        rw [hnone] at haside
        cases haside
      · next haside =>
        refine ⟨hs, hc, hns, fun m hm hnot => ?_⟩
        by_cases hmn : m = n
        · subst hmn
          exact Option.not_isSome_iff_eq_none.mp haside
        · exact hrest m hm hnot hmn
  | replacing n ns =>
    obtain ⟨hc, hn, hns, haside, hrest⟩ := hk
    obtain ⟨hsafe, hclear⟩ := hs.move_back hc hn haside
    refine ⟨hsafe, hclear, hns, fun m hm hnot => ?_⟩
    by_cases hmn : m = n
    · subst hmn
      exact Disk.moveBack_aside_self
    · exact (Disk.moveBack_aside_of_ne hmn).trans (hrest m hm hnot hmn)
  | before =>
    obtain ⟨hc, hn⟩ := hk
    simp only [undoStep]
    split
    · next hnone => exact ⟨hs, hc, Option.isNone_iff_eq_none.mp hnone⟩
    · rw [if_pos hn.nothing_aside]
      exact ⟨hs.drop_before hc hn, hc, rfl⟩
  | staging =>
    simp only [undoStep]
    split
    · exact ⟨hs.of_eq rfl rfl, hk⟩
    · exact ⟨hs, hk⟩
  | journal =>
    obtain ⟨hc, hb⟩ := hk
    simp only [undoStep]
    split
    · exact ⟨hs.of_eq rfl rfl, hc, hb, rfl⟩
    · exact ⟨hs.of_eq rfl rfl, hc, hb, rfl⟩
  | marker => exact ⟨hs.of_eq rfl rfl, hk⟩
  | lock => exact ⟨hs.of_eq rfl rfl, hk⟩
  | runtime =>
    simp only [undoStep]
    split
    · exact ⟨hs, hk⟩
    · exact ⟨hs.of_eq rfl rfl, hk⟩
  | root =>
    obtain ⟨hc, hb, hjournal⟩ := hk
    refine ⟨hs.of_eq Disk.removeRoot_root Disk.removeRoot_before, ?_, ?_, ?_⟩
    · intro n hn hold
      exact (congrFun Disk.removeRoot_root n).trans (hc n hn hold)
    · exact Disk.removeRoot_before.trans hb
    · exact Disk.removeRoot_journal.trans hjournal
  | undone => exact ⟨hs, hk⟩
  | failed => exact hk.elim

/-! ## Cut off anywhere -/

theorem apply_safe (hj : j.Lists old) {m : Nat} (hs : Safe old d) (hn : NoneAside d)
    (hc : Cleared old d) : Safe old ((apply α j).cut m d) :=
  (Procedure.run_invariant (P := apply α j) (I := fun d pc => Safe old d ∧ pc.Knows old j d)
    (c := (d, .mkdir)) (apply_step hj) ⟨hs, hn, hc⟩).1

theorem undo_safe (hj : j.Lists old) :
    (undo α j).Safe (Safe old) fun d pc => Safe old d ∧ pc.Knows old d where
  start _ hs := ⟨hs, trivial⟩
  step := undo_step hj
  safe _ _ h := h.1

/-- How far an undo is from its end. -/
def UndoPc.rank : UndoPc → Nat
  | .deciding => replaceable.length + 2 * databaseLast.length + 10
  | .removing ns => ns.length + 2 * databaseLast.length + 9
  | .back ns => 2 * ns.length + 8
  | .replacing _ ns => 2 * ns.length + 9
  | .before => 7
  | .staging => 6
  | .journal => 5
  | .marker => 4
  | .lock => 3
  | .runtime => 2
  | .root => 1
  | .undone | .failed => 0

theorem undo_rank {pc : UndoPc} (h : pc.Knows old d) (hpc : pc ≠ .undone) :
    (undoStep j d pc).2.rank < pc.rank := by
  cases pc with
  | deciding =>
    simp only [undoStep]
    split
    · simp only [UndoPc.rank]
      omega
    · simp only [UndoPc.rank]
      omega
  | removing ns =>
    cases ns with
    | nil =>
      simp only [undoStep, UndoPc.rank, List.length_nil]
      omega
    | cons n ns =>
      simp only [undoStep]
      split
      · simp only [UndoPc.rank, List.length_cons]
        omega
      · simp only [UndoPc.rank, List.length_cons]
        omega
  | back ns =>
    cases ns with
    | nil =>
      simp only [undoStep, UndoPc.rank, List.length_nil]
      omega
    | cons n ns =>
      simp only [undoStep]
      split
      · simp only [UndoPc.rank, List.length_cons]
        omega
      · simp only [UndoPc.rank, List.length_cons]
        omega
  | replacing n ns =>
    simp only [undoStep, UndoPc.rank]
    omega
  | before =>
    simp only [undoStep]
    split
    · simp only [UndoPc.rank]
      omega
    · rw [if_pos h.2.nothing_aside]
      simp only [UndoPc.rank]
      omega
  | journal =>
    simp only [undoStep]
    split
    · simp only [UndoPc.rank]
      omega
    · simp only [UndoPc.rank]
      omega
  | staging | marker | lock | runtime | root =>
    simp only [undoStep, UndoPc.rank]
    omega
  | undone => exact absurd rfl hpc
  | failed => exact h.elim

theorem undo_ends (hj : j.Lists old) (hs : Safe old d) :
    ∃ n, ((undo α j).run n (d, .deciding)).2 = .undone :=
  (undo_safe hj).ends (· = .undone) UndoPc.rank
    (fun _ _ h hpc => undo_rank h.2 hpc) ⟨hs, trivial⟩

/-- Nothing of the old root is lost: it is at its name, or aside. -/
def Kept (old : String → Option α) (d : Disk α) : Prop :=
  ∀ n x, old n = some x → d.root n = some x ∨ d.aside n = some x

theorem Safe.kept (h : Safe old d) : Kept old d := by
  intro n x hx
  by_cases hn : n ∈ replaceable
  · cases haside : d.aside n with
    | none => exact Or.inl (h.here n hn haside x hx)
    | some y =>
      have hy := h.aside n hn y haside
      rw [hx] at hy
      cases hy
      exact Or.inr rfl
  · exact Or.inl ((h.rest n hn).trans hx)

theorem Safe.undone (h : Safe old d) (hk : UndoPc.Knows old d .undone) :
    d.root = old ∧ d.before = none ∧ d.journal = false := by
  obtain ⟨hc, hb, hjournal⟩ := hk
  refine ⟨funext fun n => ?_, hb, hjournal⟩
  by_cases hn : n ∈ replaceable
  · cases hold : old n with
    | none => exact hc n hn hold
    | some x => exact h.here n hn (NoneAside.of_before hb n hn) x hold
  · exact h.rest n hn

/-! ## The rest of the root -/

/-- What a restore into a root that was there leaves alone. -/
structure SameRest (d e : Disk α) : Prop where
  marker : e.marker = d.marker
  gatewayLock : e.gatewayLock = d.gatewayLock
  runtime : e.runtime = d.runtime
  inRuntime : e.inRuntime = d.inRuntime
  other : e.other = d.other
  present : e.present = d.present

theorem SameRest.refl : SameRest d d := ⟨rfl, rfl, rfl, rfl, rfl, rfl⟩

theorem SameRest.trans {e f : Disk α} (h : SameRest d e) (h' : SameRest e f) : SameRest d f :=
  ⟨h'.marker.trans h.marker, h'.gatewayLock.trans h.gatewayLock, h'.runtime.trans h.runtime,
    h'.inRuntime.trans h.inRuntime, h'.other.trans h.other, h'.present.trans h.present⟩

theorem apply_rest (d : Disk α) (pc : ApplyPc) : SameRest d (applyStep j d pc).1 := by
  cases pc with
  | mkdir =>
    simp only [applyStep]
    split <;> exact ⟨rfl, rfl, rfl, rfl, rfl, rfl⟩
  | aside ns | moving ns =>
    cases ns with
    | nil => exact .refl
    | cons n ns =>
      simp only [applyStep]
      split <;> exact ⟨rfl, rfl, rfl, rfl, rfl, rfl⟩
  | applied | failed => exact .refl

/-- The steps that take a new root away. -/
def UndoPc.takesRoot : UndoPc → Bool
  | .marker | .lock | .runtime | .root => true
  | _ => false

theorem undo_rest (hj : j.newRoot = false) (d : Disk α) (pc : UndoPc)
    (hpc : pc.takesRoot = false) :
    SameRest d (undoStep j d pc).1 ∧ (undoStep j d pc).2.takesRoot = false := by
  cases pc with
  | deciding =>
    simp only [undoStep]
    split <;> exact ⟨.refl, rfl⟩
  | removing ns | back ns =>
    cases ns with
    | nil => exact ⟨.refl, rfl⟩
    | cons n ns =>
      simp only [undoStep]
      split <;> exact ⟨⟨rfl, rfl, rfl, rfl, rfl, rfl⟩, rfl⟩
  | replacing n ns => exact ⟨⟨rfl, rfl, rfl, rfl, rfl, rfl⟩, rfl⟩
  | before =>
    simp only [undoStep]
    split
    · exact ⟨.refl, rfl⟩
    · split <;> exact ⟨⟨rfl, rfl, rfl, rfl, rfl, rfl⟩, rfl⟩
  | staging =>
    simp only [undoStep]
    split <;> exact ⟨⟨rfl, rfl, rfl, rfl, rfl, rfl⟩, rfl⟩
  | journal =>
    simp only [undoStep, hj]
    exact ⟨⟨rfl, rfl, rfl, rfl, rfl, rfl⟩, rfl⟩
  | marker | lock | runtime | root => cases hpc
  | undone | failed => exact ⟨.refl, rfl⟩

theorem undo_rest_safe (hj : j.newRoot = false) :
    (undo α j).Safe (SameRest d) fun e pc => SameRest d e ∧ pc.takesRoot = false where
  start _ h := ⟨h, rfl⟩
  step e pc h :=
    have hstep := undo_rest hj e pc h.2
    ⟨h.1.trans hstep.1, hstep.2⟩
  safe _ _ h := h.1

/-! ## The journal a restore writes -/

theorem replaceable_nodup : replaceable.Nodup := by
  decide

theorem journal_lists {staging newRoot : Bool} :
    (d.journalOf staging newRoot).Lists d.root where
  mem _ := mem_had
  nodup := List.Nodup.filter _ replaceable_nodup

theorem committed_safe : Safe d.root d.committed where
  aside _ _ _ hx := by cases hx
  here _ _ _ _ hx := hx
  absent _ _ hold := Or.inl hold
  rest _ _ := rfl

/-- Wherever a restore stops, and wherever any number of undos of it do, all of
the old root is still there, and one undo more that runs to its end, as it does,
leaves the root as it was before. -/
theorem restore_undone (d : Disk α) (staging newRoot : Bool) (m : Nat) (e : Disk α)
    (h : (undo α (d.journalOf staging newRoot)).Cuts
      ((apply α (d.journalOf staging newRoot)).cut m d.committed) e) :
    Kept d.root e ∧ (newRoot = false → SameRest d e) ∧
      (∃ n, ((undo α (d.journalOf staging newRoot)).run n (e, .deciding)).2 = .undone) ∧
      ∀ n, ((undo α (d.journalOf staging newRoot)).run n (e, .deciding)).2 = .undone →
        let f := (undo α (d.journalOf staging newRoot)).cut n e
        f.root = d.root ∧ f.before = none ∧ f.journal = false := by
  have hj : (d.journalOf staging newRoot).Lists d.root := journal_lists
  have hs : Safe d.root e :=
    (undo_safe hj).cuts (apply_safe hj committed_safe (NoneAside.of_before rfl)
      fun _ _ hold => hold) h
  refine ⟨hs.kept, fun hnew => ?_, undo_ends hj hs, fun n hn => ?_⟩
  · have happlied : SameRest d ((apply α (d.journalOf staging newRoot)).cut m d.committed) :=
      Procedure.run_invariant (P := apply α (d.journalOf staging newRoot))
        (I := fun e _ => SameRest d e) (fun e pc h => h.trans (apply_rest e pc))
        (c := (d.committed, .mkdir)) ⟨rfl, rfl, rfl, rfl, rfl, rfl⟩
    exact (undo_rest_safe hnew).cuts happlied h
  · have hrun := Procedure.run_invariant (undo_safe hj).step (n := n)
      (c := (e, UndoPc.deciding)) ⟨hs, trivial⟩
    change ((undo α (d.journalOf staging newRoot)).run n (e, .deciding)).2 = .undone at hn
    rw [hn] at hrun
    exact hrun.1.undone hrun.2

/-- A root with a database and voices; a backup with a database and credentials. -/
def replacedRoot : Disk Nat where
  root n := if n = databaseName then some 1 else if n = "voices" then some 2 else none
  staging := some fun n =>
    if n = databaseName then some 10 else if n = "credentials" then some 11 else none

/-- The restore stops with all of the backup in, and an undo with only the
voices back. -/
theorem replaced_root_undone :
    let u := undo Nat (replacedRoot.journalOf true false)
    let e := u.cut 26
      ((apply Nat (replacedRoot.journalOf true false)).cut 16 replacedRoot.committed)
    let f := u.cut 60 e
    f.root databaseName = some 1 ∧ f.root "voices" = some 2 ∧ f.root "credentials" = none ∧
      f.before = none ∧ f.journal = false := by
  obtain ⟨_, _, _, hend⟩ :=
    restore_undone replacedRoot true false 16 _ (.again 26 .none)
  obtain ⟨hroot, hbefore, hjournal⟩ := hend 60 (by decide +kernel)
  refine ⟨?_, ?_, ?_, hbefore, hjournal⟩
  · exact congrFun hroot databaseName
  · exact congrFun hroot "voices"
  · exact congrFun hroot "credentials"

end LocalBase.Backup
