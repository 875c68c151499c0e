import Mathlib.Tactic.Common

/-!
# Texts in pieces

What is in the pieces that a text is split into at a separator, what pieces joined by one
are, and reading every piece.
-/

namespace SplitOn

universe u

variable {α : Type u} [DecidableEq α] {a c : α} {s p : List α}

theorem intercalate_eq {α : Type u} (sep : List α) (x : List α) (xs : List (List α)) :
    sep.intercalate (x :: xs) = x ++ xs.flatMap (sep ++ ·) := by
  induction xs generalizing x with
  | nil => rw [List.intercalate_singleton, List.flatMap_nil, List.append_nil]
  | cons y xs ih =>
    rw [List.intercalate_cons_cons, ih, List.flatMap_cons, List.append_assoc,
      List.append_assoc]

theorem mem_splitOn (h : a ∈ s) : a = c ∨ ∃ p ∈ s.splitOn c, a ∈ p := by
  induction s with
  | nil => cases h
  | cons b s ih =>
    obtain ⟨first, more, hsplit⟩ := List.exists_cons_of_ne_nil (List.splitOn_ne_nil c s)
    rw [List.splitOn_cons_eq_if_modifyHead]
    split
    · next hb =>
      obtain rfl | h := List.mem_cons.1 h
      · exact .inl (eq_of_beq hb)
      · exact (ih h).imp_right fun ⟨p, hp, ha⟩ => ⟨p, List.mem_cons_of_mem _ hp, ha⟩
    · rw [hsplit, List.modifyHead_cons]
      obtain rfl | h := List.mem_cons.1 h
      · exact .inr ⟨_, List.mem_cons_self, List.mem_cons_self⟩
      · obtain h | ⟨p, hp, ha⟩ := ih h
        · exact .inl h
        · rw [hsplit] at hp
          obtain rfl | hp := List.mem_cons.1 hp
          · exact .inr ⟨_, List.mem_cons_self, List.mem_cons_of_mem _ ha⟩
          · exact .inr ⟨p, List.mem_cons_of_mem _ hp, ha⟩

theorem mem_of_mem_splitOn (hp : p ∈ s.splitOn c) (ha : a ∈ p) : a ∈ s := by
  have hs : [c].intercalate (s.splitOn c) = s := List.intercalate_splitOn c
  obtain ⟨first, more, hsplit⟩ := List.exists_cons_of_ne_nil (List.splitOn_ne_nil c s)
  rw [hsplit] at hp hs
  rw [← hs, intercalate_eq]
  obtain rfl | hp := List.mem_cons.1 hp
  · exact List.mem_append_left _ ha
  · exact List.mem_append_right _ (List.mem_flatMap.2 ⟨p, hp, List.mem_append_right _ ha⟩)

theorem not_mem_of_splitOn (h : p ∈ s.splitOn c) : c ∉ p := by
  induction s generalizing p with
  | nil =>
    rw [List.splitOn_nil, List.mem_singleton] at h
    rw [h]
    exact List.not_mem_nil
  | cons b s ih =>
    rw [List.splitOn_cons_eq_if_modifyHead] at h
    split at h
    · rcases List.mem_cons.1 h with rfl | h
      · exact List.not_mem_nil
      · exact ih h
    · next hb =>
      obtain ⟨first, more, hsplit⟩ := List.exists_cons_of_ne_nil (List.splitOn_ne_nil c s)
      rw [hsplit, List.modifyHead_cons] at h
      rcases List.mem_cons.1 h with rfl | h
      · refine List.not_mem_cons_of_ne_of_not_mem ?_ (ih (hsplit ▸ List.mem_cons_self))
        rintro rfl
        exact hb (beq_self_eq_true c)
      · exact ih (hsplit ▸ List.mem_cons_of_mem _ h)

/-- A text ends in another, as a whole or after a separator, when its pieces end in those
of the other. -/
theorem suffix_splitOn : (p = s ∨ (c :: s) <:+ p) ↔ s.splitOn c <:+ p.splitOn c := by
  constructor
  · rintro (rfl | ⟨front, rfl⟩)
    · exact List.suffix_refl _
    · rw [List.splitOn_append_cons_self]
      exact List.suffix_append _ _
  · rintro ⟨front, hfront⟩
    have hp : [c].intercalate (front ++ s.splitOn c) = p := by
      rw [hfront, List.intercalate_splitOn]
    cases front with
    | nil =>
      rw [List.nil_append, List.intercalate_splitOn] at hp
      exact .inl hp.symm
    | cons first front =>
      obtain ⟨piece, more, hs⟩ := List.exists_cons_of_ne_nil (List.splitOn_ne_nil c s)
      have hjoined : piece ++ more.flatMap ([c] ++ ·) = s := by
        rw [← intercalate_eq, ← hs, List.intercalate_splitOn]
      refine .inr ⟨first ++ front.flatMap ([c] ++ ·), ?_⟩
      rw [← hp, List.cons_append, intercalate_eq, List.flatMap_append, hs, List.flatMap_cons,
        ← hjoined]
      simp only [List.append_assoc, List.cons_append, List.nil_append]

theorem mapM_eq_some {α β : Type u} {f : α → Option β} {xs : List α} {ys : List β} :
    xs.mapM f = some ys ↔ List.Forall₂ (fun x y => f x = some y) xs ys := by
  induction xs generalizing ys with
  | nil =>
    rw [List.mapM_nil]
    constructor
    · rintro ⟨⟩
      exact .nil
    · rintro ⟨⟩
      rfl
  | cons x xs ih =>
    rw [List.mapM_cons]
    constructor
    · intro h
      obtain ⟨y, hy, h⟩ := Option.bind_eq_some_iff.1 h
      obtain ⟨zs, hzs, h⟩ := Option.bind_eq_some_iff.1 h
      cases h
      exact .cons hy (ih.1 hzs)
    · intro h
      cases h with
      | cons hy hzs =>
        rw [hy, ih.2 hzs]
        rfl

end SplitOn
