import Mathlib.Data.List.Basic

/-!
# Codes that can be read back

A word is written by writing its letters one after another. When a reader can
take one letter off the front of any text that begins with its code, whatever
follows, the whole word can be read back, so no two words are written alike.
-/

namespace Code

variable {α β : Type*}

/-- `read` takes a written letter off the front of any text, and finds none in
the empty one. -/
structure Reads (write : α → List β) (read : List β → Option (α × List β)) : Prop where
  letter : ∀ a rest, read (write a ++ rest) = some (a, rest)
  empty : read [] = none

theorem Reads.ne_nil {write : α → List β} {read : List β → Option (α × List β)}
    (h : Reads write read) (a : α) (rest : List β) : write a ++ rest ≠ [] := by
  intro hnil
  have hread := h.letter a rest
  rw [hnil, h.empty] at hread
  cases hread

theorem Reads.flatMap_injective {write : α → List β}
    {read : List β → Option (α × List β)} (h : Reads write read) {as bs : List α}
    (heq : as.flatMap write = bs.flatMap write) : as = bs := by
  induction as generalizing bs with
  | nil =>
    cases bs with
    | nil => rfl
    | cons b bs => exact absurd heq.symm (h.ne_nil b _)
  | cons a as ih =>
    cases bs with
    | nil => exact absurd heq (h.ne_nil a _)
    | cons b bs =>
      rw [List.flatMap_cons, List.flatMap_cons] at heq
      have hread := h.letter a (as.flatMap write)
      rw [heq, h.letter b] at hread
      obtain ⟨rfl, hrest⟩ := Prod.mk.inj (Option.some.inj hread)
      rw [ih hrest.symm]

end Code
