import Mathlib.Logic.Function.Basic
import Mathlib.Tactic.Common

/-!
# Files under names

A disk as programs see it: names, each for one file or none, and what is in
every file. A file is known by a number, so two names can be of one file, a
file that is open stays itself when its name goes to another, and a rename of
a name onto another of the same file does nothing.

`fresh` keeps a new file new: every number that a name has was given out.
-/

namespace Files

/-- Names of type `ν` for files of bytes `β`. -/
structure Disk (ν β : Type) where
  names : ν → Option Nat
  bytes : Nat → List β
  next : Nat
  fresh : ∀ n i, names n = some i → i < next

variable {ν β : Type}

namespace Disk

/-- What is in the file of this name. -/
def file (d : Disk ν β) (n : ν) : Option (List β) := (d.names n).map d.bytes

/-- Bytes at the end of a file that is open. -/
def append (d : Disk ν β) (i : Nat) (bs : List β) : Disk ν β :=
  { d with bytes := Function.update d.bytes i (d.bytes i ++ bs) }

variable {d d' : Disk ν β} {n m old new : ν} {i : Nat} {bs : List β}

@[simp] theorem append_bytes_self : (d.append i bs).bytes i = d.bytes i ++ bs :=
  Function.update_self ..

theorem append_bytes_of_ne {j : Nat} (h : j ≠ i) : (d.append i bs).bytes j = d.bytes j :=
  Function.update_of_ne h _ _

theorem file_eq_some (h : d.names n = some i) : d.file n = some (d.bytes i) := by
  rw [file, h, Option.map_some]

theorem file_eq_none : d.file n = none ↔ d.names n = none := Option.map_eq_none_iff

variable [DecidableEq ν]

/-- The name is of this file, which has been given its number. -/
def bind (d : Disk ν β) (n : ν) (i : Nat) (hi : i < d.next) : Disk ν β where
  names := Function.update d.names n (some i)
  bytes := d.bytes
  next := d.next
  fresh m j h := by
    by_cases hm : m = n
    · rw [hm, Function.update_self] at h
      cases h
      exact hi
    · rw [Function.update_of_ne hm] at h
      exact d.fresh m j h

/-- The name is of no file. -/
def remove (d : Disk ν β) (n : ν) : Disk ν β where
  names := Function.update d.names n none
  bytes := d.bytes
  next := d.next
  fresh m j h := by
    by_cases hm : m = n
    · rw [hm, Function.update_self] at h
      cases h
    · rw [Function.update_of_ne hm] at h
      exact d.fresh m j h

/-- A new file under the name, with these bytes. -/
def create (d : Disk ν β) (n : ν) (bs : List β) : Disk ν β where
  names := Function.update d.names n (some d.next)
  bytes := Function.update d.bytes d.next bs
  next := d.next + 1
  fresh m j h := by
    by_cases hm : m = n
    · rw [hm, Function.update_self] at h
      cases h
      exact Nat.lt_succ_self _
    · rw [Function.update_of_ne hm] at h
      exact Nat.lt_succ_of_lt (d.fresh m j h)

/-- A second name for the file of the first; `none` without a first, or with
a second. -/
def link (d : Disk ν β) (old new : ν) : Option (Disk ν β) :=
  match h : d.names old, d.names new with
  | some i, none => some (d.bind new i (d.fresh old i h))
  | _, _ => none

/-- The name of the first moved onto the second in one step; `none` without a
first. Names of one file stay as they are. -/
def rename (d : Disk ν β) (old new : ν) : Option (Disk ν β) :=
  match h : d.names old with
  | none => none
  | some i =>
    if d.names new = some i then some d
    else some ((d.bind new i (d.fresh old i h)).remove old)

/-! ## What an operation leaves of each name -/

@[simp] theorem remove_names_self : (d.remove n).names n = none := Function.update_self ..

theorem remove_names_of_ne (h : m ≠ n) : (d.remove n).names m = d.names m :=
  Function.update_of_ne h _ _

@[simp] theorem create_names_self : (d.create n bs).names n = some d.next :=
  Function.update_self ..

theorem create_names_of_ne (h : m ≠ n) : (d.create n bs).names m = d.names m :=
  Function.update_of_ne h _ _

@[simp] theorem create_bytes_self : (d.create n bs).bytes d.next = bs :=
  Function.update_self ..

theorem create_bytes_of_lt {j : Nat} (h : j < d.next) : (d.create n bs).bytes j = d.bytes j :=
  Function.update_of_ne (Nat.ne_of_lt h) _ _

theorem link_spec (h : d.link old new = some d') :
    ∃ i, d.names old = some i ∧ d.names new = none ∧
      d'.names = Function.update d.names new (some i) ∧ d'.bytes = d.bytes ∧
      d'.next = d.next := by
  unfold link at h
  split at h
  · next i hold hnew =>
    cases h
    exact ⟨i, hold, hnew, rfl, rfl, rfl⟩
  · cases h

/-- A rename is of a file that is there: nothing, when both names are of it,
and otherwise the second name is all it has of the two. -/
theorem rename_spec (h : d.rename old new = some d') :
    ∃ i, d.names old = some i ∧ d'.bytes = d.bytes ∧ d'.next = d.next ∧
      d'.names new = some i ∧ (∀ m, m ≠ old → m ≠ new → d'.names m = d.names m) ∧
      (d'.names old = none ∨ d.names new = some i ∧ d' = d) := by
  unfold rename at h
  split at h
  · cases h
  · next i hold =>
    split at h
    · next hsame =>
      cases h
      exact ⟨i, hold, rfl, rfl, hsame, fun _ _ _ => rfl, .inr ⟨hsame, rfl⟩⟩
    · next hother =>
      cases h
      have hne : new ≠ old := fun he => hother (by rw [he, hold])
      refine ⟨i, hold, rfl, rfl, ?_, fun m h1 h2 => ?_, .inl (remove_names_self ..)⟩
      · rw [remove_names_of_ne hne]
        exact Function.update_self ..
      · rw [remove_names_of_ne h1]
        exact Function.update_of_ne h2 _ _

end Disk

end Files
