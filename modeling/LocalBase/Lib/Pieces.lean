import Mathlib.Tactic.Common

/-!
# Streams cut into pieces

A reader of a stream gets it in pieces and keeps the part that is not yet a
whole item. `Splitter.next` takes the first whole item off what is there, and
is stable: what comes later does not change which item is first. That is all it
takes for the items not to depend on the cuts. `drain` takes the items off
until none is whole, and `drain_append` says that to drain a stream is to drain
its beginning and then what was left of it together with the rest. Items that
end with a mark, as lines do, are cut off by `cutAt`.
-/

namespace Pieces

/-- Takes the first item off the front of a stream. -/
structure Splitter (α β : Type*) where
  next : List α → Option (β × List α)
  stable : ∀ {x r : List α} {b : β} (y : List α), next x = some (b, r) →
    next (x ++ y) = some (b, r ++ y)
  shrinks : ∀ {x r : List α} {b : β}, next x = some (b, r) → r.length < x.length

namespace Splitter

variable {α β : Type*} (s : Splitter α β)

/-- The whole items at the front, and what is left. -/
def drain (x : List α) : List β × List α :=
  match _ : s.next x with
  | none => ([], x)
  | some (b, r) => (b :: (drain r).1, (drain r).2)
termination_by x.length
decreasing_by all_goals exact s.shrinks ‹_›

variable {s} {x : List α}

theorem drain_of_none (h : s.next x = none) : s.drain x = ([], x) := by
  rw [drain]
  split
  · rfl
  · next hnext => cases h.symm.trans hnext

theorem drain_of_some {b : β} {r : List α} (h : s.next x = some (b, r)) :
    s.drain x = (b :: (s.drain r).1, (s.drain r).2) := by
  rw [drain]
  split
  · next hnext => cases h.symm.trans hnext
  · next hnext =>
    cases h.symm.trans hnext
    rfl

/-- To drain a stream at once is to drain it in two goes. -/
theorem drain_append (x y : List α) :
    s.drain (x ++ y) =
      ((s.drain x).1 ++ (s.drain ((s.drain x).2 ++ y)).1, (s.drain ((s.drain x).2 ++ y)).2) := by
  induction hn : x.length using Nat.strongRecOn generalizing x with
  | ind n ih =>
    cases hnext : s.next x with
    | none => simp [drain_of_none hnext]
    | some p =>
      obtain ⟨b, r⟩ := p
      rw [drain_of_some (s.stable y hnext), drain_of_some hnext,
        ih r.length (hn ▸ s.shrinks hnext) r rfl]
      rfl

theorem next_drain (x : List α) : s.next (s.drain x).2 = none := by
  induction hn : x.length using Nat.strongRecOn generalizing x with
  | ind n ih =>
    cases hnext : s.next x with
    | none => rwa [drain_of_none hnext]
    | some p =>
      obtain ⟨b, r⟩ := p
      rw [drain_of_some hnext]
      exact ih r.length (hn ▸ s.shrinks hnext) r rfl

end Splitter

variable {α : Type*} {p : α → Bool} {x b r : List α}

/-! ## Items that end with a mark -/

/-- The front of a list with the first `a` that `p` marks, and what is after it. -/
def cut (p : α → Bool) : List α → Option (List α × List α)
  | [] => none
  | a :: x => if p a then some ([a], x) else (cut p x).map fun q => (a :: q.1, q.2)

theorem cut_eq_none : cut p x = none ↔ ∀ a ∈ x, p a = false := by
  induction x with
  | nil => simp [cut]
  | cons a x ih =>
    rw [cut]
    split
    · next ha => simp [ha]
    · next ha => simp [ha, ih]

theorem cut_eq_some : cut p x = some (b, r) ↔
    x = b ++ r ∧ ∃ y a, b = y ++ [a] ∧ (∀ a ∈ y, p a = false) ∧ p a = true := by
  induction x generalizing b with
  | nil =>
    constructor
    · intro h
      cases h
    · rintro ⟨hx, y, a, rfl, -⟩
      simp at hx
  | cons a x ih =>
    rw [cut]
    split
    · next ha =>
      constructor
      · intro h
        cases h
        exact ⟨rfl, [], a, rfl, by simp, ha⟩
      · rintro ⟨hx, y, a', rfl, hy, -⟩
        cases y with
        | nil => simp_all
        | cons c y =>
          obtain ⟨rfl, -⟩ := List.cons.inj hx
          have hc := hy a List.mem_cons_self
          rw [ha] at hc
          cases hc
    · next ha =>
      rw [Option.map_eq_some_iff]
      constructor
      · rintro ⟨⟨b', r'⟩, hcut, heq⟩
        cases heq
        obtain ⟨rfl, y, a', rfl, hy, ha'⟩ := ih.mp hcut
        refine ⟨rfl, a :: y, a', rfl, ?_, ha'⟩
        simpa [ha] using hy
      · rintro ⟨hx, y, a', rfl, hy, ha'⟩
        cases y with
        | nil =>
          obtain ⟨rfl, -⟩ := List.cons.inj hx
          exact absurd ha' ha
        | cons c y =>
          obtain ⟨rfl, hx'⟩ := List.cons.inj hx
          refine ⟨(y ++ [a'], r), ih.mpr ⟨hx', y, a', rfl, ?_, ha'⟩, rfl⟩
          exact fun d hd => hy d (List.mem_cons_of_mem _ hd)

theorem cut_length (h : cut p x = some (b, r)) : b.length ≤ x.length ∧ r.length ≤ x.length := by
  obtain ⟨rfl, -⟩ := cut_eq_some.mp h
  rw [List.length_append]
  omega

/-- The items that end with a mark. -/
def cutAt (p : α → Bool) : Splitter α (List α) where
  next := cut p
  stable := by
    intro x r b y h
    obtain ⟨rfl, hb⟩ := cut_eq_some.mp h
    exact cut_eq_some.mpr ⟨List.append_assoc .., hb⟩
  shrinks := by
    intro x r b h
    obtain ⟨rfl, y, a, rfl, -⟩ := cut_eq_some.mp h
    simp
    omega

theorem mem_drain_cutAt (h : b ∈ ((cutAt p).drain x).1) :
    ∃ y a, b = y ++ [a] ∧ (∀ a ∈ y, p a = false) ∧ p a = true := by
  induction hn : x.length using Nat.strongRecOn generalizing x with
  | ind n ih =>
    cases hcut : (cutAt p).next x with
    | none =>
      rw [Splitter.drain_of_none hcut] at h
      cases h
    | some q =>
      rw [Splitter.drain_of_some (b := q.1) (r := q.2) hcut] at h
      rcases List.mem_cons.mp h with rfl | h
      · exact (cut_eq_some.mp hcut).2
      · exact ih q.2.length (hn ▸ (cutAt p).shrinks hcut) h rfl

theorem drain_cutAt_flatten (x : List α) :
    ((cutAt p).drain x).1.flatten ++ ((cutAt p).drain x).2 = x := by
  induction hn : x.length using Nat.strongRecOn generalizing x with
  | ind n ih =>
    cases hcut : (cutAt p).next x with
    | none =>
      rw [Splitter.drain_of_none hcut]
      rfl
    | some q =>
      rw [Splitter.drain_of_some (b := q.1) (r := q.2) hcut]
      have hrest := ih q.2.length (hn ▸ (cutAt p).shrinks hcut) q.2 rfl
      simp only [List.flatten_cons, List.append_assoc, hrest]
      exact (cut_eq_some.mp hcut).1.symm

theorem drain_cutAt_rest (x : List α) : ∀ a ∈ ((cutAt p).drain x).2, p a = false :=
  cut_eq_none.mp ((cutAt p).next_drain x)

end Pieces
