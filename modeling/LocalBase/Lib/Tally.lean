import Mathlib.Algebra.BigOperators.Group.Finset.Basic
import Mathlib.Algebra.Order.BigOperators.Group.List
import Mathlib.Algebra.Order.Group.Int
import Mathlib.Algebra.Ring.Int.Defs
import Mathlib.Data.Finset.Card
import Mathlib.Data.Finset.Insert
import Mathlib.Data.List.AList
import Mathlib.Logic.Function.Basic

/-!
# Totals over finite maps

A ledger is a finite map and what it is asked for is a sum over its entries.
`total f s` is that sum for a figure `f` read off each entry, and the lemmas
say how it moves when an entry is added, dropped or rewritten, and how two
totals over the same map compare. The accumulator loops a program computes
such a sum with are related to it once, in `foldl_total`. Where the parties are
numbered and each has a state of its own, the sum is over a finite set of
them, and `sum_update` says how it moves with one of them.
-/

namespace Tally

variable {α β : Type*}

/-- The sum of a figure over the entries of a finite map. -/
def total (f : α → β → Int) (s : AList fun _ : α => β) : Int :=
  (s.entries.map fun e => f e.1 e.2).sum

@[simp] theorem total_empty (f : α → β → Int) :
    total f (∅ : AList fun _ : α => β) = 0 := rfl

theorem total_add (f g : α → β → Int) (s : AList fun _ : α => β) :
    total (fun a b => f a b + g a b) s = total f s + total g s :=
  List.sum_map_add

section Lookup

variable [DecidableEq α] {s : AList fun _ : α => β} {b : β} {a : α}

theorem mem_entries {e : Sigma fun _ : α => β} :
    e ∈ s.entries ↔ s.lookup e.1 = some e.2 :=
  (AList.mem_lookup_iff (s := s)).symm

/-- Two figures compare when they compare on every entry. -/
theorem total_le_total {f g : α → β → Int} (h : ∀ a b, s.lookup a = some b → f a b ≤ g a b) :
    total f s ≤ total g s :=
  List.sum_le_sum fun e he => h e.1 e.2 (mem_entries.mp he)

theorem total_congr {f g : α → β → Int} (h : ∀ a b, s.lookup a = some b → f a b = g a b) :
    total f s = total g s :=
  Int.le_antisymm (total_le_total fun a b hab => Int.le_of_eq (h a b hab))
    (total_le_total fun a b hab => Int.le_of_eq (h a b hab).symm)

theorem total_insert (f : α → β → Int) (s : AList fun _ : α => β) (a : α)
    (b : β) : total f (s.insert a b) = f a b + total f (s.erase a) := by
  rw [total, AList.entries_insert, List.map_cons, List.sum_cons]
  rfl

theorem total_insert_of_notMem (f : α → β → Int) (h : a ∉ s) :
    total f (s.insert a b) = f a b + total f s := by
  rw [total, AList.entries_insert_of_notMem h, List.map_cons, List.sum_cons,
    total]

/-- A held entry splits the entry list around itself, and dropping it joins
the two sides. -/
theorem entries_split (h : s.lookup a = some b) :
    ∃ l₁ l₂, a ∉ l₁.keys ∧ s.entries = l₁ ++ ⟨a, b⟩ :: l₂ ∧
      (s.erase a).entries = l₁ ++ l₂ := by
  have hmem : a ∈ s.entries.keys :=
    AList.mem_keys.mp (AList.lookup_isSome.mp (by rw [h]; rfl))
  obtain ⟨b', l₁, l₂, hl₁, hl, he⟩ := List.exists_of_kerase hmem
  have hb : s.lookup a = some b' :=
    AList.mem_lookup_iff.mpr (by rw [hl]; simp)
  rw [h] at hb
  cases hb
  exact ⟨l₁, l₂, hl₁, hl, he⟩

theorem total_erase (f : α → β → Int) (h : s.lookup a = some b) :
    f a b + total f (s.erase a) = total f s := by
  obtain ⟨l₁, l₂, -, hl, he⟩ := entries_split h
  simp only [total, hl, he, List.map_append, List.map_cons, List.sum_append,
    List.sum_cons]
  omega

/-- Dropping a key takes its figure out of the sum, whether it was held or not. -/
theorem total_erase_eq (f : α → β → Int) (s : AList fun _ : α => β) (a : α) :
    total f (s.erase a) = total (fun x b => if x = a then 0 else f x b) s := by
  have hothers : total f (s.erase a) =
      total (fun x b => if x = a then 0 else f x b) (s.erase a) := by
    refine total_congr fun x b hlook => ?_
    by_cases hx : x = a
    · subst hx
      rw [AList.lookup_erase] at hlook
      cases hlook
    · rw [if_neg hx]
  cases hs : s.lookup a with
  | some b =>
    have hsum := total_erase (fun x b => if x = a then 0 else f x b) hs
    rw [if_pos rfl, Int.zero_add] at hsum
    rw [hothers, hsum]
  | none =>
    have hkeep : (s.erase a).entries = s.entries :=
      List.kerase_of_notMem_keys (AList.lookup_eq_none.mp hs)
    rw [hothers, total, total, hkeep]

/-- A map without some of its keys. -/
def without (s : AList fun _ : α => β) (keys : List α) : AList fun _ : α => β :=
  keys.foldl (fun s a => s.erase a) s

theorem total_without (f : α → β → Int) (s : AList fun _ : α => β) (keys : List α) :
    total f (without s keys) = total (fun a b => if a ∈ keys then 0 else f a b) s := by
  induction keys generalizing s with
  | nil => simp [without]
  | cons k keys ih =>
    rw [without, List.foldl_cons, ← without, ih, total_erase_eq]
    refine total_congr fun a b _ => ?_
    by_cases hk : a = k
    · simp [hk]
    · simp [hk]

end Lookup

/-- A loop that adds a figure of each entry to an accumulator computes the total. -/
theorem foldl_total {f : α → β → Int} {g : Int → α → β → Int}
    (h : ∀ acc a b, g acc a b = acc + f a b) (s : AList fun _ : α => β) :
    s.foldl g 0 = total f s := by
  have hloop : ∀ (es : List (Sigma fun _ : α => β)) (acc : Int),
      es.foldl (fun acc e => g acc e.1 e.2) acc = acc + (es.map fun e => f e.1 e.2).sum := by
    intro es
    induction es with
    | nil => intro acc; simp
    | cons e es ih =>
      intro acc
      rw [List.foldl_cons, ih, h, List.map_cons, List.sum_cons, Int.add_assoc]
  rw [AList.foldl, hloop, Int.zero_add, total]

/-- One party moves, and the sum moves by the difference of its figures. -/
theorem sum_update {ι σ : Type*} [DecidableEq ι] {s : Finset ι} {i : ι} (hi : i ∈ s)
    (g : σ → Int) (f : ι → σ) (x : σ) :
    ∑ j ∈ s, g (Function.update f i x j) = ∑ j ∈ s, g (f j) + (g x - g (f i)) := by
  have hrest : ∑ j ∈ s.erase i, g (Function.update f i x j) = ∑ j ∈ s.erase i, g (f j) := by
    refine Finset.sum_congr rfl fun j hj => ?_
    rw [Function.update_of_ne (Finset.ne_of_mem_erase hj)]
  rw [← Finset.add_sum_erase s _ hi, ← Finset.add_sum_erase s (fun j => g (f j)) hi, hrest,
    Function.update_self]
  omega

end Tally

/-!
## How many are in a phase

A counter in shared state usually stands for the parties that are in some
phase: the readers of a lock, the callers inside a section. `Counts f n` says
the counter is honest, that exactly `n` of the parties satisfy `f`, without
asking for the parties to be finitely many. A party moving from one phase to
another moves the counter by the difference, which is the one lemma a proof
about such a counter needs.
-/

namespace Census

variable {ι σ : Type*} {n : Int} {f : ι → Bool}

/-- Exactly `n` parties are in the phase `f`. -/
def Counts (f : ι → Bool) (n : Int) : Prop :=
  ∃ l : Finset ι, (∀ i, i ∈ l ↔ f i = true) ∧ n = l.card

theorem counts_none (h : ∀ i, f i = false) : Counts f 0 :=
  ⟨∅, fun i => by simp [h i], by simp⟩

theorem Counts.nonneg (h : Counts f n) : 0 ≤ n := by
  obtain ⟨l, _, rfl⟩ := h
  exact Int.natCast_nonneg _

theorem Counts.pos_of_mem (h : Counts f n) {i : ι} (hi : f i = true) : 0 < n := by
  obtain ⟨l, hl, rfl⟩ := h
  exact Int.natCast_pos.mpr (Finset.card_pos.mpr ⟨i, (hl i).mpr hi⟩)

theorem Counts.exists_of_ne_zero (h : Counts f n) (hn : n ≠ 0) : ∃ i, f i = true := by
  obtain ⟨l, hl, rfl⟩ := h
  have hcard : 0 < l.card := Nat.pos_of_ne_zero fun h0 => hn (by simp [h0])
  obtain ⟨i, hi⟩ := Finset.card_pos.mp hcard
  exact ⟨i, (hl i).mp hi⟩

theorem Counts.eq_of_le_one (h : Counts f n) (hn : n ≤ 1) {i j : ι} (hi : f i = true)
    (hj : f j = true) : i = j := by
  obtain ⟨l, hl, rfl⟩ := h
  have hcard : l.card ≤ 1 := by omega
  exact Finset.card_le_one.mp hcard i ((hl i).mpr hi) j ((hl j).mpr hj)

theorem Counts.move [DecidableEq ι] {f : σ → Bool} {p : ι → σ} (h : Counts (f ∘ p) n) (i : ι)
    (s : σ) : Counts (f ∘ Function.update p i s)
      (n - (f (p i)).toNat + (f s).toNat) := by
  obtain ⟨l, hl, rfl⟩ := h
  have hne : ∀ j, j ≠ i → (f ∘ Function.update p i s) j = (f ∘ p) j :=
    fun j hj => by simp [Function.update_of_ne hj]
  have hself : (f ∘ Function.update p i s) i = f s := by simp
  -- Without the party first: what is left counts the others.
  have hrest : ((l.erase i).card : Int) = l.card - (f (p i)).toNat := by
    cases hi : f (p i) with
    | false =>
      rw [Finset.erase_eq_of_notMem fun hm => by simpa [hi] using (hl i).mp hm]
      simp
    | true =>
      have hm : i ∈ l := (hl i).mpr hi
      have hpos : 0 < l.card := Finset.card_pos.mpr ⟨i, hm⟩
      rw [Finset.card_erase_of_mem hm, Bool.toNat_true]
      omega
  rw [← hrest]
  cases hs : f s with
  | false =>
    refine ⟨l.erase i, fun j => ?_, by simp⟩
    rw [Finset.mem_erase]
    by_cases hj : j = i
    · subst hj
      simp [hs]
    · rw [hne j hj, hl j]
      simp [hj]
  | true =>
    refine ⟨insert i (l.erase i), fun j => ?_, ?_⟩
    · rw [Finset.mem_insert, Finset.mem_erase]
      by_cases hj : j = i
      · subst hj
        simp [hs]
      · rw [hne j hj, hl j]
        simp [hj]
    · rw [Finset.card_insert_of_notMem (Finset.notMem_erase i l)]
      simp

end Census
