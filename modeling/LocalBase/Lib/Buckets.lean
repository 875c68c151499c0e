import Mathlib.Algebra.BigOperators.Group.Finset.Piecewise
import LocalBase.Lib.Records

/-!
# Amounts in buckets

A finite map to amounts that add up: a bucket that is not there is empty, and
what is poured into a bucket adds to what it holds. A program that counts keeps
such maps and moves what they hold from one to another, and what matters of a map
is only the amount in each of its buckets. `pour` is the loop that fills them,
and `figure` a sum that a program makes over all of them.
-/

namespace Buckets

variable {κ α M N : Type*} [DecidableEq κ] [AddCommMonoid M] [AddCommMonoid N]

/-- What is in a bucket. -/
def amount (m : AList fun _ : κ => M) (k : κ) : M := (m.lookup k).getD 0

/-- The loop that adds `g a` to the bucket of every `a`. -/
def pour (f : α → κ) (g : α → M) (m : AList fun _ : κ => M) (l : List α) :
    AList fun _ : κ => M :=
  l.foldl (fun m a => m.insert (f a) (amount m (f a) + g a)) m

/-- The part of a list that goes in one bucket. -/
def share (f : α → κ) (g : α → M) (l : List α) (k : κ) : M :=
  ((l.filter fun a => f a = k).map g).sum

theorem amount_of_lookup {m : AList fun _ : κ => M} {k : κ} {x : M}
    (h : m.lookup k = some x) : amount m k = x := by
  rw [amount, h, Option.getD_some]

theorem amount_of_notMem {m : AList fun _ : κ => M} {k : κ} (h : k ∉ m) : amount m k = 0 := by
  rw [amount, AList.lookup_eq_none.2 h, Option.getD_none]

@[simp] theorem amount_empty (k : κ) : amount (∅ : AList fun _ : κ => M) k = 0 := rfl

theorem amount_insert (m : AList fun _ : κ => M) (k j : κ) (x : M) :
    amount (m.insert k x) j = if j = k then x else amount m j := by
  unfold amount
  split
  · next h => rw [h, AList.lookup_insert, Option.getD_some]
  · next h => rw [AList.lookup_insert_ne h]

@[simp] theorem share_nil (f : α → κ) (g : α → M) (k : κ) : share f g [] k = 0 := rfl

theorem share_cons (f : α → κ) (g : α → M) (a : α) (l : List α) (k : κ) :
    share f g (a :: l) k = (if f a = k then g a else 0) + share f g l k := by
  unfold share
  rw [List.filter_cons]
  split
  · next h =>
    rw [if_pos (by simpa using h), List.map_cons, List.sum_cons]
  · next h =>
    rw [if_neg (by simpa using h), zero_add]

theorem share_append (f : α → κ) (g : α → M) (l l' : List α) (k : κ) :
    share f g (l ++ l') k = share f g l k + share f g l' k := by
  unfold share
  rw [List.filter_append, List.map_append, List.sum_append]

theorem amount_pour (f : α → κ) (g : α → M) (m : AList fun _ : κ => M) (l : List α) (k : κ) :
    amount (pour f g m l) k = amount m k + share f g l k := by
  unfold pour
  induction l generalizing m with
  | nil => rw [List.foldl_nil, share_nil, add_zero]
  | cons a l ih =>
    rw [List.foldl_cons, ih, amount_insert, share_cons, ← add_assoc]
    split
    · next h => rw [if_pos h.symm, h]
    · next h => rw [if_neg (Ne.symm h), add_zero]

theorem share_entries (m : AList fun _ : κ => M) (k : κ) :
    share Sigma.fst Sigma.snd m.entries k = amount m k := by
  induction m using AList.insertRec with
  | H0 => rfl
  | IH a b l h ih =>
    rw [AList.entries_insert_of_notMem h, share_cons, amount_insert, ih]
    by_cases hk : k = a
    · rw [if_pos hk.symm, if_pos hk, hk, amount_of_notMem h]
      exact add_zero b
    · rw [if_neg (Ne.symm hk), if_neg hk, zero_add]

/-- Pouring one map into another adds them, bucket by bucket. -/
theorem amount_pour_entries (m rows : AList fun _ : κ => M) (k : κ) :
    amount (pour Sigma.fst Sigma.snd m rows.entries) k = amount m k + amount rows k := by
  rw [amount_pour, share_entries]

/-! ## Some of the buckets -/

/-- The buckets that `p` picks. -/
def select (p : κ → Bool) (m : AList fun _ : κ => M) : AList fun _ : κ => M :=
  Rows.keep (fun r => p r.1) m

omit [AddCommMonoid M] in
theorem lookup_select (p : κ → Bool) (m : AList fun _ : κ => M) (k : κ) :
    (select p m).lookup k = if p k then m.lookup k else none := by
  unfold select
  rw [Rows.lookup_keep]
  cases m.lookup k with
  | none => rw [Option.filter_none, ite_self]
  | some x => exact Option.filter_some

theorem amount_select (p : κ → Bool) (m : AList fun _ : κ => M) (k : κ) :
    amount (select p m) k = if p k then amount m k else 0 := by
  unfold amount
  rw [lookup_select]
  split <;> rfl

/-! ## Sums over all buckets -/

/-- A sum over the buckets of a map. -/
def figure (φ : κ → M →+ N) (m : AList fun _ : κ => M) : N :=
  (m.entries.map fun r => φ r.1 r.2).sum

theorem figure_eq_sum (φ : κ → M →+ N) (m : AList fun _ : κ => M) {s : Finset κ}
    (hs : m.keys.toFinset ⊆ s) : figure φ m = ∑ k ∈ s, φ k (amount m k) := by
  induction m using AList.insertRec with
  | H0 =>
    symm
    refine Finset.sum_eq_zero fun k _ => ?_
    rw [amount_empty, map_zero]
  | IH a b l h ih =>
    have ha : a ∈ s := hs (by rw [AList.keys_insert]; simp)
    have hl : l.keys.toFinset ⊆ s := fun k hk => hs (by
      rw [AList.keys_insert, List.toFinset_cons, Finset.mem_insert]
      by_cases he : k = a
      · exact .inl he
      · exact .inr (List.mem_toFinset.2
          ((List.mem_erase_of_ne he).2 (List.mem_toFinset.1 hk))))
    unfold figure at ih ⊢
    rw [AList.entries_insert_of_notMem h, List.map_cons, List.sum_cons, ih hl,
      ← Finset.add_sum_erase s _ ha, ← Finset.add_sum_erase s _ ha, amount_of_notMem h,
      map_zero, zero_add, amount_insert, if_pos rfl]
    congr 1
    refine Finset.sum_congr rfl fun k hk => ?_
    rw [amount_insert, if_neg (Finset.ne_of_mem_erase hk)]

theorem sum_share (φ : κ → M →+ N) (f : α → κ) (g : α → M) (l : List α) {s : Finset κ}
    (hs : ∀ a ∈ l, f a ∈ s) :
    ∑ k ∈ s, φ k (share f g l k) = (l.map fun a => φ (f a) (g a)).sum := by
  induction l with
  | nil =>
    refine Finset.sum_eq_zero fun k _ => ?_
    rw [share_nil, map_zero]
  | cons a l ih =>
    have hstep : ∀ k ∈ s, φ k (share f g (a :: l) k) =
        (if f a = k then φ (f a) (g a) else 0) + φ k (share f g l k) := by
      intro k _
      rw [share_cons, map_add]
      split
      · next h => rw [h]
      · rw [map_zero]
    rw [Finset.sum_congr rfl hstep, Finset.sum_add_distrib, Finset.sum_ite_eq,
      if_pos (hs a (by simp)), ih fun b hb => hs b (by simp [hb]), List.map_cons,
      List.sum_cons]

/-- A sum over a map that holds what another does and the shares of a list is the
sum over the other and over the list. Buckets that `φ` does not look at may hold
anything. -/
theorem figure_of_amount (φ : κ → M →+ N) (f : α → κ) (g : α → M)
    {m b : AList fun _ : κ => M} {l : List α}
    (h : ∀ k, φ k (amount m k) = φ k (amount b k) + φ k (share f g l k)) :
    figure φ m = figure φ b + (l.map fun a => φ (f a) (g a)).sum := by
  have hm : m.keys.toFinset ⊆ m.keys.toFinset ∪ b.keys.toFinset ∪ (l.map f).toFinset :=
    fun k hk => by simp [Finset.mem_union, hk]
  have hb : b.keys.toFinset ⊆ m.keys.toFinset ∪ b.keys.toFinset ∪ (l.map f).toFinset :=
    fun k hk => by simp [Finset.mem_union, hk]
  have hl : ∀ a ∈ l, f a ∈ m.keys.toFinset ∪ b.keys.toFinset ∪ (l.map f).toFinset :=
    fun a ha => Finset.mem_union_right _
      (List.mem_toFinset.2 (List.mem_map_of_mem ha))
  rw [figure_eq_sum φ m hm, figure_eq_sum φ b hb, ← sum_share φ f g l hl,
    ← Finset.sum_add_distrib]
  exact Finset.sum_congr rfl fun k _ => h k

end Buckets
