import Mathlib.Data.List.AList
import Mathlib.Tactic.Common

/-!
# Records with a key

A table is a list of records, and `key` reads a key off each. Where no two
records share one, a key finds its record, and what a statement does to that
record leaves the others as they are.
-/

namespace Records

variable {α κ ι : Type*}

/-- No two records of the table have one key. -/
def Keyed (key : α → κ) (rows : List α) : Prop :=
  ∀ a ∈ rows, ∀ b ∈ rows, key a = key b → a = b

theorem find?_of_unique {rows : List α} {p : α → Bool} {a : α} (ha : a ∈ rows) (hp : p a = true)
    (hu : ∀ b ∈ rows, p b = true → b = a) : rows.find? p = some a := by
  cases hf : rows.find? p with
  | none => exact absurd hp (List.find?_eq_none.1 hf a ha)
  | some b => rw [hu b (List.mem_of_find?_eq_some hf) (List.find?_some hf)]

section

variable [DecidableEq κ]

/-- The record with a key. -/
def get (key : α → κ) (rows : List α) (k : κ) : Option α := rows.find? fun a => key a = k

/-- A statement on the record with a key. -/
def modify (key : α → κ) (rows : List α) (k : κ) (f : α → α) : List α :=
  rows.map fun a => if key a = k then f a else a

variable {key : α → κ} {rows : List α} {k : κ} {a b : α} {f : α → α}

theorem get_mem (h : get key rows k = some a) : a ∈ rows ∧ key a = k := by
  have hk := List.find?_some h
  exact ⟨List.mem_of_find?_eq_some h, of_decide_eq_true hk⟩

theorem get_eq_none : get key rows k = none ↔ ∀ a ∈ rows, key a ≠ k := by
  unfold get
  simp [List.find?_eq_none]

theorem get_eq_some (h : Keyed key rows) : get key rows k = some a ↔ a ∈ rows ∧ key a = k := by
  constructor
  · exact get_mem
  · rintro ⟨ha, hk⟩
    refine find?_of_unique ha (decide_eq_true hk) fun b hb hkb => ?_
    exact h b hb a ha ((of_decide_eq_true hkb).trans hk.symm)

theorem mem_modify : b ∈ modify key rows k f ↔
    (∃ a ∈ rows, key a = k ∧ f a = b) ∨ (b ∈ rows ∧ key b ≠ k) := by
  unfold modify
  rw [List.mem_map]
  constructor
  · rintro ⟨a, ha, hb⟩
    split at hb
    · next hk => exact .inl ⟨a, ha, hk, hb⟩
    · next hk => exact .inr ⟨hb ▸ ha, hb ▸ hk⟩
  · rintro (⟨a, ha, hk, hb⟩ | ⟨hb, hk⟩)
    · exact ⟨a, ha, by rw [if_pos hk, hb]⟩
    · exact ⟨b, hb, if_neg hk⟩

theorem mem_modify_of_mem (h : Keyed key rows) (ha : a ∈ rows) (hk : key a = k) :
    b ∈ modify key rows k f ↔ b = f a ∨ (b ∈ rows ∧ key b ≠ k) := by
  rw [mem_modify]
  refine or_congr_left ⟨?_, fun hb => ⟨a, ha, hk, hb.symm⟩⟩
  rintro ⟨c, hc, hkc, hb⟩
  rw [← hb, h c hc a ha (hkc.trans hk.symm)]

theorem find?_modify {p : α → Bool} (hp : ∀ a, p (f a) = p a) :
    (modify key rows k f).find? p = (rows.find? p).map fun a => if key a = k then f a else a := by
  unfold modify
  rw [List.find?_map]
  have hsame : (p ∘ fun a => if key a = k then f a else a) = p := by
    funext a
    show p (if key a = k then f a else a) = p a
    split
    · exact hp a
    · rfl
  rw [hsame]

/-- Every key that the statement leaves as it was still is one. -/
theorem Keyed.modify {key' : α → ι} (h : Keyed key' rows) (hf : ∀ a, key' (f a) = key' a) :
    Keyed key' (modify key rows k f) := by
  have hold : ∀ c ∈ Records.modify key rows k f, ∃ a ∈ rows, key' c = key' a ∧
      c = if key a = k then f a else a := by
    intro c hc
    obtain ⟨a, ha, rfl⟩ := List.mem_map.1 hc
    refine ⟨a, ha, ?_, rfl⟩
    split
    · exact hf a
    · rfl
  intro b hb c hc hbc
  obtain ⟨x, hx, hxb, rfl⟩ := hold b hb
  obtain ⟨y, hy, hyc, rfl⟩ := hold c hc
  rw [h x hx y hy (hxb.symm.trans (hbc.trans hyc))]

end

theorem Keyed.append {key : α → κ} {rows : List α} {b : α} (h : Keyed key rows)
    (hfresh : ∀ a ∈ rows, key a ≠ key b) : Keyed key (rows ++ [b]) := by
  intro x hx y hy hxy
  rw [List.mem_append, List.mem_singleton] at hx hy
  obtain hx | rfl := hx
  · obtain hy | rfl := hy
    · exact h x hx y hy hxy
    · exact absurd hxy (hfresh x hx)
  · obtain hy | rfl := hy
    · exact absurd hxy.symm (hfresh y hy)
    · rfl

end Records

/-!
## Walking a table

A loop over the rows of a table, in any order, where each round settles the row
it is at and leaves every other row alone. The loop may stop with an error.
-/

namespace Rows

variable {ι κ σ ε : Type*}

/-- Each round settles its own row, and only that one. -/
structure Settles (row : σ → ι → Option κ) (settle : ι → κ → Option κ)
    (round : σ → (Σ _ : ι, κ) → Except ε σ) : Prop where
  own : ∀ {s s' : σ} {r : Σ _ : ι, κ}, round s r = .ok s' → row s r.1 = some r.2 →
    row s' r.1 = settle r.1 r.2
  other : ∀ {s s' : σ} {r : Σ _ : ι, κ} {i : ι}, round s r = .ok s' → i ≠ r.1 →
    row s' i = row s i

variable {row : σ → ι → Option κ} {settle : ι → κ → Option κ}
  {round : σ → (Σ _ : ι, κ) → Except ε σ}

/-- A loop that goes on has been through its first round. -/
theorem foldlM_cons_ok {r : Σ _ : ι, κ} {rs : List (Σ _ : ι, κ)} {s s' : σ}
    (h : (r :: rs).foldlM round s = .ok s') :
    ∃ m, round s r = .ok m ∧ rs.foldlM round m = .ok s' := by
  rw [List.foldlM_cons] at h
  cases hr : round s r with
  | error e => rw [hr] at h; exact absurd h (by simp [bind, Except.bind])
  | ok m => rw [hr] at h; exact ⟨m, rfl, h⟩

theorem Settles.untouched (hs : Settles row settle round) {rs : List (Σ _ : ι, κ)} {s s' : σ}
    (h : rs.foldlM round s = .ok s') {i : ι} (hi : i ∉ rs.keys) : row s' i = row s i := by
  induction rs generalizing s with
  | nil =>
    rw [List.foldlM_nil] at h
    injection h with h
    rw [h]
  | cons r rs ih =>
    obtain ⟨m, hm, h⟩ := foldlM_cons_ok h
    rw [List.keys_cons, List.mem_cons, not_or] at hi
    rw [ih h hi.2]
    exact hs.other hm hi.1

theorem Settles.walked (hs : Settles row settle round) {rs : List (Σ _ : ι, κ)} {s s' : σ}
    (h : rs.foldlM round s = .ok s') (hd : rs.NodupKeys)
    (hrow : ∀ r ∈ rs, row s r.1 = some r.2) {r : Σ _ : ι, κ} (hr : r ∈ rs) :
    row s' r.1 = settle r.1 r.2 := by
  induction rs generalizing s with
  | nil => exact absurd hr (by simp)
  | cons q rs ih =>
    obtain ⟨m, hm, h⟩ := foldlM_cons_ok h
    rw [List.nodupKeys_cons] at hd
    rcases List.mem_cons.1 hr with he | hr
    · rw [he, hs.untouched h hd.1]
      exact hs.own hm (hrow q (by simp))
    · refine ih h hd.2 (fun p hp => ?_) hr
      -- The rows still to come are as the loop found them.
      have hne : p.1 ≠ q.1 := fun he => hd.1 (he ▸ List.mem_keys_of_mem hp)
      rw [hs.other hm hne]
      exact hrow p (by simp [hp])

/-! ### Some of the rows -/

/-- The rows that `p` picks. -/
def keep [DecidableEq ι] (p : (Σ _ : ι, κ) → Bool) (m : AList fun _ : ι => κ) :
    AList fun _ : ι => κ where
  entries := m.entries.filter p
  nodupKeys := m.nodupKeys.sublist List.filter_sublist

theorem lookup_keep [DecidableEq ι] (p : (Σ _ : ι, κ) → Bool) (m : AList fun _ : ι => κ)
    (i : ι) : (keep p m).lookup i = (m.lookup i).filter fun x => p ⟨i, x⟩ := by
  have hmem : ∀ x, x ∈ (keep p m).lookup i ↔ x ∈ m.lookup i ∧ p ⟨i, x⟩ = true := fun x => by
    rw [AList.mem_lookup_iff, AList.mem_lookup_iff]
    exact List.mem_filter
  ext x
  rw [Option.filter_eq_some_iff]
  exact hmem x

end Rows
