import LocalBase.Hub.Collate
import Mathlib.Data.List.Sort
import Mathlib.Data.List.Perm.Subperm

/-!
# The parts of a split model

A model that is too large for one file is split into parts, which are named by number.
`shardsOf` takes the files that are named like parts of the same model and counts them.
Names that differ in the case of their last letters alone are parts of the same number,
so the count can be right where a part is missing.
-/

namespace LocalBase.Hub

/-- A repository file stored in LFS. -/
structure File where
  path : List Char
  size : Int
  sha256 : String
deriving DecidableEq

structure Split where
  front : List Char
  number : List Char
  total : List Char
deriving DecidableEq

def spells (lower : List Char) (cs : List Char) : Bool := cs.map Char.toLower = lower

/-- `-(\d{5})-of-(\d{5})\.gguf$`: twenty characters at the end of the name. -/
def shardRe (path : List Char) : Option Split :=
  let tail := path.drop (path.length - 20)
  let number := (tail.drop 1).take 5
  let total := (tail.drop 10).take 5
  if tail.length = 20 ∧ tail.head? = some '-' ∧ number.all Char.isDigit ∧
      spells ['-', 'o', 'f', '-'] ((tail.drop 6).take 4) ∧ total.all Char.isDigit ∧
      spells ['.', 'g', 'g', 'u', 'f'] (tail.drop 15) then
    some ⟨path.take (path.length - 20), number, total⟩
  else none

/-- The file is named like a part of the same model. -/
def sameSplit (s : Split) (f : File) : Bool :=
  match shardRe f.path with
  | some sm => sm.total = s.total ∧ sm.front = s.front
  | none => false

/-- `sort.SliceStable`, by name. -/
def byName (u : Unicode) (files : List File) : List File :=
  files.insertionSort fun a b => ¬ compare u b.path a.path < 0

def shardsOf (u : Unicode) (files : List File) (first : File) : Except String (List File) :=
  match shardRe first.path with
  | none => .ok [first]
  | some s =>
    let shards := byName u (files.filter (sameSplit s))
    let n := decimal s.total
    if shards.length ≠ n then
      .error (String.ofList first.path ++ " is split into " ++ toString n ++ " parts but " ++
        toString shards.length ++ " are in the repository.")
    else .ok shards

/-! ## Parts -/

/-- Whose part a file is, and which. -/
def part (f : File) : Option (List Char × Nat × List Char) :=
  (shardRe f.path).map fun s => (s.front, decimal s.number, s.total)

/-- One file for each part, in order. -/
def Whole (s : Split) (shards : List File) : Prop :=
  shards.map part =
    (List.range (decimal s.total)).map fun i => some (s.front, i + 1, s.total)

def numberOf (f : File) : Nat := (shardRe f.path).elim 0 fun s => decimal s.number

/-- No number is there twice or is out of range. -/
def Sound (s : Split) (shards : List File) : Prop :=
  (shards.map numberOf).Nodup ∧ ∀ f ∈ shards, 1 ≤ numberOf f ∧ numberOf f ≤ decimal s.total

section
variable {u : Unicode} {s : Split} {a b f : File} {files shards : List File}

theorem sameSplit_iff : sameSplit s f ↔
    ∃ sm, shardRe f.path = some sm ∧ sm.total = s.total ∧ sm.front = s.front := by
  unfold sameSplit
  cases h : shardRe f.path with
  | none => simp
  | some sm => simp

theorem path_eq {path : List Char} (h : shardRe path = some s) :
    ∃ rest, path = s.front ++ '-' :: (s.number ++ rest) ∧ s.number.all Char.isDigit ∧
      s.number.length = 5 := by
  unfold shardRe at h
  dsimp only at h
  split at h
  · next hmatch =>
    obtain ⟨hlength, hdash, hdigits, _⟩ := hmatch
    cases h
    set tail := path.drop (path.length - 20) with htail
    refine ⟨tail.drop 6, ?_, hdigits, ?_⟩
    · obtain ⟨c, rest, hcons⟩ := List.exists_cons_of_length_pos (l := tail) (by omega)
      rw [hcons, List.head?_cons] at hdash
      cases hdash
      have hrest : (tail.drop 1).take 5 ++ tail.drop 6 = rest := by
        rw [hcons]
        exact List.take_append_drop 5 rest
      rw [hrest, ← hcons, htail, List.take_append_drop]
    · rw [List.length_take, List.length_drop]
      omega
  · cases h

theorem compare_lt (ha : sameSplit s a) (hb : sameSplit s b) (h : numberOf a < numberOf b) :
    compare u a.path b.path < 0 := by
  obtain ⟨sa, hsa, _, hfronta⟩ := sameSplit_iff.1 ha
  obtain ⟨sb, hsb, _, hfrontb⟩ := sameSplit_iff.1 hb
  rw [numberOf, numberOf, hsa, hsb] at h
  obtain ⟨x, hx, hdigitsa, hlengtha⟩ := path_eq hsa
  obtain ⟨y, hy, hdigitsb, hlengthb⟩ := path_eq hsb
  have hprimary : compareBy (fun r => (weight u r).1) a.path b.path < 0 := by
    rw [hx, hy, hfronta, hfrontb, compareBy_append, compareBy, if_neg (not_not.2 rfl)]
    exact compareBy_decimal u x y hdigitsa hdigitsb (hlengtha.trans hlengthb.symm) h
  unfold compare
  rw [if_pos hprimary.ne]
  exact hprimary

theorem numbers_byName (hnodup : (shards.map numberOf).Nodup)
    (hs : ∀ f ∈ shards, sameSplit s f) :
    (byName u shards).map numberOf = (shards.map numberOf).insertionSort (· ≤ ·) := by
  refine List.map_insertionSort _ _ numberOf shards fun a ha b hb => ?_
  rcases lt_trichotomy (numberOf a) (numberOf b) with h | h | h
  · have hlt := compare_lt (u := u) (hs a ha) (hs b hb) h
    refine iff_of_true ?_ h.le
    rw [compare_swap]
    omega
  · obtain rfl := List.inj_on_of_nodup_map hnodup ha hb h
    rw [compare_self]
    exact iff_of_true (lt_irrefl _) le_rfl
  · exact iff_of_false (not_not.2 (compare_lt (hs b hb) (hs a ha) h)) (not_le.2 h)

theorem whole_iff (hlength : shards.length = decimal s.total)
    (hs : ∀ f ∈ shards, sameSplit s f) :
    Whole s (byName u shards) ↔ Sound s shards := by
  have hperm : (byName u shards).Perm shards := List.perm_insertionSort _ shards
  have hpart : ∀ f ∈ byName u shards, part f = some (s.front, numberOf f, s.total) := fun f hf => by
    obtain ⟨sm, hsm, htotal, hfront⟩ := sameSplit_iff.1 (hs f (hperm.mem_iff.1 hf))
    rw [part, numberOf, hsm, ← htotal, ← hfront]
    rfl
  -- The front and the total are the same for all of them, so only the numbers say which they are.
  have hwhole : Whole s (byName u shards) ↔
      (byName u shards).map numberOf = (List.range (decimal s.total)).map (· + 1) := by
    have hparts : (byName u shards).map part =
        ((byName u shards).map numberOf).map fun k => some (s.front, k, s.total) := by
      rw [List.map_map]
      exact List.map_congr_left hpart
    have hrange : ((List.range (decimal s.total)).map fun i => some (s.front, i + 1, s.total)) =
        ((List.range (decimal s.total)).map (· + 1)).map fun k => some (s.front, k, s.total) := by
      rw [List.map_map]
      rfl
    rw [Whole, hparts, hrange]
    refine (List.map_injective_iff.2 fun k k' h => ?_).eq_iff
    cases h
    rfl
  have hnumbers : (shards.map numberOf).Perm ((byName u shards).map numberOf) := hperm.symm.map _
  rw [hwhole]
  constructor
  · intro h
    rw [h] at hnumbers
    refine ⟨hnumbers.nodup_iff.2 (List.nodup_range.map (add_left_injective 1)), fun f hf => ?_⟩
    have hmem := hnumbers.mem_iff.1 (List.mem_map_of_mem hf)
    obtain ⟨i, hi, heq⟩ := List.mem_map.1 hmem
    rw [List.mem_range] at hi
    omega
  · intro h
    rw [numbers_byName h.1 hs]
    have hsub : shards.map numberOf ⊆ (List.range (decimal s.total)).map (· + 1) := by
      intro k hk
      obtain ⟨f, hf, rfl⟩ := List.mem_map.1 hk
      obtain ⟨hlow, hhigh⟩ := h.2 f hf
      exact List.mem_map.2 ⟨numberOf f - 1, List.mem_range.2 (by omega), by omega⟩
    have hall : (shards.map numberOf).Perm ((List.range (decimal s.total)).map (· + 1)) := by
      refine (List.subperm_of_subset h.1 hsub).perm_of_length_le ?_
      rw [List.length_map, List.length_map, List.length_range, hlength]
    refine (List.Perm.eq_of_pairwise' (List.pairwise_insertionSort _ _) ?_
      ((List.perm_insertionSort _ _).trans hall))
    exact List.pairwise_lt_range.map (· + 1) fun i j hij => Nat.succ_le_succ hij.le

/-- The parts of a split model that are taken are all of them, once each and in order,
exactly when no two of the files that are named so have the same number and none is out
of range, if there are as many as there should be. -/
theorem shardsOf_whole_iff (u : Unicode) (files : List File) {first : File} {s : Split}
    (hfirst : shardRe first.path = some s) :
    (∀ shards, shardsOf u files first = .ok shards → Whole s shards) ↔
      ((files.filter (sameSplit s)).length = decimal s.total →
        Sound s (files.filter (sameSplit s))) := by
  have hs : ∀ f ∈ files.filter (sameSplit s), sameSplit s f := fun f hf =>
    (List.mem_filter.1 hf).2
  have hlength : (byName u (files.filter (sameSplit s))).length =
      (files.filter (sameSplit s)).length := List.length_insertionSort _ _
  have hshards : ∀ shards, shardsOf u files first = .ok shards ↔
      (files.filter (sameSplit s)).length = decimal s.total ∧
        shards = byName u (files.filter (sameSplit s)) := fun shards => by
    unfold shardsOf
    rw [hfirst]
    dsimp only
    rw [hlength]
    split_ifs with hcount
    · simp [hcount]
    · rw [Except.ok.injEq, and_iff_right (not_not.1 hcount)]
      exact eq_comm
  constructor
  · intro h hcount
    exact (whole_iff hcount hs).1 (h _ ((hshards _).2 ⟨hcount, rfl⟩))
  · intro h shards hok
    obtain ⟨hcount, rfl⟩ := (hshards shards).1 hok
    exact (whole_iff hcount hs).2 (h hcount)

end

def asciiOnly : Unicode := ⟨Char.isAlpha, Char.isDigit, Char.toLower⟩

def named (path : String) : File := ⟨path.toList, 1, ""⟩

/-- What is found of a model whose second part is there, and of one whose first part is there
twice. -/
theorem shardsOf_named :
    shardsOf asciiOnly [named "m-00002-of-00002.gguf", named "m-00001-of-00002.GGUF"]
        (named "m-00001-of-00002.GGUF") =
        .ok [named "m-00001-of-00002.GGUF", named "m-00002-of-00002.gguf"] ∧
      shardsOf asciiOnly [named "m-00001-of-00002.gguf", named "m-00001-of-00002.GGUF"]
        (named "m-00001-of-00002.gguf") =
        .ok [named "m-00001-of-00002.gguf", named "m-00001-of-00002.GGUF"] := by
  decide +kernel

/-- The second part is there. -/
theorem two_parts :
    Whole ⟨['m'], "00001".toList, "00002".toList⟩
      [named "m-00001-of-00002.GGUF", named "m-00002-of-00002.gguf"] := by
  refine (shardsOf_whole_iff asciiOnly _ rfl).2 (fun _ => ?_) _ shardsOf_named.1
  unfold Sound
  decide

/-- The first part is there twice, and the second is not there. -/
theorem first_twice : ¬ ∀ (u : Unicode) (files : List File) (first : File) (s : Split),
    (files.map File.path).Nodup → shardRe first.path = some s → decimal s.number = 1 →
      ∀ shards, shardsOf u files first = .ok shards → Whole s shards := by
  intro h
  have hwhole := h asciiOnly _ _ ⟨['m'], "00001".toList, "00002".toList⟩ (by decide) rfl
    (by decide) _ shardsOf_named.2
  revert hwhole
  unfold Whole
  decide

end LocalBase.Hub
