import Mathlib.Data.Bool.AllAny
import LocalBase.Toml.Document

/-!
# Integers

What a TOML integer is, and which tokens the reader of numbers takes for one. It
takes the underscores out before anything else looks at the token, and leaves
signs and leading zeros to `ParseInt`, which minds neither a zero in front nor a
sign after `0x`. So it reads every TOML integer, and more than these.
-/

namespace LocalBase.Toml

/-! ## Integer literals -/

def isDigitOf (base : Nat) (b : UInt8) : Bool := (digit base b).isSome

def underscore : UInt8 := 95

/-- Digits with underscores between some of them, one at a time. -/
inductive Digits (base : Nat) : Bytes → Prop
  | one {b : UInt8} : isDigitOf base b → Digits base [b]
  | digit {b : UInt8} {s : Bytes} : isDigitOf base b → Digits base s → Digits base (b :: s)
  | apart {b : UInt8} {s : Bytes} : isDigitOf base b → Digits base s →
      Digits base (b :: underscore :: s)

def bare (s : Bytes) : Bytes := s.filter (· ≠ 95)

/-- Decimal digits have no zero in front of others. -/
def NoLeadingZero (s : Bytes) : Prop := s = [48] ∨ s.head? ≠ some 48

def bases : List (UInt8 × Nat) := [(120, 16), (111, 8), (98, 2)]

/-- The integer that a literal writes. -/
inductive Literal : Bytes → Int → Prop
  | plain {s : Bytes} {n : Nat} : Digits 10 s → NoLeadingZero s → digits 10 (bare s) = some n →
      Literal s n
  | plus {s : Bytes} {n : Nat} : Digits 10 s → NoLeadingZero s → digits 10 (bare s) = some n →
      Literal (43 :: s) n
  | minus {s : Bytes} {n : Nat} : Digits 10 s → NoLeadingZero s → digits 10 (bare s) = some n →
      Literal (45 :: s) (-n)
  | based {mark : UInt8} {base : Nat} {s : Bytes} {n : Nat} : (mark, base) ∈ bases →
      Digits base s → digits base (bare s) = some n → Literal (48 :: mark :: s) n

def Fits (n : Int) : Prop := -2 ^ 63 ≤ n ∧ n < 2 ^ 63

/-! ## Where underscores, zeros and signs stand -/

/-- Each underscore stands between two digits. -/
def Between (base : Nat) (s : Bytes) : Prop :=
  ∀ l r, s = l ++ underscore :: r →
    (∃ b ∈ l.getLast?, isDigitOf base b) ∧ ∃ b ∈ r.head?, isDigitOf base b

def Based (t : Bytes) : Prop := [48, 120] <+: t ∨ [48, 98] <+: t

instance (t : Bytes) : Decidable (Based t) := inferInstanceAs (Decidable (_ ∨ _))

/-- Underscores between digits, no zero in front of a decimal, and no sign after
the mark of a base. -/
structure Placed (t : Bytes) : Prop where
  underscores : Between (if [48, 120] <+: t then 16 else 10) t
  zero : ¬ Based t → NoLeadingZero (sign t).2
  sign : Based t → (sign (t.drop 2)).2 = t.drop 2

/-! ## What is taken for one -/

/-- The integer that a token is taken for, its underscores taken out. -/
def takenFor (s : Bytes) : Option Int :=
  if [48, 120].isPrefixOf s then parseInt 16 (s.drop 2)
  else if [48, 98].isPrefixOf s then parseInt 2 (s.drop 2)
  else if s.any fun b => b = 46 || b = 101 || b = 69 then none
  else parseInt 10 s

def Ends (tail : Bytes) : Prop :=
  ∀ b ∈ tail.head?, b ∈ ([32, 9, 13, 10, 35, 44, 93, 125] : Bytes)

section Read

variable {b : UInt8} {t tail : Bytes} {n : Int} {line : Nat} {c : Cursor} {base : Nat} {s : Bytes}
  {b : UInt8}

theorem ends_head (h : Ends tail) : tail.takeWhile isNumberByte = [] := by
  have hmarks : ∀ b ∈ ([32, 9, 13, 10, 35, 44, 93, 125] : Bytes), ¬ isNumberByte b :=
    List.all_iff_forall_prop.mp rfl
  cases tail with
  | nil => rfl
  | cons b tail => exact List.takeWhile_cons_of_neg (hmarks b (h b rfl))

theorem token_eq (ht : ∀ b ∈ t, isNumberByte b) (hend : Ends tail) :
    (t ++ tail).takeWhile isNumberByte = t := by
  rw [List.takeWhile_append_of_pos ht, ends_head hend, List.append_nil]

theorem digits_fold {m : Nat} :
    (s.foldl (fun n c => do return base * (← n) + (← digit base c)) (some m)).isSome =
      s.all (isDigitOf base) := by
  induction s generalizing m with
  | nil => rfl
  | cons b s ih =>
    rw [List.foldl_cons, List.all_cons, isDigitOf]
    cases digit base b with
    | none =>
      have hnone (s : Bytes) :
          s.foldl (fun n c => do return base * (← n) + (← digit base c)) none = none := by
        induction s with
        | nil => rfl
        | cons c s ih => exact ih
      exact congrArg Option.isSome (hnone s)
    | some d => exact ih

theorem digits_isSome :
    (digits base s).isSome ↔ s ≠ [] ∧ ∀ b ∈ s, isDigitOf base b := by
  rw [digits]
  split
  · simp [*]
  · rw [digits_fold, List.all_eq_true]
    simp [*]

theorem parseInt_eq_some : parseInt base s = some n ↔
    ∃ m : Nat, digits base (sign s).2 = some m ∧ n = (if (sign s).1 then -(m : Int) else m) ∧
      Fits n := by
  have hparse : parseInt base s = (digits base (sign s).2).bind fun m =>
      if (sign s).1 then if m ≤ 2 ^ 63 then some (-(m : Int)) else none
      else if m < 2 ^ 63 then some (m : Int) else none := rfl
  rw [hparse]
  cases digits base (sign s).2 with
  | none => simp
  | some m =>
    simp only [Option.bind_some, Option.some.injEq, exists_eq_left', Fits]
    split
    · split
      · simp only [Option.some.injEq]
        constructor <;> intro h <;> omega
      · simp only [reduceCtorEq, false_iff]
        omega
    · split
      · simp only [Option.some.injEq]
        constructor <;> intro h <;> omega
      · simp only [reduceCtorEq, false_iff]
        omega

theorem sign_subset (hb : b ∈ s) (h : b ≠ 43 ∧ b ≠ 45) :
    b ∈ (sign s).2 := by
  rw [sign]
  cases s with
  | nil => cases hb
  | cons a s =>
    have htail (ha : a = 43 ∨ a = 45) : b ∈ s := by
      rcases List.mem_cons.mp hb with rfl | hb
      · rcases ha with rfl | rfl
        · exact absurd rfl h.1
        · exact absurd rfl h.2
      · exact hb
    split_ifs with h₁ h₂
    · exact htail (.inr (Option.some.inj h₁))
    · exact htail (.inl (Option.some.inj h₂))
    · exact hb

theorem parseInt_none (hb : b ∈ s) (h : b ≠ 43 ∧ b ≠ 45)
    (hdigit : isDigitOf base b = false) : parseInt base s = none := by
  rw [Option.eq_none_iff_forall_ne_some]
  intro n hn
  obtain ⟨m, hm, -⟩ := parseInt_eq_some.mp hn
  have := (digits_isSome.mp (Option.isSome_of_eq_some hm)).2 b (sign_subset hb h)
  rw [hdigit] at this
  cases this

theorem takenFor_word {w : Bytes} (hw : s.dropWhile (fun b => b = 43 || b = 45) = w) (hb : b ∈ w)
    (hhead : w.head? ≠ some 48) (h : b ≠ 43 ∧ b ≠ 45)
    (hdigit : isDigitOf 10 b = false) : takenFor s = none := by
  have hnot (mark : UInt8) : [48, mark].isPrefixOf s = false := by
    rw [Bool.eq_false_iff]
    intro hpre
    obtain ⟨r, rfl⟩ := List.isPrefixOf_iff_prefix.mp hpre
    exact hhead (hw ▸ rfl)
  have hmem : b ∈ s := (List.dropWhile_suffix _).subset (hw ▸ hb)
  rw [takenFor, hnot, hnot, parseInt_none hmem h hdigit]
  simp

theorem number_int (ht : ∀ b ∈ t, isNumberByte b) (hend : Ends tail) :
    number ⟨t ++ tail, line⟩ = .ok (.int n, c) ↔ takenFor (bare t) = some n ∧ c = ⟨tail, line⟩ := by
  have hnext : (⟨t ++ tail, line⟩ : Cursor).advance t.length = ⟨tail, line⟩ := by
    simp [Cursor.advance]
  have hoctal : [48, 111].isPrefixOf (bare t) = false := by
    rw [Bool.eq_false_iff]
    intro h
    have hmem : 111 ∈ bare t := (List.isPrefixOf_iff_prefix.mp h).subset (by decide)
    exact absurd (ht 111 (List.mem_filter.mp hmem).1) (by decide)
  rw [number]
  dsimp only
  rw [token_eq ht hend, hnext]
  have hclean : t.filter (fun b => decide (b ≠ 95)) = bare t := rfl
  rw [hclean, hoctal, if_neg Bool.false_ne_true]
  by_cases hnil : t = []
  · subst hnil
    exact iff_of_false nofun nofun
  rw [if_neg hnil]
  by_cases hinf : (bare t).dropWhile (fun b => b = 43 || b = 45) = [105, 110, 102]
  · rw [if_pos hinf, takenFor_word hinf List.mem_cons_self (by decide) (by decide) (by decide)]
    exact iff_of_false nofun nofun
  rw [if_neg hinf]
  by_cases hnan : (bare t).dropWhile (fun b => b = 43 || b = 45) = [110, 97, 110]
  · rw [if_pos hnan, takenFor_word hnan List.mem_cons_self (by decide) (by decide) (by decide)]
    exact iff_of_false nofun nofun
  rw [if_neg hnan, takenFor]
  split_ifs
  · cases parseInt 16 ((bare t).drop 2) <;> simp [Cursor.fail, eq_comm]
  · cases parseInt 2 ((bare t).drop 2) <;> simp [Cursor.fail, eq_comm]
  · cases parseFloat (bare t) <;> simp [Cursor.fail]
  · cases parseInt 10 (bare t) <;> simp [Cursor.fail, eq_comm]

/-- Neither a token nor what ends it has one of the bytes that other values
begin with. -/
theorem not_number (h : isNumberByte b ∨ b ∈ ([32, 9, 13, 10, 35, 44, 93, 125] : Bytes)) :
    b ∉ ([34, 39, 91, 123, 116, 108] : Bytes) := by
  have hmarks : ∀ b ∈ ([34, 39, 91, 123, 116, 108] : Bytes), ¬ (isNumberByte b ∨
      b ∈ ([32, 9, 13, 10, 35, 44, 93, 125] : Bytes)) :=
    List.all_iff_forall_prop.mp rfl
  exact fun hb => hmarks b hb h

theorem value_token {f : Nat} (ht : ∀ b ∈ t, isNumberByte b) (hend : Ends tail) :
    value (f + 1) ⟨t ++ tail, line⟩ = number ⟨t ++ tail, line⟩ := by
  have hhead : (⟨t ++ tail, line⟩ : Cursor).peek ∉ ([34, 39, 91, 123, 116, 108] : Bytes) := by
    cases t with
    | cons b t => exact not_number (.inl (ht b List.mem_cons_self))
    | nil =>
      cases tail with
      | nil => exact (by decide : (0 : UInt8) ∉ ([34, 39, 91, 123, 116, 108] : Bytes))
      | cons b tail => exact not_number (.inr (hend b rfl))
  -- Of the two words only `fa` could be begun by a token.
  have htrue : (ascii "true").isPrefixOf (t ++ tail) = false := by
    rw [Bool.eq_false_iff]
    intro h
    obtain ⟨r, hr⟩ := List.isPrefixOf_iff_prefix.mp h
    rw [← hr] at hhead
    exact hhead (by decide : (116 : UInt8) ∈ ([34, 39, 91, 123, 116, 108] : Bytes))
  have hfalse : (ascii "false").isPrefixOf (t ++ tail) = false := by
    rw [Bool.eq_false_iff]
    intro h
    rw [show ascii "false" = [102, 97, 108, 115, 101] from rfl] at h
    obtain ⟨r, hr⟩ := List.isPrefixOf_iff_prefix.mp h
    have hword : (108 : UInt8) ∈ ([34, 39, 91, 123, 116, 108] : Bytes) := by decide
    rcases t with _ | ⟨a, _ | ⟨b, _ | ⟨c, t⟩⟩⟩
    · rw [List.nil_append] at hr
      subst hr
      exact absurd (hend 102 rfl) (by decide)
    · obtain ⟨-, rfl⟩ := List.cons.inj hr
      exact absurd (hend 97 rfl) (by decide)
    · obtain ⟨-, hr⟩ := List.cons.inj hr
      obtain ⟨-, rfl⟩ := List.cons.inj hr
      exact not_number (.inr (hend 108 rfl)) hword
    · obtain ⟨-, hr⟩ := List.cons.inj hr
      obtain ⟨-, hr⟩ := List.cons.inj hr
      obtain ⟨rfl, -⟩ := List.cons.inj hr
      exact not_number (.inl (ht 108
        (List.mem_cons_of_mem _ (List.mem_cons_of_mem _ List.mem_cons_self)))) hword
  rw [value]
  simp only [List.mem_cons, List.not_mem_nil, or_false, not_or] at hhead
  rw [if_neg hhead.1, if_neg hhead.2.1, if_neg hhead.2.2.1, if_neg hhead.2.2.2.1, htrue, hfalse]
  rfl

end Read

section Placed

variable {base base' : Nat} {s t : Bytes} {b : UInt8} {n : Int}

theorem isDigitOf_mono (h : base ≤ base') (hb : isDigitOf base b) : isDigitOf base' b := by
  have hd (m : Nat) : digit m b = (if (if 48 ≤ b.toNat ∧ b.toNat ≤ 57 then b.toNat - 48
      else if 97 ≤ b.toNat ∧ b.toNat ≤ 122 then b.toNat - 87
      else if 65 ≤ b.toNat ∧ b.toNat ≤ 90 then b.toNat - 55 else m) < m then _ else none) := rfl
  rw [isDigitOf, hd, Option.isSome_ite] at hb ⊢
  split_ifs at hb ⊢ <;> omega

theorem not_digit_underscore : isDigitOf base underscore = false := by
  simp [isDigitOf, digit, underscore]

theorem between_cons (hb : b ≠ underscore) (hs : s.head? ≠ some underscore) :
    Between base (b :: s) ↔ Between base s := by
  constructor
  · intro h l r hl
    have hne : l ≠ [] := by
      rintro rfl
      exact hs (hl ▸ rfl)
    have := h (b :: l) r (by rw [hl]; rfl)
    rwa [List.getLast?_cons_of_ne_nil hne] at this
  · intro h l r hl
    cases l with
    | nil => exact absurd (List.cons.inj hl).1 hb
    | cons c l =>
      obtain ⟨rfl, hs'⟩ := List.cons.inj hl
      have hne : l ≠ [] := by
        rintro rfl
        exact hs (hs' ▸ rfl)
      rw [List.getLast?_cons_of_ne_nil hne]
      exact h l r hs'

theorem Digits.head (h : Digits base s) : ∃ b ∈ s.head?, isDigitOf base b := by
  cases h with
  | one hb => exact ⟨_, rfl, hb⟩
  | digit hb _ => exact ⟨_, rfl, hb⟩
  | apart hb _ => exact ⟨_, rfl, hb⟩

theorem ne_underscore (h : isDigitOf base b) : b ≠ underscore := by
  rintro rfl
  rw [not_digit_underscore] at h
  cases h

theorem Digits.head_ne (h : Digits base s) : s.head? ≠ some underscore := by
  obtain ⟨b, hb, hdigit⟩ := h.head
  rw [Option.mem_def.mp hb]
  exact fun heq => ne_underscore hdigit (Option.some.inj heq)

theorem bare_cons (hb : b ≠ underscore) : bare (b :: s) = b :: bare s :=
  List.filter_cons_of_pos (by simpa [underscore] using hb)

theorem bare_underscore : bare (underscore :: s) = bare s := rfl

theorem Digits.bare (h : Digits base s) : bare s ≠ [] ∧ ∀ b ∈ bare s, isDigitOf base b := by
  induction h with
  | one hb =>
    rw [bare_cons (ne_underscore hb)]
    exact ⟨List.cons_ne_nil _ _, List.forall_mem_cons.mpr ⟨hb, nofun⟩⟩
  | digit hb _ ih =>
    rw [bare_cons (ne_underscore hb)]
    exact ⟨List.cons_ne_nil _ _, List.forall_mem_cons.mpr ⟨hb, ih.2⟩⟩
  | apart hb _ ih =>
    rw [bare_cons (ne_underscore hb), bare_underscore]
    exact ⟨List.cons_ne_nil _ _, List.forall_mem_cons.mpr ⟨hb, ih.2⟩⟩

theorem Digits.between (h : Digits base s) : Between base s := by
  induction h with
  | one hb =>
    refine (between_cons (ne_underscore hb) (by simp)).mpr fun l r hl => ?_
    cases l <;> cases hl
  | digit hb hs ih => exact (between_cons (ne_underscore hb) hs.head_ne).mpr ih
  | @apart b s hb hs ih =>
    intro l r hl
    rcases l with _ | ⟨c, _ | ⟨d, l⟩⟩
    · exact absurd (List.cons.inj hl).1 (ne_underscore hb)
    · cases hl
      exact ⟨⟨b, rfl, hb⟩, hs.head⟩
    · simp only [List.cons_append, List.cons.injEq] at hl
      obtain ⟨-, -, hl⟩ := hl
      have hne : l ≠ [] := by
        rintro rfl
        exact hs.head_ne (hl ▸ rfl)
      have := ih l r hl
      rwa [List.getLast?_cons_cons, List.getLast?_cons_of_ne_nil hne]

theorem digits_of_between (hs : Between base' s) (hne : s ≠ [])
    (hd : ∀ b ∈ Toml.bare s, isDigitOf base b) : Digits base s := by
  induction hn : s.length using Nat.strongRecOn generalizing s with
  | ind n ih =>
    obtain ⟨b, s, rfl⟩ := List.exists_cons_of_ne_nil hne
    have hb : b ≠ underscore := by
      rintro rfl
      obtain ⟨⟨_, hlast, _⟩, _⟩ := hs [] s rfl
      cases hlast
    rw [bare_cons hb, List.forall_mem_cons] at hd
    rw [List.length_cons] at hn
    cases s with
    | nil => exact .one hd.1
    | cons c s =>
      by_cases hc : c = underscore
      · subst hc
        obtain ⟨-, d, hhead, hdigit⟩ := hs [b] s rfl
        have hnext : s.head? ≠ some underscore := by
          rw [Option.mem_def.mp hhead]
          exact fun heq => ne_underscore hdigit (Option.some.inj heq)
        have hrest : s ≠ [] := by
          rintro rfl
          cases hhead
        refine .apart hd.1 (ih s.length (by rw [List.length_cons] at hn; omega)
          (fun l r hl => ?_) hrest hd.2 rfl)
        have hl' : l ≠ [] := by
          rintro rfl
          exact hnext (hl ▸ rfl)
        have := hs (b :: underscore :: l) r (by rw [hl]; rfl)
        rwa [List.getLast?_cons_cons, List.getLast?_cons_of_ne_nil hl'] at this
      · have hnext : (c :: s).head? ≠ some underscore := fun heq => hc (Option.some.inj heq)
        exact .digit hd.1 (ih _ (by omega) ((between_cons hb hnext).mp hs)
          (List.cons_ne_nil _ _) hd.2 rfl)

/-! ## Literals and tokens -/

theorem digit_cases (hb : isDigitOf 16 b) :
    b ∉ ([43, 45, 46, 95, 111, 120] : Bytes) := by
  have hmarks : ∀ b ∈ ([43, 45, 46, 95, 111, 120] : Bytes), ¬ isDigitOf 16 b :=
    List.all_iff_forall_prop.mp rfl
  exact fun h => hmarks b h hb

theorem sign_digits (h : ∀ b ∈ s, isDigitOf base b) (hbase : base ≤ 16) : sign s = (false, s) := by
  cases s with
  | nil => rfl
  | cons b s =>
    have hb := digit_cases (isDigitOf_mono hbase (h b List.mem_cons_self))
    simp only [List.mem_cons, List.not_mem_nil, or_false, not_or] at hb
    simp [sign, hb.1, hb.2.1]

theorem takenFor_decimal (h : ∀ b ∈ s, isDigitOf 10 b ∨ b = 43 ∨ b = 45) :
    takenFor s = parseInt 10 s := by
  have hmarks : ∀ b ∈ ([120, 98, 46, 101, 69] : Bytes), ¬ (isDigitOf 10 b ∨ b = 43 ∨ b = 45) :=
    List.all_iff_forall_prop.mp rfl
  have hnot (mark : UInt8) (hm : mark ∈ ([120, 98, 46, 101, 69] : Bytes)) :
      ¬ [48, mark].isPrefixOf s := by
    intro hpre
    exact hmarks mark hm (h mark ((List.isPrefixOf_iff_prefix.mp hpre).subset (by simp)))
  have hpoint : ¬ s.any (fun b => b = 46 || b = 101 || b = 69) := by
    rw [List.any_eq_true]
    rintro ⟨b, hb, hp⟩
    refine hmarks b ?_ (h b hb)
    simp only [Bool.or_eq_true, decide_eq_true_eq] at hp
    rcases hp with (rfl | rfl) | rfl <;> decide
  rw [takenFor, if_neg (hnot 120 (by decide)), if_neg (hnot 98 (by decide)), if_neg hpoint]

theorem sign_head (h : ∃ b ∈ s.head?, isDigitOf base b) (hbase : base ≤ 16) :
    sign s = (false, s) := by
  obtain ⟨b, hb, hdigit⟩ := h
  have hcases := digit_cases (isDigitOf_mono hbase hdigit)
  simp only [List.mem_cons, List.not_mem_nil, or_false, not_or] at hcases
  rw [sign, Option.mem_def.mp hb]
  simp [hcases.1, hcases.2.1]

theorem Between.mono (h : Between base s) (hle : base ≤ base') : Between base' s := by
  intro l r hl
  obtain ⟨⟨b, hb, hb'⟩, c, hc, hc'⟩ := h l r hl
  exact ⟨⟨b, hb, isDigitOf_mono hle hb'⟩, c, hc, isDigitOf_mono hle hc'⟩

theorem Digits.not_based (h : Digits 10 s) : ¬ Based s := by
  have hmark (mark : UInt8) (hpre : [48, mark] <+: s) (hm : mark ≠ underscore)
      (hdigit : isDigitOf 10 mark = false) : False := by
    have hmem : mark ∈ Toml.bare s :=
      List.mem_filter.mpr ⟨hpre.subset (by simp), by simpa [underscore] using hm⟩
    have := h.bare.2 mark hmem
    rw [hdigit] at this
    cases this
  rintro (hpre | hpre)
  · exact hmark 120 hpre (by decide) (by decide)
  · exact hmark 98 hpre (by decide) (by decide)

theorem taken_digits {m : Nat} (hs : Digits base s) (hbase : base ≤ 16)
    (hn : digits base (bare s) = some m) (hfits : Fits m) : parseInt base (bare s) = some m :=
  parseInt_eq_some.mpr ⟨m, by rwa [sign_digits hs.bare.2 hbase],
    by rw [sign_digits hs.bare.2 hbase]; rfl, hfits⟩

theorem literal_taken (h : Literal t n) (hfits : Fits n) (ht : ∀ b ∈ t, isNumberByte b) :
    takenFor (bare t) = some n := by
  cases h with
  | plain hs _ hn =>
    rw [takenFor_decimal fun b hb => .inl (hs.bare.2 b hb)]
    exact taken_digits hs (by decide) hn hfits
  | @plus s m hs _ hn =>
    rw [bare_cons (by decide), takenFor_decimal, parseInt_eq_some]
    · exact ⟨m, hn, rfl, hfits⟩
    · exact List.forall_mem_cons.mpr ⟨.inr (.inl rfl), fun b hb => .inl (hs.bare.2 b hb)⟩
  | @minus s m hs _ hn =>
    rw [bare_cons (by decide), takenFor_decimal, parseInt_eq_some]
    · exact ⟨m, hn, rfl, hfits⟩
    · exact List.forall_mem_cons.mpr ⟨.inr (.inr rfl), fun b hb => .inl (hs.bare.2 b hb)⟩
  | @based mark base s m hmark hs hn =>
    simp only [bases, List.mem_cons, Prod.mk.injEq, List.not_mem_nil, or_false] at hmark
    rcases hmark with ⟨rfl, rfl⟩ | ⟨rfl, rfl⟩ | ⟨rfl, rfl⟩
    · rw [bare_cons (by decide), bare_cons (by decide)]
      exact taken_digits hs (by decide) hn hfits
    · -- The byte of this mark is not one of a token.
      exact absurd (ht 111 (by simp)) (by decide)
    · rw [bare_cons (by decide), bare_cons (by decide)]
      exact taken_digits hs (by decide) hn hfits

theorem literal_placed (h : Literal t n) (ht : ∀ b ∈ t, isNumberByte b) : Placed t := by
  cases h with
  | @plain s m hs hz _ =>
    have hbased := hs.not_based
    refine ⟨?_, fun _ => ?_, fun h => absurd h hbased⟩
    · rw [if_neg fun h => hbased (.inl h)]
      exact hs.between
    · rwa [sign_head hs.head (by decide)]
  | @plus s m hs hz _ =>
    refine ⟨?_, fun _ => hz, ?_⟩
    · rw [if_neg (by simp)]
      exact (between_cons (by decide) hs.head_ne).mpr hs.between
    · simp [Based]
  | @minus s m hs hz _ =>
    refine ⟨?_, fun _ => hz, ?_⟩
    · rw [if_neg (by simp)]
      exact (between_cons (by decide) hs.head_ne).mpr hs.between
    · simp [Based]
  | @based mark base s m hmark hs _ =>
    simp only [bases, List.mem_cons, Prod.mk.injEq, List.not_mem_nil, or_false] at hmark
    rcases hmark with ⟨rfl, rfl⟩ | ⟨rfl, rfl⟩ | ⟨rfl, rfl⟩
    · refine ⟨?_, fun h => absurd (.inl (by simp)) h, fun _ => ?_⟩
      · rw [if_pos (by simp)]
        exact (between_cons (by decide) (by simp [underscore])).mpr
          ((between_cons (by decide) hs.head_ne).mpr hs.between)
      · exact congrArg Prod.snd (sign_head hs.head (by decide))
    · exact absurd (ht 111 (by simp)) (by decide)
    · refine ⟨?_, fun h => absurd (.inr (by simp)) h, fun _ => ?_⟩
      · rw [if_neg (by simp)]
        exact (between_cons (by decide) (by simp [underscore])).mpr
          ((between_cons (by decide) hs.head_ne).mpr (hs.between.mono (by decide)))
      · exact congrArg Prod.snd (sign_head hs.head (by decide))

theorem Between.head_ne (h : Between base s) : s.head? ≠ some underscore := by
  intro hhead
  obtain ⟨r, rfl⟩ := List.head?_eq_some_iff.mp hhead
  obtain ⟨⟨_, hlast, _⟩, _⟩ := h [] r rfl
  cases hlast

theorem Between.next_ne (h : Between base (b :: s)) (hb : isDigitOf base b = false) :
    s.head? ≠ some underscore := by
  intro hhead
  obtain ⟨r, rfl⟩ := List.head?_eq_some_iff.mp hhead
  obtain ⟨⟨c, hlast, hdigit⟩, _⟩ := h [b] r rfl
  obtain rfl : b = c := Option.some.inj hlast
  rw [hb] at hdigit
  cases hdigit

theorem mark_there {mark : UInt8} {r : Bytes} (hp : Placed t) (hdigit : isDigitOf 10 mark = false)
    (h : bare t = 48 :: mark :: r) : ∃ s, t = 48 :: mark :: s ∧ bare s = r := by
  have hhead := hp.underscores.head_ne
  rcases t with _ | ⟨b, t⟩
  · cases h
  have hb : b ≠ underscore := fun heq => hhead (congrArg some heq)
  rw [bare_cons hb] at h
  obtain ⟨rfl, hrest⟩ := List.cons.inj h
  rcases t with _ | ⟨c, s⟩
  · cases hrest
  by_cases hc : c = underscore
  · -- The next byte that is left is the mark, which is no digit.
    subst hc
    have hplain := hp.underscores
    rw [if_neg (by simp [underscore])] at hplain
    obtain ⟨-, d, hd, hdigit'⟩ := hplain [48] s rfl
    obtain ⟨s, rfl⟩ := List.head?_eq_some_iff.mp hd
    rw [bare_underscore, bare_cons (ne_underscore hdigit')] at hrest
    obtain ⟨rfl, -⟩ := List.cons.inj hrest
    rw [hdigit] at hdigit'
    cases hdigit'
  · rw [bare_cons hc] at hrest
    obtain ⟨rfl, hs⟩ := List.cons.inj hrest
    exact ⟨s, rfl, hs⟩

theorem sign_bare (hs : s.head? ≠ some underscore) (h : (sign s).2 = s) :
    sign (bare s) = (false, bare s) := by
  cases s with
  | nil => rfl
  | cons b s =>
    rw [bare_cons fun heq => hs (congrArg some heq)]
    have htail : s ≠ b :: s := fun heq => by simpa using congrArg List.length heq
    rw [sign] at h ⊢
    simp only [List.head?_cons, Option.some.injEq, List.tail_cons] at h ⊢
    split_ifs at h ⊢ with h₁ h₂
    · exact absurd h htail
    · exact absurd h htail
    · rfl

theorem taken_based {mark : UInt8} (hmark : (mark, base) ∈ bases) (hs : Between base' s)
    (hnext : s.head? ≠ some underscore) (hsign : (sign s).2 = s)
    (h : parseInt base (bare s) = some n) : Literal (48 :: mark :: s) n ∧ Fits n := by
  obtain ⟨m, hm, hn, hfits⟩ := parseInt_eq_some.mp h
  rw [sign_bare hnext hsign] at hm hn
  obtain ⟨hne, hd⟩ := digits_isSome.mp (Option.isSome_of_eq_some hm)
  have hs' : s ≠ [] := by
    rintro rfl
    exact hne rfl
  refine ⟨?_, hfits⟩
  rw [hn]
  exact .based hmark (digits_of_between hs hs' hd) hm

theorem taken_literal (h : takenFor (bare t) = some n) (hp : Placed t) : Literal t n ∧ Fits n := by
  rw [takenFor] at h
  split_ifs at h with hhex hbin hpoint
  · obtain ⟨r, hr⟩ := List.isPrefixOf_iff_prefix.mp hhex
    obtain ⟨s, rfl, rfl⟩ := mark_there hp (by decide) hr.symm
    have hbetween := hp.underscores
    rw [if_pos (by simp)] at hbetween
    have hrest := (between_cons (by decide) (by simp [underscore])).mp hbetween
    have hnext := hrest.next_ne (by decide)
    refine taken_based (show (120, 16) ∈ bases by decide)
      ((between_cons (by decide) hnext).mp hrest) hnext (hp.sign (.inl (by simp))) ?_
    rwa [← hr] at h
  · obtain ⟨r, hr⟩ := List.isPrefixOf_iff_prefix.mp hbin
    obtain ⟨s, rfl, rfl⟩ := mark_there hp (by decide) hr.symm
    have hbetween := hp.underscores
    rw [if_neg (by simp)] at hbetween
    have hrest := (between_cons (by decide) (by simp [underscore])).mp hbetween
    have hnext := hrest.next_ne (by decide)
    refine taken_based (show (98, 2) ∈ bases by decide)
      ((between_cons (by decide) hnext).mp hrest) hnext (hp.sign (.inr (by simp))) ?_
    rwa [← hr] at h
  · have hbased : ¬ Based t := by
      rintro (⟨r, rfl⟩ | ⟨r, rfl⟩)
      · exact hhex rfl
      · exact hbin rfl
    have hbetween := hp.underscores
    rw [if_neg fun hpre => hbased (.inl hpre)] at hbetween
    have hzero := hp.zero hbased
    obtain ⟨m, hm, hn, hfits⟩ := parseInt_eq_some.mp h
    refine ⟨?_, hfits⟩
    rcases t with _ | ⟨b, s⟩
    · cases hm
    have hb : b ≠ underscore := fun heq => hbetween.head_ne (congrArg some heq)
    rw [bare_cons hb] at hm hn
    -- A sign, or none, and the digits after it.
    have hsigned (hdigit : isDigitOf 10 b = false) (hm : digits 10 (bare s) = some m) :
        Digits 10 s := by
      obtain ⟨hne, hd⟩ := digits_isSome.mp (Option.isSome_of_eq_some hm)
      have hnext := hbetween.next_ne hdigit
      refine digits_of_between ((between_cons hb hnext).mp hbetween) ?_ hd
      rintro rfl
      exact hne rfl
    by_cases hminus : b = 45
    · subst hminus
      rw [hn]
      exact .minus (hsigned (by decide) hm) hzero hm
    by_cases hplus : b = 43
    · subst hplus
      rw [hn]
      exact .plus (hsigned (by decide) hm) hzero hm
    have hsign (s : Bytes) : sign (b :: s) = (false, b :: s) := by simp [sign, hminus, hplus]
    rw [hsign] at hm hn hzero
    obtain ⟨-, hd⟩ := digits_isSome.mp (Option.isSome_of_eq_some hm)
    rw [hn]
    refine .plain (digits_of_between hbetween (List.cons_ne_nil _ _) ?_) hzero ?_
    · rwa [bare_cons hb]
    · rwa [bare_cons hb]

/-! ## Documents -/

theorem number_cursor {line : Nat} {c : Cursor} {v : Value} {tail : Bytes}
    (ht : ∀ b ∈ t, isNumberByte b) (hend : Ends tail)
    (h : number ⟨t ++ tail, line⟩ = .ok (v, c)) : c = ⟨tail, line⟩ := by
  have hnext : (⟨t ++ tail, line⟩ : Cursor).advance t.length = ⟨tail, line⟩ := by
    simp [Cursor.advance]
  rw [number] at h
  dsimp only at h
  rw [token_eq ht hend, hnext] at h
  -- Whichever reader found it, the cursor is behind the token.
  split_ifs at h
  all_goals try split at h
  all_goals cases h
  all_goals rfl

end Placed

/-- A token is read as an integer exactly if it is a literal that fits, by the
reader of values and in a document. -/
structure ReadsIntegers (t : Bytes) : Prop where
  value : ∀ tail start f n c, Ends tail →
    (value (f + 1) ⟨t ++ tail, start⟩ = .ok (.int n, c) ↔
      (Literal t n ∧ Fits n) ∧ c = ⟨tail, start⟩)
  parse : ∀ n, parse (line t) = .ok [(ascii "k", .int n)] ↔ Literal t n ∧ Fits n

section Tokens

variable {t : Bytes} {n : Int}

theorem ends_newline : Ends [newline] := by
  intro b hb
  cases hb
  decide

theorem parse_token (ht : ∀ b ∈ t, isNumberByte b) :
    parse (line t) = .ok [(ascii "k", .int n)] ↔ takenFor (bare t) = some n := by
  have hblank : (t ++ [newline]).head?.all fun b => !isBlank b := by
    cases t with
    | nil => rfl
    | cons b t =>
      have hb := ht b List.mem_cons_self
      simp only [List.cons_append, List.head?_cons, Option.all_some, Bool.not_eq_true']
      rw [Bool.eq_false_iff]
      intro hspace
      rw [isBlank, Bool.or_eq_true, decide_eq_true_eq, decide_eq_true_eq] at hspace
      rcases hspace with rfl | rfl <;> exact absurd hb (by decide)
  have hvalue : lineValue t = number ⟨t ++ [newline], 1⟩ := value_token ht ends_newline
  have hiff : number ⟨t ++ [newline], 1⟩ = .ok (.int n, ⟨[newline], 1⟩) ↔
      takenFor (bare t) = some n := (number_int ht ends_newline).trans (and_iff_left rfl)
  rw [← hiff]
  cases h : number ⟨t ++ [newline], 1⟩ with
  | error e =>
    rw [parse_line_error hblank (hvalue.trans h)]
    exact iff_of_false nofun nofun
  | ok p =>
    obtain ⟨v, c⟩ := p
    obtain rfl := number_cursor ht ends_newline h
    rw [parse_line hblank (hvalue.trans h)]
    simp

/-- Tokens are read as the integers that they write, if and only if each that is
an integer without its underscores has these between digits, no zero in front of
a decimal and no sign after the mark of a base. -/
theorem token_integer_iff (ht : ∀ b ∈ t, isNumberByte b) :
    ReadsIntegers t ↔ (takenFor (bare t) ≠ none → Placed t) := by
  constructor
  · intro h htaken
    obtain ⟨n, hn⟩ := Option.ne_none_iff_exists'.mp htaken
    exact literal_placed ((h.parse n).mp ((parse_token ht).mpr hn)).1 ht
  · intro hplaced
    have hiff (n : Int) : takenFor (bare t) = some n ↔ Literal t n ∧ Fits n := by
      constructor
      · exact fun h => taken_literal h (hplaced (by rw [h]; exact Option.some_ne_none n))
      · exact fun h => literal_taken h.1 h.2 ht
    refine ⟨fun tail start f n c hend => ?_, fun n => (parse_token ht).trans (hiff n)⟩
    rw [value_token ht hend, number_int ht hend, hiff]

end Tokens

theorem thousand_read : ReadsIntegers (ascii "1_000") := by
  have ht : ∀ b ∈ ascii "1_000", isNumberByte b := List.all_eq_true.mp rfl
  refine (token_integer_iff ht).mpr fun _ => literal_placed (n := 1000) ?_ ht
  exact .plain (.apart rfl (.digit rfl (.digit rfl (.one rfl)))) (.inr (by decide)) rfl

/-- A zero in front, which no integer of TOML has: it is read all the same. -/
theorem leading_zero_read : ¬ ReadsIntegers (ascii "007") := by
  intro h
  have ht : ∀ b ∈ ascii "007", isNumberByte b := List.all_eq_true.mp rfl
  have hread : parse (line (ascii "007")) = .ok [(ascii "k", .int 7)] := (parse_token ht).mpr rfl
  have hplaced := literal_placed ((h.parse 7).mp hread).1 ht
  rcases hplaced.zero (by decide) with hzero | hzero
  · exact absurd hzero (by decide)
  · exact hzero rfl

end LocalBase.Toml
