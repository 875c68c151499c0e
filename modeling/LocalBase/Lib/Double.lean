import Mathlib.Algebra.Order.Field.Rat
import Mathlib.Data.Rat.Cast.Order
import Mathlib.Data.Rat.Floor
import Mathlib.Tactic.NormNum

/-!
# Floating-point values

What a 64-bit float can be, and how it compares: a NaN with nothing, not even
itself. Zero has one sign here, as nothing below tells the two apart. The bits of
a float of any width are read as its value, so that widening one is exact.
-/

inductive Double where
  | nan
  | infinite (negative : Bool)
  | finite (value : ℚ)
deriving DecidableEq

namespace Double

/-- `a == b`. -/
def eq : Double → Double → Bool
  | nan, _ => false
  | _, nan => false
  | a, b => a = b

/-- `a <= b`. -/
def le : Double → Double → Bool
  | nan, _ => false
  | _, nan => false
  | infinite negative, infinite negative' => negative || !negative'
  | infinite negative, finite _ => negative
  | finite _, infinite negative => !negative
  | finite a, finite b => a ≤ b

/-- `a < b`. -/
def lt (a b : Double) : Bool := le a b && !eq a b

def ofInt (n : Int) : Double := finite n

/-- `math.Trunc`. -/
def trunc : Double → Double
  | nan => nan
  | infinite negative => infinite negative
  | finite q => ofInt (q.num.tdiv q.den)

/-- The conversion to an integer, of a value that has one: of no other does it say
anything. -/
def toInt : Double → Int
  | nan => 0
  | infinite _ => 0
  | finite q => q.num.tdiv q.den

/-- `f == math.Trunc(f)`. -/
def whole (f : Double) : Bool := eq f (trunc f)

/-- The value of an IEEE 754 float, with `width` bits of exponent and `digits` of
fraction. -/
def ofBits (width digits bits : Nat) : Double :=
  let fraction := bits % 2 ^ digits
  let exponent := bits / 2 ^ digits % 2 ^ width
  let negative := bits / 2 ^ (digits + width) % 2 = 1
  let bias : Int := 2 ^ (width - 1) - 1
  if exponent = 2 ^ width - 1 then
    if fraction = 0 then infinite negative else nan
  else
    let magnitude : ℚ :=
      if exponent = 0 then fraction * 2 ^ (1 - bias - digits)
      else (2 ^ digits + fraction : ℚ) * 2 ^ ((exponent : Int) - bias - digits)
    finite (if negative then -magnitude else magnitude)

theorem toInt_ofInt (n : Int) : (ofInt n).toInt = n := by
  show (n : ℚ).num.tdiv (n : ℚ).den = n
  rw [Rat.num_intCast, Rat.den_intCast]
  exact Int.tdiv_one n

theorem le_ofInt (a b : Int) : le (ofInt a) (ofInt b) = decide (a ≤ b) :=
  decide_eq_decide.mpr Int.cast_le

theorem lt_ofInt (a b : Int) : lt (ofInt a) (ofInt b) = decide (a < b) := by
  have heq : eq (ofInt a) (ofInt b) = decide (a = b) := by
    show decide (finite (a : ℚ) = finite (b : ℚ)) = _
    exact decide_eq_decide.mpr (by rw [finite.injEq, Int.cast_inj])
  unfold lt
  rw [le_ofInt, heq]
  rw [Bool.eq_iff_iff]
  simp only [Bool.and_eq_true, Bool.not_eq_true', decide_eq_true_eq, decide_eq_false_iff_not]
  omega

theorem of_whole {f : Double} (h : f.whole = true) :
    (∃ negative, f = infinite negative) ∨ ∃ n, f = ofInt n := by
  cases f with
  | nan => cases h
  | infinite negative => exact .inl ⟨negative, rfl⟩
  | finite q => exact .inr ⟨_, of_decide_eq_true h⟩

theorem not_lt_of_le {a b : Double} (h : le a b = true) : lt b a = false := by
  unfold lt
  cases hba : le b a with
  | false => rfl
  | true =>
    cases a with
    | nan => cases h
    | infinite negative =>
      cases b with
      | nan => cases hba
      | infinite negative' =>
        cases negative with
        | false => cases negative' with
          | false => rfl
          | true => cases h
        | true => cases negative' with
          | false => cases hba
          | true => rfl
      | finite q => cases negative with
          | false => cases h
          | true => cases hba
    | finite p =>
      cases b with
      | nan => cases hba
      | infinite negative => cases negative with
          | false => cases hba
          | true => cases h
      | finite q =>
        have hpq : p = q := le_antisymm (of_decide_eq_true h) (of_decide_eq_true hba)
        subst hpq
        exact congrArg Bool.not (decide_eq_true rfl)

/-- A value without a fraction in a range is an integer of the range. -/
theorem whole_between {f : Double} {lo hi : Int} (h : f.whole = true)
    (hlo : f.lt (ofInt lo) = false) (hhi : (ofInt hi).lt f = false) :
    lo ≤ f.toInt ∧ f.toInt ≤ hi := by
  obtain ⟨negative, rfl⟩ | ⟨n, rfl⟩ := of_whole h
  · -- One of the two bounds refuses an infinity.
    cases negative with
    | false => cases hhi
    | true => cases hlo
  · rw [lt_ofInt, decide_eq_false_iff_not] at hlo hhi
    rw [toInt_ofInt]
    omega

end Double

/-- The bits of 1.5 as a 32-bit float, and of 1 as a 64-bit float. -/
example : Double.ofBits 8 23 0x3FC00000 = .finite (3 / 2) ∧
    Double.ofBits 11 52 0x3FF0000000000000 = .finite 1 := by decide +kernel

/-!
## Decimal fractions as 64-bit floats

What a reader of decimal numbers makes of one: the nearest float with 53 bits,
a tie to the even one, down to multiples of 2^-1074 and up to where rounding
passes the largest.
-/

namespace Float64

/-- The nearest integer, a tie to the even one. -/
def roundEven (x : ℚ) : Int :=
  if x - ⌊x⌋ < 1 / 2 ∨ x - ⌊x⌋ = 1 / 2 ∧ ⌊x⌋ % 2 = 0 then ⌊x⌋ else ⌊x⌋ + 1

/-- The power of two at or below a fraction. -/
def binade (num den : Nat) : Int :=
  let guess : Int := Nat.log2 num - Nat.log2 den
  if (num : ℚ) / den < 2 ^ guess then guess - 1 else guess

/-- The nearest float of a fraction; nothing stands for infinity. -/
def nearest (num den : Nat) : Option ℚ :=
  if num = 0 then some 0
  else
    let unit : ℚ := 2 ^ max (binade num den - 52) (-1074)
    let rounded := roundEven (num / den / unit) * unit
    if rounded < 2 ^ 1024 then some rounded else none

theorem roundEven_nonneg {x : ℚ} (h : 0 ≤ x) : 0 ≤ roundEven x := by
  have hfloor : 0 ≤ ⌊x⌋ := Int.floor_nonneg.mpr h
  unfold roundEven
  split_ifs <;> omega

theorem nearest_nonneg {num den : Nat} {v : ℚ} (h : nearest num den = some v) : 0 ≤ v := by
  unfold nearest at h
  split at h
  · obtain rfl := Option.some.inj h
    exact le_refl _
  · dsimp only at h
    split at h
    · obtain rfl := Option.some.inj h
      have hunit : (0 : ℚ) < 2 ^ max (binade num den - 52) (-1074) := zpow_pos (by norm_num) _
      have hnum : (0 : ℚ) ≤ num := Nat.cast_nonneg num
      have hsteps := div_nonneg (div_nonneg hnum (Nat.cast_nonneg den)) hunit.le
      exact mul_nonneg (Int.cast_nonneg (roundEven_nonneg hsteps)) hunit.le
    · cases h

theorem roundEven_intCast (n : Int) : roundEven n = n := by
  unfold roundEven
  rw [Int.floor_intCast, sub_self, if_pos (.inl (by norm_num))]

theorem binade_le {n k : Nat} (hn : n < 2 ^ 53) : binade n (2 ^ k) ≤ 52 - k := by
  have hlog : Nat.log2 n ≤ 52 := by
    by_cases h0 : n = 0
    · subst h0
      decide
    · exact Nat.le_of_lt_succ ((Nat.log2_lt h0).2 hn)
  unfold binade
  rw [Nat.log2_two_pow]
  dsimp only
  split <;> omega

/-- A fraction of at most 53 bits over a power of two is a float itself. -/
theorem nearest_dyadic {n k : Nat} (hn : n < 2 ^ 53) (hk : k ≤ 1074) :
    nearest n (2 ^ k) = some ((n : ℚ) / 2 ^ k) := by
  unfold nearest
  split
  · next h0 =>
    subst h0
    simp
  · have hle : max (binade n (2 ^ k) - 52) (-1074) ≤ -(k : Int) :=
      max_le (by have := binade_le (k := k) hn; omega) (by omega)
    obtain ⟨j, hj⟩ := Int.eq_ofNat_of_zero_le (sub_nonneg.2 hle)
    -- In units of the last place the fraction is a whole number.
    have hunit : (2 : ℚ) ^ max (binade n (2 ^ k) - 52) (-1074) = ((2 : ℚ) ^ k * 2 ^ j)⁻¹ := by
      rw [← pow_add, ← zpow_natCast, ← zpow_neg]
      congr 1
      push_cast
      omega
    have hsteps : (n : ℚ) / ((2 ^ k : Nat) : ℚ) / ((2 : ℚ) ^ k * 2 ^ j)⁻¹ =
        ((n * 2 ^ j : Nat) : Int) := by
      push_cast
      field_simp
    have hvalue : (((n * 2 ^ j : Nat) : Int) : ℚ) * ((2 : ℚ) ^ k * 2 ^ j)⁻¹ = n / 2 ^ k := by
      push_cast
      field_simp
    have hlt : (n : ℚ) / 2 ^ k < 2 ^ 1024 := by
      have hn' : (n : ℚ) < 2 ^ 53 := by exact_mod_cast hn
      have hone : (1 : ℚ) ≤ 2 ^ k := one_le_pow₀ (by norm_num)
      have hdiv : (n : ℚ) / 2 ^ k ≤ n := div_le_self (Nat.cast_nonneg n) hone
      exact hdiv.trans_lt (hn'.trans (pow_lt_pow_right₀ (by norm_num) (by omega)))
    dsimp only
    rw [hunit, hsteps, roundEven_intCast, hvalue, if_pos hlt]

/-- 2^53 + 1 is halfway between two floats. -/
example : nearest 9007199254740993 1 = some 9007199254740992 := by decide +kernel

end Float64
