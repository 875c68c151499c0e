import Mathlib.Algebra.Order.Ring.Nat
import Mathlib.Data.List.Basic
import Mathlib.Tactic.Common
import Mathlib.Tactic.NormNum

/-!
# Numbers in bytes, and bytes in text

Three encodings, each a writer and a reader, with what the reader makes of whatever
was written.
-/

/-!
## Little-endian numbers

A number written in so many bytes, the lowest first, and read from them. One that does not
fit loses what is above.
-/

namespace LittleEndian

def put : Nat → Nat → List UInt8
  | 0, _ => []
  | n + 1, v => UInt8.ofNat (v % 256) :: put n (v / 256)

/-- The number that the bytes are. -/
def number : List UInt8 → Nat
  | [] => 0
  | x :: b => x.toNat + 256 * number b

theorem length_put (n v : Nat) : (put n v).length = n := by
  induction n generalizing v with
  | zero => rfl
  | succ n ih => rw [put, List.length_cons, ih]

theorem toNat_low (v : Nat) : (UInt8.ofNat (v % 256)).toNat = v % 256 := by
  rw [UInt8.toNat_ofNat', Nat.mod_eq_of_lt (Nat.mod_lt v (by norm_num))]

theorem number_put {n v : Nat} (hv : v < 256 ^ n) : number (put n v) = v := by
  induction n generalizing v with
  | zero =>
    rw [Nat.pow_zero] at hv
    exact (Nat.lt_one_iff.1 hv).symm
  | succ n ih =>
    have hrest : v / 256 < 256 ^ n := by
      rw [Nat.pow_succ] at hv
      omega
    rw [put, number, toNat_low, ih hrest]
    omega

end LittleEndian

/-!
## Base-128 varints

A 64-bit number in groups of seven bits, the lowest first, each in a byte whose high bit
says that another follows. The reader answers the number and how many bytes it took: none
when they end inside it, a negative count when they are more than a number has.
-/

namespace Varint

def put (v : UInt64) : List UInt8 :=
  if v.toNat < 128 then [UInt8.ofNat v.toNat]
  else UInt8.ofNat (v.toNat % 128 + 128) :: put (v >>> 7)
termination_by v.toNat
decreasing_by
  rw [UInt64.toNat_shiftRight, Nat.shiftRight_eq_div_pow]
  have : (7 : UInt64).toNat % 64 = 7 := rfl
  rw [this]
  omega

/-- The loop of the reader, at the byte number `i`: `x` is what has been read, and the next
bits belong `s` places up. -/
def loop (i : Nat) (x s : UInt64) : List UInt8 → UInt64 × Int
  | [] => (0, 0)
  | b :: rest =>
    if i = 10 then (0, -(i + 1))
    else if b.toNat < 128 then
      if i = 9 ∧ 1 < b.toNat then (0, -(i + 1)) else (x ||| b.toUInt64 <<< s, i + 1)
    else loop (i + 1) (x ||| (b &&& 127).toUInt64 <<< s) (s + 7) rest

def uvarint (b : List UInt8) : UInt64 × Int := loop 0 0 0 b

variable {i : Nat} {x s v : UInt64} {b rest : List UInt8}

theorem toNat_shift (v : UInt64) : (v >>> 7).toNat = v.toNat / 128 := by
  rw [UInt64.toNat_shiftRight, Nat.shiftRight_eq_div_pow]
  rfl

/-- Bits that are put above those that are there add to them. -/
theorem toNat_or_shift {y : UInt64} (hx : x.toNat < 2 ^ (7 * i)) (hs : s.toNat = 7 * i)
    (hi : i ≤ 9) (hy : y.toNat * 2 ^ (7 * i) < 2 ^ 64) :
    (x ||| y <<< s).toNat = x.toNat + y.toNat * 2 ^ (7 * i) := by
  have hshift : (y <<< s).toNat = y.toNat * 2 ^ (7 * i) := by
    rw [UInt64.toNat_shiftLeft, hs, Nat.mod_eq_of_lt (by omega : 7 * i < 64),
      Nat.shiftLeft_eq, Nat.mod_eq_of_lt hy]
  rw [UInt64.toNat_or, hshift, Nat.or_comm, Nat.mul_comm,
    ← Nat.two_pow_add_eq_or_of_lt hx, Nat.add_comm]

theorem toNat_low (n : Nat) : (UInt8.ofNat (n % 128 + 128) &&& 127).toUInt64.toNat = n % 128 := by
  have hmask : (127 : UInt8).toNat = 2 ^ 7 - 1 := rfl
  rw [UInt8.toNat_toUInt64, UInt8.toNat_and, hmask, Nat.and_two_pow_sub_one_eq_mod,
    UInt8.toNat_ofNat']
  omega

theorem loop_put (rest : List UInt8) (hx : x.toNat < 2 ^ (7 * i)) (hs : s.toNat = 7 * i)
    (hi : i ≤ 9) (hv : v.toNat * 2 ^ (7 * i) < 2 ^ 64) :
    ∃ y, loop i x s (put v ++ rest) = (y, ((i + (put v).length : Nat) : Int)) ∧
      y.toNat = x.toNat + v.toNat * 2 ^ (7 * i) := by
  induction hn : v.toNat using Nat.strongRecOn generalizing i x s v with
  | ind n ih =>
    subst hn
    have hten : i ≠ 10 := by omega
    rw [put]
    by_cases hlast : v.toNat < 128
    · have hbyte : (UInt8.ofNat v.toNat).toNat = v.toNat := by
        rw [UInt8.toNat_ofNat', Nat.mod_eq_of_lt (by omega)]
      have hroom : ¬(i = 9 ∧ 1 < v.toNat) := by
        rintro ⟨rfl, hbig⟩
        omega
      have hsame : (UInt8.ofNat v.toNat).toUInt64 = v := by
        rw [← UInt64.toNat_inj, UInt8.toNat_toUInt64, hbyte]
      rw [if_pos hlast, List.cons_append, List.nil_append, loop, if_neg hten, hbyte,
        if_pos hlast, if_neg hroom, hsame]
      exact ⟨_, rfl, toNat_or_shift hx hs hi hv⟩
    · -- The byte that is written says that another follows, and the number has room for it.
      have hbyte : ¬(UInt8.ofNat (v.toNat % 128 + 128)).toNat < 128 := by
        rw [UInt8.toNat_ofNat']
        omega
      have hpow : 2 ^ (7 * (i + 1)) = 128 * 2 ^ (7 * i) := by
        rw [Nat.mul_succ, Nat.pow_add, Nat.mul_comm]
      have hsplit : v.toNat * 2 ^ (7 * i) =
          v.toNat % 128 * 2 ^ (7 * i) + v.toNat / 128 * 2 ^ (7 * (i + 1)) := by
        rw [hpow, ← Nat.mul_assoc, ← Nat.add_mul, Nat.mul_comm (v.toNat / 128),
          Nat.mod_add_div]
      have hi' : i + 1 ≤ 9 := by
        by_contra hlarge
        obtain rfl : i = 9 := by omega
        omega
      have hor := toNat_or_shift (y := (UInt8.ofNat (v.toNat % 128 + 128) &&& 127).toUInt64)
        hx hs hi (by rw [toNat_low]; omega)
      rw [toNat_low] at hor
      have hx' : (x ||| (UInt8.ofNat (v.toNat % 128 + 128) &&& 127).toUInt64 <<< s).toNat <
          2 ^ (7 * (i + 1)) := by
        have hlow : (v.toNat % 128 + 1) * 2 ^ (7 * i) ≤ 128 * 2 ^ (7 * i) :=
          Nat.mul_le_mul_right _ (Nat.mod_lt _ (by norm_num))
        rw [Nat.add_mul, Nat.one_mul] at hlow
        omega
      have hs' : (s + 7).toNat = 7 * (i + 1) := by
        have : (7 : UInt64).toNat = 7 := rfl
        rw [UInt64.toNat_add, hs, this]
        omega
      obtain ⟨y, hloop, hy⟩ := ih (v >>> 7).toNat (by rw [toNat_shift]; omega) hx' hs' hi'
        (by rw [toNat_shift]; omega) rfl
      rw [if_neg hlast, List.cons_append, loop, if_neg hten, if_neg hbyte, hloop,
        List.length_cons]
      refine ⟨y, ?_, ?_⟩
      · rw [Nat.add_right_comm, Nat.add_assoc]
      · rw [hy, hor, toNat_shift]
        omega

theorem uvarint_put (v : UInt64) (rest : List UInt8) :
    uvarint (put v ++ rest) = (v, ((put v).length : Int)) := by
  obtain ⟨y, hloop, hy⟩ := loop_put (i := 0) (x := 0) (s := 0) (v := v) rest
    Nat.one_pos rfl (by omega) (by rw [Nat.mul_zero, Nat.pow_zero, Nat.mul_one]; exact v.toNat_lt)
  have hsame : y = v := by
    rw [← UInt64.toNat_inj, hy]
    simp
  rw [uvarint, hloop, hsame, Nat.zero_add]

theorem put_ne_nil (v : UInt64) : put v ≠ [] := by
  rw [put]
  split
  · exact List.cons_ne_nil _ _
  · exact List.cons_ne_nil _ _

theorem loop_le (i : Nat) (x s : UInt64) (b : List UInt8) : (loop i x s b).2 ≤ i + b.length := by
  induction b generalizing i x s with
  | nil => exact Int.add_nonneg (Int.natCast_nonneg i) (Int.natCast_nonneg 0)
  | cons b rest ih =>
    rw [loop, List.length_cons]
    split
    · dsimp only
      omega
    · split
      · split
        · dsimp only
          omega
        · dsimp only
          omega
      · have := ih (i + 1) (x ||| (b &&& 127).toUInt64 <<< s) (s + 7)
        omega

theorem uvarint_le (b : List UInt8) : (uvarint b).2 ≤ b.length := by
  have := loop_le 0 0 0 b
  rw [Int.natCast_zero, Int.zero_add] at this
  exact this

end Varint

/-!
## Bytes in hex

Two lower-case digits a byte, the high one first. The decoder takes both cases, so it is
the encoder's inverse on one side only.
-/

namespace Hex

def digit (n : Nat) : Char := Char.ofNat (if n < 10 then 48 + n else 87 + n)

def value (c : Char) : Option Nat :=
  if '0' ≤ c ∧ c ≤ '9' then some (c.toNat - 48)
  else if 'a' ≤ c ∧ c ≤ 'f' then some (c.toNat - 87)
  else if 'A' ≤ c ∧ c ≤ 'F' then some (c.toNat - 55)
  else none

def encode : List UInt8 → List Char
  | [] => []
  | b :: bytes => digit (b.toNat / 16) :: digit (b.toNat % 16) :: encode bytes

def decode : List Char → Option (List UInt8)
  | [] => some []
  | [_] => none
  | a :: b :: text => do
      let hi ← value a
      let lo ← value b
      let bytes ← decode text
      some (UInt8.ofNat (hi * 16 + lo) :: bytes)

/-- A lower-case digit. -/
def isLower (c : Char) : Bool := ('0' ≤ c && c ≤ '9') || ('a' ≤ c && c ≤ 'f')

theorem isLower_digit : ∀ n < 16, isLower (digit n) = true := by decide

theorem value_digit : ∀ n < 16, value (digit n) = some n := by decide

theorem length_encode (bytes : List UInt8) : (encode bytes).length = 2 * bytes.length := by
  induction bytes with
  | nil => rfl
  | cons b bytes ih =>
    rw [encode, List.length_cons, List.length_cons, List.length_cons, ih]
    omega

theorem isLower_encode (bytes : List UInt8) : ∀ c ∈ encode bytes, isLower c = true := by
  induction bytes with
  | nil => simp [encode]
  | cons b bytes ih =>
    have hb := b.toNat_lt
    intro c hc
    rw [encode, List.mem_cons, List.mem_cons] at hc
    rcases hc with rfl | rfl | hc
    · exact isLower_digit _ (by omega)
    · exact isLower_digit _ (by omega)
    · exact ih c hc

theorem decode_encode (bytes : List UInt8) : decode (encode bytes) = some bytes := by
  induction bytes with
  | nil => rfl
  | cons b bytes ih =>
    have hb := b.toNat_lt
    have hsum : UInt8.ofNat (b.toNat / 16 * 16 + b.toNat % 16) = b := by
      rw [Nat.div_add_mod', UInt8.ofNat_toNat]
    rw [encode, decode, value_digit _ (by omega), value_digit _ (by omega), ih]
    simp only [Option.bind_eq_bind, Option.bind_some, hsum]

end Hex
