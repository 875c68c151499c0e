import Mathlib.Data.List.Basic

/-!
# Base64url without padding

Three bytes are four characters of six bits each; what is left over, one byte or
two, is two characters or three, and the last of them has bits to spare. The
decoder does not look at these, so a text is not the only one that decodes as it
does. It skips line breaks.
-/

namespace Base64

def alphabet : List Char :=
  "ABCDEFGHIJKLMNOPQRSTUVWXYZabcdefghijklmnopqrstuvwxyz0123456789-_".toList

def charOf (n : Nat) : Char := alphabet.getD n 'A'

def sextetOf (c : Char) : Option Nat :=
  if alphabet.idxOf c < 64 then some (alphabet.idxOf c) else none

/-- The bytes as numbers below 64, the first bits first. -/
def sextets : List UInt8 → List Nat
  | [] => []
  | [a] => [a.toNat / 4, a.toNat % 4 * 16]
  | [a, b] => [a.toNat / 4, a.toNat % 4 * 16 + b.toNat / 16, b.toNat % 16 * 4]
  | a :: b :: c :: rest =>
    a.toNat / 4 :: (a.toNat % 4 * 16 + b.toNat / 16) :: (b.toNat % 16 * 4 + c.toNat / 64) ::
      c.toNat % 64 :: sextets rest

def encode (bytes : List UInt8) : List Char := (sextets bytes).map charOf

/-- The bytes of a list of numbers below 64. What the last has to spare is dropped. -/
def bytesOf : List Nat → Option (List UInt8)
  | [] => some []
  | [_] => none
  | [s, t] => some [UInt8.ofNat (s * 4 + t / 16)]
  | [s, t, u] => some [UInt8.ofNat (s * 4 + t / 16), UInt8.ofNat (t % 16 * 16 + u / 4)]
  | s :: t :: u :: v :: rest =>
    (bytesOf rest).map fun bytes =>
      UInt8.ofNat (s * 4 + t / 16) :: UInt8.ofNat (t % 16 * 16 + u / 4) ::
        UInt8.ofNat (u % 4 * 64 + v) :: bytes

def sextetsOf : List Char → Option (List Nat)
  | [] => some []
  | c :: cs =>
    match sextetOf c, sextetsOf cs with
    | some n, some ns => some (n :: ns)
    | _, _ => none

def decode (text : List Char) : Option (List UInt8) :=
  (sextetsOf (text.filter fun c => c ≠ '\n' ∧ c ≠ '\r')).bind bytesOf

/-! ## The round trip -/

theorem sextets_lt (bytes : List UInt8) : ∀ n ∈ sextets bytes, n < 64 := by
  fun_induction sextets bytes with
  | case1 => simp
  | case2 a =>
    have ha := a.toNat_lt
    intro n hn
    simp only [List.mem_cons, List.not_mem_nil, or_false] at hn
    omega
  | case3 a b =>
    have ha := a.toNat_lt
    have hb := b.toNat_lt
    intro n hn
    simp only [List.mem_cons, List.not_mem_nil, or_false] at hn
    omega
  | case4 a b c rest ih =>
    have ha := a.toNat_lt
    have hb := b.toNat_lt
    have hc := c.toNat_lt
    intro n hn
    simp only [List.mem_cons] at hn
    obtain hn | hn | hn | hn | hn := hn
    · omega
    · omega
    · omega
    · omega
    · exact ih n hn

theorem ofNat_toNat_eq {n : Nat} {a : UInt8} (h : n = a.toNat) : UInt8.ofNat n = a := by
  rw [h]
  exact UInt8.ofNat_toNat

theorem bytesOf_sextets (bytes : List UInt8) : bytesOf (sextets bytes) = some bytes := by
  fun_induction sextets bytes with
  | case1 => rfl
  | case2 a =>
    have ha := a.toNat_lt
    simp only [bytesOf]
    rw [ofNat_toNat_eq (a := a) (by omega)]
  | case3 a b =>
    have ha := a.toNat_lt
    have hb := b.toNat_lt
    simp only [bytesOf]
    rw [ofNat_toNat_eq (a := a) (by omega), ofNat_toNat_eq (a := b) (by omega)]
  | case4 a b c rest ih =>
    have ha := a.toNat_lt
    have hb := b.toNat_lt
    have hc := c.toNat_lt
    simp only [bytesOf, ih, Option.map_some]
    rw [ofNat_toNat_eq (a := a) (by omega), ofNat_toNat_eq (a := b) (by omega),
      ofNat_toNat_eq (a := c) (by omega)]

theorem charOf_spec : ∀ m : Fin 64,
    sextetOf (charOf m) = some m.val ∧ charOf m ≠ '\n' ∧ charOf m ≠ '\r' := by
  decide +kernel

theorem sextetOf_charOf {n : Nat} (h : n < 64) : sextetOf (charOf n) = some n :=
  (charOf_spec ⟨n, h⟩).1

theorem charOf_ne {n : Nat} (h : n < 64) : charOf n ≠ '\n' ∧ charOf n ≠ '\r' :=
  (charOf_spec ⟨n, h⟩).2

theorem sextetsOf_map {ns : List Nat} (h : ∀ n ∈ ns, n < 64) :
    sextetsOf (ns.map charOf) = some ns := by
  induction ns with
  | nil => rfl
  | cons n ns ih =>
    rw [List.map_cons, sextetsOf, sextetOf_charOf (h n (by simp)),
      ih fun m hm => h m (by simp [hm])]

theorem decode_encode (bytes : List UInt8) : decode (encode bytes) = some bytes := by
  unfold decode encode
  have hkeep : ((sextets bytes).map charOf).filter (fun c => c ≠ '\n' ∧ c ≠ '\r') =
      (sextets bytes).map charOf := by
    rw [List.filter_eq_self]
    intro c hc
    obtain ⟨n, hn, rfl⟩ := List.mem_map.1 hc
    exact decide_eq_true (charOf_ne (sextets_lt bytes n hn))
  rw [hkeep, sextetsOf_map (sextets_lt bytes)]
  exact bytesOf_sextets bytes

end Base64
