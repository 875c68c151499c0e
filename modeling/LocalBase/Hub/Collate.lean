import Mathlib.Algebra.Order.Group.Int
import Mathlib.Data.List.Basic
import Mathlib.Tactic.IntervalCases

/-!
# The order of file names

Names are ordered as a browser orders them: by what letters, digits and marks they are
made of, and only then by the case of the letters. What is not ASCII is ordered by what
Unicode says of it, which is left open.
-/

namespace LocalBase.Hub

structure Unicode where
  isLetter : Char → Bool
  isDigit : Char → Bool
  toLower : Char → Char

def order : List Char :=
  (" _-,;:!?.'\"()[]\x7b\x7d@*/\\&#%`^+<=>|~$0123456789" ++
    "aAbBcCdDeEfFgGhHiIjJkKlLmMnNoOpPqQrRsStTuUvVwWxXyYzZ").toList

def primary (c : Char) : Option Nat := order.idxOf? (if c.isUpper then c.toLower else c)

section
variable (u : Unicode)

/-- What a character is, and its case. -/
def weight (c : Char) : Int × Int :=
  match primary c with
  | some i => (i, if c.isUpper then 1 else 0)
  | none =>
    if u.isLetter c then
      (1000 + (u.toLower c).toNat, if u.toLower c ≠ c then 1 else 0)
    else if u.isDigit c then (900, 0)
    else (0, 0)

/-- `compare`, by one of the two weights. -/
def compareBy (w : Char → Int) : List Char → List Char → Int
  | a :: as, b :: bs => if w a ≠ w b then w a - w b else compareBy w as bs
  | as, bs => as.length - bs.length

/-- `Compare`. -/
def compare (a b : List Char) : Int :=
  let c := compareBy (fun r => (weight u r).1) a b
  if c ≠ 0 then c else compareBy (fun r => (weight u r).2) a b

/-! ## Numbers in names -/

theorem compareBy_self (w : Char → Int) (a : List Char) : compareBy w a a = 0 := by
  induction a with
  | nil => rfl
  | cons c a ih =>
    rw [compareBy, if_neg (not_not.2 rfl), ih]

theorem compare_self (a : List Char) : compare u a a = 0 := by
  unfold compare
  rw [compareBy_self, compareBy_self]
  rfl

theorem compareBy_swap (w : Char → Int) (a b : List Char) :
    compareBy w b a = -compareBy w a b := by
  induction a generalizing b with
  | nil =>
    cases b with
    | nil => rfl
    | cons d b =>
      rw [compareBy, compareBy, Int.neg_sub]
      · exact nofun
      · exact nofun
  | cons c a ih =>
    cases b with
    | nil =>
      rw [compareBy, compareBy, Int.neg_sub]
      · exact nofun
      · exact nofun
    | cons d b =>
      rw [compareBy, compareBy, ih]
      split_ifs with hd hc hc
      · exact (Int.neg_sub _ _).symm
      · exact absurd hd.symm hc
      · exact absurd hc.symm hd
      · rfl

theorem compare_swap (a b : List Char) : compare u b a = -compare u a b := by
  unfold compare
  rw [compareBy_swap _ a b, compareBy_swap _ a b]
  dsimp only
  split_ifs with hb ha ha
  · rfl
  · exact absurd (neg_ne_zero.1 hb) ha
  · exact absurd (neg_ne_zero.2 ha) hb
  · rfl

theorem compareBy_append (w : Char → Int) (p a b : List Char) :
    compareBy w (p ++ a) (p ++ b) = compareBy w a b := by
  induction p with
  | nil => rfl
  | cons c p ih =>
    rw [List.cons_append, List.cons_append, compareBy, if_neg (not_not.2 rfl), ih]

theorem weight_digit {c : Char} (h : c.isDigit) :
    (weight u c).1 = 33 + ((c.toNat - 48 : Nat) : Int) := by
  have hc : c = Char.ofNat c.toNat := (Char.ofNat_toNat c).symm
  obtain ⟨hlow, hhigh⟩ : 48 ≤ c.toNat ∧ c.toNat ≤ 57 := by
    simpa [Char.isDigit, UInt32.le_iff_toNat_le] using h
  generalize c.toNat = n at hc hlow hhigh
  subst hc
  interval_cases n <;> rfl

/-- The number that digits write. -/
def decimal (ds : List Char) : Nat := Nat.ofDigitChars 10 ds 0

theorem decimal_cons (c : Char) (ds : List Char) :
    decimal (c :: ds) = 10 ^ ds.length * (c.toNat - 48) + decimal ds := by
  rw [decimal, Nat.ofDigitChars_cons, Nat.ofDigitChars_eq_ofDigitChars_zero, decimal,
    Nat.mul_zero, Nat.zero_add]
  rfl

theorem decimal_lt {ds : List Char} (h : ds.all Char.isDigit) : decimal ds < 10 ^ ds.length := by
  induction ds with
  | nil => exact Nat.one_pos
  | cons c ds ih =>
    obtain ⟨hc, hds⟩ := Bool.and_eq_true_iff.1 h
    have hdigit : c.toNat - 48 ≤ 9 := by
      have : c.toNat ≤ 57 := by
        have := (Bool.and_eq_true_iff.1 hc).2
        simpa [UInt32.le_iff_toNat_le] using this
      omega
    have hhead := Nat.mul_le_mul_left (10 ^ ds.length) hdigit
    have hrest := ih hds
    rw [decimal_cons, List.length_cons, Nat.pow_succ]
    omega

theorem compareBy_decimal {ds es : List Char} (x y : List Char) (hds : ds.all Char.isDigit)
    (hes : es.all Char.isDigit) (hlength : ds.length = es.length) (h : decimal ds < decimal es) :
    compareBy (fun r => (weight u r).1) (ds ++ x) (es ++ y) < 0 := by
  induction ds generalizing es with
  | nil =>
    rw [List.length_eq_zero_iff.1 hlength.symm] at h
    exact absurd h (Nat.lt_irrefl _)
  | cons d ds ih =>
    cases es with
    | nil => cases hlength
    | cons e es =>
      obtain ⟨hd, hds⟩ := Bool.and_eq_true_iff.1 hds
      obtain ⟨he, hes⟩ := Bool.and_eq_true_iff.1 hes
      have hlength : ds.length = es.length := Nat.succ.inj hlength
      have hwd := weight_digit u hd
      have hwe := weight_digit u he
      have hbound := decimal_lt hes
      rw [decimal_cons, decimal_cons, hlength] at h
      rw [List.cons_append, List.cons_append, compareBy]
      split
      · next hne =>
        rw [hwd, hwe] at hne ⊢
        have hlt : d.toNat - 48 < e.toNat - 48 := by
          by_contra hle
          have hgt : e.toNat - 48 + 1 ≤ d.toNat - 48 := by omega
          have hmul := Nat.mul_le_mul_left (10 ^ es.length) hgt
          rw [Nat.mul_add] at hmul
          omega
        omega
      · next heq =>
        rw [hwd, hwe] at heq
        have hsame : d.toNat - 48 = e.toNat - 48 := by omega
        rw [hsame] at h
        exact ih hds hes hlength (by omega)

end

end LocalBase.Hub
