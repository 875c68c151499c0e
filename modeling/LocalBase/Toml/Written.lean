import LocalBase.Toml.Numbers

/-!
# What is written is read back

`Quote` and `Value` as the code has them, and the reader on what they write. A
string is quoted code point by code point, so it comes back if it is UTF-8.

The reader takes a value off the front of whatever follows it, so each kind is read
back before any rest that may come behind it, and an array by its items.
-/

namespace LocalBase.Toml

/-! ## UTF-8 -/

def isRune (r : Nat) : Bool := r < 0xD800 || (0xDFFF < r && r ≤ 0x10FFFF)

/-- How many bytes a code point has that begins with the byte. -/
def runeSize (b : UInt8) : Nat :=
  if b < 0x80 then 1 else if b < 0xE0 then 2 else if b < 0xF0 then 3 else 4

/-- What the bits of so many bytes write. -/
def codePoint (s : Bytes) : Nat → Nat
  | 1 => (s.headD 0).toNat
  | 2 => (s.headD 0).toNat % 0x20 * 0x40 + (s.getD 1 0).toNat % 0x40
  | 3 => (s.headD 0).toNat % 0x10 * 0x1000 + (s.getD 1 0).toNat % 0x40 * 0x40 +
      (s.getD 2 0).toNat % 0x40
  | _ => (s.headD 0).toNat % 8 * 0x40000 + (s.getD 1 0).toNat % 0x40 * 0x1000 +
      (s.getD 2 0).toNat % 0x40 * 0x40 + (s.getD 3 0).toNat % 0x40

/-- The code point at the front, with its number of bytes. Bytes that are out of
range, cut short or not the shortest encoding are the replacement character. -/
def decodeRune (s : Bytes) : Nat × Nat :=
  let n := runeSize (s.headD 0)
  let r := codePoint s n
  if isRune r ∧ encodeRune r = s.take n then (r, n) else (0xFFFD, 1)

/-- `range s` -/
def runes : Bytes → List Nat
  | [] => []
  | b :: s => (decodeRune (b :: s)).1 :: runes (s.drop ((decodeRune (b :: s)).2 - 1))
termination_by s => s.length
decreasing_by
  rw [List.length_drop, List.length_cons]
  omega

/-! ## Writing -/

def hexDigit (n : Nat) : UInt8 := UInt8.ofNat (if n < 10 then 48 + n else 55 + n)

def quoteRune (r : Nat) : Bytes :=
  if r = 34 then ascii "\\\""
  else if r = 92 then ascii "\\\\"
  else if r = 10 then ascii "\\n"
  else if r = 9 then ascii "\\t"
  else if r = 13 then ascii "\\r"
  else if r < 0x20 ∨ r = 0x7F then
    ascii "\\u" ++ [r / 0x1000 % 16, r / 0x100 % 16, r / 0x10 % 16, r % 16].map hexDigit
  else encodeRune r

def quote (s : Bytes) : Bytes := 34 :: ((runes s).flatMap quoteRune ++ [34])

def decimal (n : Nat) : Bytes :=
  if n < 10 then [hexDigit n] else decimal (n / 10) ++ [hexDigit (n % 10)]

/-- `FormatInt(n, 10)` -/
def formatInt (n : Int) : Bytes := if n < 0 then 45 :: decimal n.natAbs else decimal n.natAbs

mutual

/-- `Value`; `other` is the text of a number with a point, and of what is neither
a scalar nor an array. -/
def valueText (other : Value → Bytes) : Value → Bytes
  | .str s => quote s
  | .bool b => ascii (if b then "true" else "false")
  | .int n => formatInt n
  | .array items => 91 :: ((ascii ", ").intercalate (valueTexts other items) ++ [93])
  | v => other v

def valueTexts (other : Value → Bytes) : List Value → List Bytes
  | [] => []
  | v :: items => valueText other v :: valueTexts other items

end

/-! ## Code points -/

def ValidUtf8 (s : Bytes) : Prop :=
  ∃ rs : List Nat, (∀ r ∈ rs, isRune r) ∧ s = rs.flatMap encodeRune

/-- Strings of UTF-8, booleans, integers of 64 bits, and arrays of these. -/
inductive Plain : Value → Prop
  | str {s : Bytes} : ValidUtf8 s → Plain (.str s)
  | bool (b : Bool) : Plain (.bool b)
  | int {n : Int} : Fits n → Plain (.int n)
  | array {items : List Value} : (∀ v ∈ items, Plain v) → Plain (.array items)

section Runes

variable {r : Nat} {rs : List Nat} {s tail : Bytes}

theorem toNat_ofNat {n : Nat} (h : n < 256) : (UInt8.ofNat n).toNat = n :=
  Nat.mod_eq_of_lt h

theorem isRune_lt (h : isRune r) : r < 0x110000 := by
  simp only [isRune, Bool.or_eq_true, Bool.and_eq_true, decide_eq_true_eq] at h
  omega

theorem runeSize_ofNat {n : Nat} (h : n < 256) : runeSize (UInt8.ofNat n) =
    if n < 0x80 then 1 else if n < 0xE0 then 2 else if n < 0xF0 then 3 else 4 := by
  simp only [runeSize, UInt8.lt_iff_toNat_lt, toNat_ofNat h]
  rfl

theorem encodeRune_front (h : isRune r) (s : Bytes) :
    runeSize ((encodeRune r ++ s).headD 0) = (encodeRune r).length ∧
      codePoint (encodeRune r ++ s) (encodeRune r).length = r := by
  have hlt := isRune_lt h
  rw [encodeRune]
  split_ifs with h₁ h₂ h₃
  · simp only [List.map_cons, List.map_nil, List.cons_append, List.headD_cons, codePoint,
      List.length_cons, List.length_nil]
    rw [runeSize_ofNat (by omega), toNat_ofNat (by omega), if_pos h₁]
    exact ⟨rfl, rfl⟩
  · simp only [List.map_cons, List.map_nil, List.cons_append, List.headD_cons, codePoint,
      List.length_cons, List.length_nil, List.getD_cons_succ, List.getD_cons_zero]
    rw [runeSize_ofNat (by omega), toNat_ofNat (by omega), toNat_ofNat (by omega)]
    refine ⟨?_, by omega⟩
    rw [if_neg (by omega), if_pos (by omega)]
  · simp only [List.map_cons, List.map_nil, List.cons_append, List.headD_cons, codePoint,
      List.length_cons, List.length_nil, List.getD_cons_succ, List.getD_cons_zero]
    rw [runeSize_ofNat (by omega), toNat_ofNat (by omega), toNat_ofNat (by omega),
      toNat_ofNat (by omega)]
    refine ⟨?_, by omega⟩
    rw [if_neg (by omega), if_neg (by omega), if_pos (by omega)]
  · simp only [List.map_cons, List.map_nil, List.cons_append, List.headD_cons, codePoint,
      List.length_cons, List.length_nil, List.getD_cons_succ, List.getD_cons_zero]
    rw [runeSize_ofNat (by omega), toNat_ofNat (by omega), toNat_ofNat (by omega),
      toNat_ofNat (by omega), toNat_ofNat (by omega)]
    refine ⟨?_, by omega⟩
    rw [if_neg (by omega), if_neg (by omega), if_neg (by omega)]

theorem decodeRune_encode (h : isRune r) (s : Bytes) :
    decodeRune (encodeRune r ++ s) = (r, (encodeRune r).length) := by
  obtain ⟨hsize, hpoint⟩ := encodeRune_front h s
  rw [decodeRune]
  rw [hsize, hpoint, if_pos ⟨h, List.take_left.symm⟩]

theorem encodeRune_pos : 0 < (encodeRune r).length := by
  rw [encodeRune]
  split_ifs <;> exact Nat.succ_pos _

theorem runes_encode (h : ∀ r ∈ rs, isRune r) : runes (rs.flatMap encodeRune) = rs := by
  induction rs with
  | nil => rw [List.flatMap_nil, runes]
  | cons r rs ih =>
    obtain ⟨hr, hrs⟩ := List.forall_mem_cons.mp h
    rw [List.flatMap_cons]
    have hpos := encodeRune_pos (r := r)
    obtain ⟨b, l, hbytes⟩ := List.exists_cons_of_length_pos hpos
    have hdecode := decodeRune_encode hr (rs.flatMap encodeRune)
    rw [hbytes, List.cons_append] at hdecode
    rw [hbytes, List.cons_append, runes, hdecode]
    simp only [List.length_cons, Nat.add_sub_cancel, List.drop_left]
    rw [ih hrs]

/-! ## Strings -/

/-- A byte that a basic string has as it is. -/
def isPlainByte (b : UInt8) : Bool := b ≠ newline && b ≠ 34 && b ≠ 92

theorem basicBody_cons {n line : Nat} {read : Bytes} {b : UInt8} :
    basicBody (n + 1) read ⟨b :: s, line⟩ =
      if b = newline then Cursor.fail ⟨b :: s, line⟩ .unterminatedString
      else if b = 34 then .ok (read, ⟨s, line⟩)
      else if b = 92 then escape ⟨b :: s, line⟩ >>= fun p => basicBody n (read ++ p.1) p.2
      else basicBody n (read ++ [b]) ⟨s, line⟩ := rfl

theorem basicBody_plain {n line : Nat} {read : Bytes} (h : ∀ b ∈ s, isPlainByte b) :
    basicBody (n + s.length) read ⟨s ++ tail, line⟩ = basicBody n (read ++ s) ⟨tail, line⟩ := by
  induction s generalizing read with
  | nil =>
    rw [List.append_nil]
    rfl
  | cons b s ih =>
    obtain ⟨hb, hs⟩ := List.forall_mem_cons.mp h
    simp only [isPlainByte, Bool.and_eq_true, decide_eq_true_eq] at hb
    rw [List.length_cons, ← Nat.add_assoc, List.cons_append, basicBody_cons, if_neg hb.1.1,
      if_neg hb.1.2, if_neg hb.2, ih hs, List.append_assoc]
    rfl

theorem encodeRune_plain (h : isRune r) (h₁ : r ≠ 10) (h₂ : r ≠ 34) (h₃ : r ≠ 92) :
    ∀ b ∈ encodeRune r, isPlainByte b := by
  have hlt := isRune_lt h
  have hplain {n : Nat} (hn : n < 256) (hne : n ≠ 10 ∧ n ≠ 34 ∧ n ≠ 92) :
      isPlainByte (UInt8.ofNat n) := by
    simp only [isPlainByte, newline, Bool.and_eq_true, decide_eq_true_eq, ne_eq,
      ← UInt8.toNat_inj, toNat_ofNat hn]
    exact ⟨⟨hne.1, hne.2.1⟩, hne.2.2⟩
  rw [encodeRune, List.forall_mem_map]
  split_ifs with h₁ h₂ h₃
  all_goals
    simp only [List.forall_mem_cons, List.not_mem_nil, false_implies, implies_true, and_true]
  · exact hplain (by omega) (by omega)
  · exact ⟨hplain (by omega) (by omega), hplain (by omega) (by omega)⟩
  · exact ⟨hplain (by omega) (by omega), hplain (by omega) (by omega),
      hplain (by omega) (by omega)⟩
  · exact ⟨hplain (by omega) (by omega), hplain (by omega) (by omega),
      hplain (by omega) (by omega), hplain (by omega) (by omega)⟩

theorem parseRune_hex (h : r < 0x80) :
    parseRune ([r / 0x1000 % 16, r / 0x100 % 16, r / 0x10 % 16, r % 16].map hexDigit) = some r := by
  have hall : ∀ r < 0x80, parseRune ([r / 0x1000 % 16, r / 0x100 % 16, r / 0x10 % 16,
      r % 16].map hexDigit) = some r := by decide
  exact hall r h

theorem escape_unit {a b c d : UInt8} {line : Nat} (h : parseRune [a, b, c, d] = some r) :
    escape ⟨92 :: 117 :: a :: b :: c :: d :: tail, line⟩ = .ok (encodeRune r, ⟨tail, line⟩) := by
  simp [escape, Cursor.advance, h]

theorem quoteRune_read (h : isRune r) (line : Nat) : ∃ k ≤ (quoteRune r).length,
    ∀ n read tail, basicBody (n + k) read ⟨quoteRune r ++ tail, line⟩ =
      basicBody n (read ++ encodeRune r) ⟨tail, line⟩ := by
  rw [quoteRune]
  split_ifs with h₁ h₂ h₃ h₄ h₅ h₆
  · exact ⟨1, by decide, fun n read tail => by subst h₁; rfl⟩
  · exact ⟨1, by decide, fun n read tail => by subst h₂; rfl⟩
  · exact ⟨1, by decide, fun n read tail => by subst h₃; rfl⟩
  · exact ⟨1, by decide, fun n read tail => by subst h₄; rfl⟩
  · exact ⟨1, by decide, fun n read tail => by subst h₅; rfl⟩
  · refine ⟨1, Nat.succ_pos _, fun n read tail => ?_⟩
    have hrune := parseRune_hex (r := r) (by omega)
    exact congrArg (· >>= fun p => basicBody n (read ++ p.1) p.2) (escape_unit hrune)
  · exact ⟨_, le_refl _, fun n read tail => basicBody_plain (encodeRune_plain h h₃ h₁ h₂)⟩

theorem quoteRunes_read (h : ∀ r ∈ rs, isRune r) (line : Nat) :
    ∃ k ≤ (rs.flatMap quoteRune).length, ∀ n read tail,
      basicBody (n + k) read ⟨rs.flatMap quoteRune ++ tail, line⟩ =
        basicBody n (read ++ rs.flatMap encodeRune) ⟨tail, line⟩ := by
  induction rs with
  | nil =>
    refine ⟨0, le_refl _, fun n read tail => ?_⟩
    rw [List.flatMap_nil, List.flatMap_nil, List.append_nil]
    rfl
  | cons r rs ih =>
    obtain ⟨hr, hrs⟩ := List.forall_mem_cons.mp h
    obtain ⟨k, hk, hread⟩ := quoteRune_read hr line
    obtain ⟨k', hk', hread'⟩ := ih hrs
    refine ⟨k' + k, ?_, fun n read tail => ?_⟩
    · rw [List.flatMap_cons, List.length_append]
      omega
    · rw [List.flatMap_cons, List.flatMap_cons, List.append_assoc, ← Nat.add_assoc, hread,
        hread', List.append_assoc]

theorem quote_eq (h : ∀ r ∈ rs, isRune r) :
    quote (rs.flatMap encodeRune) = 34 :: (rs.flatMap quoteRune ++ [34]) := by
  rw [quote, runes_encode h]

theorem quote_read (h : ∀ r ∈ rs, isRune r) (tail : Bytes) (line : Nat) :
    basicString ⟨quote (rs.flatMap encodeRune) ++ tail, line⟩ =
      .ok (rs.flatMap encodeRune, ⟨tail, line⟩) := by
  obtain ⟨k, hk, hread⟩ := quoteRunes_read h line
  have hstart : (⟨quote (rs.flatMap encodeRune) ++ tail, line⟩ : Cursor).advance 1 =
      ⟨rs.flatMap quoteRune ++ 34 :: tail, line⟩ := by
    rw [quote_eq h]
    simp [Cursor.advance]
  have hlen : k + 1 ≤ (quote (rs.flatMap encodeRune) ++ tail).length + 1 := by
    rw [quote_eq h]
    simp only [List.cons_append, List.length_cons, List.length_append]
    omega
  obtain ⟨n, hn⟩ := Nat.exists_eq_add_of_le hlen
  rw [basicString, hstart, hn, show k + 1 + n = n + 1 + k by omega, hread]
  rfl

theorem quoteRune_head (h : isRune r) (s : Bytes) :
    ∃ b, (quoteRune r ++ s).head? = some b ∧ b ≠ 34 := by
  rw [quoteRune]
  split_ifs with h₁ h₂ h₃ h₄ h₅ h₆
  · exact ⟨92, rfl, by decide⟩
  · exact ⟨92, rfl, by decide⟩
  · exact ⟨92, rfl, by decide⟩
  · exact ⟨92, rfl, by decide⟩
  · exact ⟨92, rfl, by decide⟩
  · exact ⟨92, rfl, by decide⟩
  · obtain ⟨b, l, hbytes⟩ := List.exists_cons_of_length_pos (encodeRune_pos (r := r))
    have hplain := encodeRune_plain h h₃ h₁ h₂ b (hbytes ▸ List.mem_cons_self)
    simp only [isPlainByte, Bool.and_eq_true, decide_eq_true_eq] at hplain
    exact ⟨b, by rw [hbytes]; rfl, hplain.1.2⟩

theorem quote_value {f line : Nat} (h : ∀ r ∈ rs, isRune r) (hend : tail.head? ≠ some 34) :
    value (f + 1) ⟨quote (rs.flatMap encodeRune) ++ tail, line⟩ =
      .ok (.str (rs.flatMap encodeRune), ⟨tail, line⟩) := by
  have hthree : [34, 34, 34].isPrefixOf (quote (rs.flatMap encodeRune) ++ tail) = false := by
    rw [Bool.eq_false_iff]
    intro hpre
    obtain ⟨l, hl⟩ := List.isPrefixOf_iff_prefix.mp hpre
    rw [quote_eq h] at hl
    have hl : [34, 34] ++ l = rs.flatMap quoteRune ++ ([34] ++ tail) := by
      rw [← List.append_assoc]
      exact (List.cons.inj hl).2
    cases rs with
    | nil =>
      have htail : [34] ++ l = tail := (List.cons.inj hl).2
      exact hend (by rw [← htail]; rfl)
    | cons r rs =>
      rw [List.flatMap_cons, List.append_assoc] at hl
      obtain ⟨b, hb, hne⟩ := quoteRune_head (List.forall_mem_cons.mp h).1
        (rs.flatMap quoteRune ++ ([34] ++ tail))
      rw [← hl] at hb
      exact hne (Option.some.inj hb).symm
  have hpeek : (⟨quote (rs.flatMap encodeRune) ++ tail, line⟩ : Cursor).peek = 34 := rfl
  rw [value]
  dsimp only
  rw [if_pos hpeek, hthree, if_neg Bool.false_ne_true, quote_read h]
  rfl

end Runes

/-! ## Integers -/

section Integers

variable {n d : Nat} {b : UInt8} {m : Int} {tail : Bytes}

theorem hexDigit_number (h : d < 10) :
    digit 10 (hexDigit d) = some d ∧ isNumberByte (hexDigit d) ∧ hexDigit d ≠ 95 := by
  have hall : ∀ d < 10, digit 10 (hexDigit d) = some d ∧ isNumberByte (hexDigit d) ∧
      hexDigit d ≠ 95 := by decide
  exact hall d h

theorem mem_decimal (h : b ∈ decimal n) : ∃ d < 10, b = hexDigit d := by
  induction n using Nat.strong_induction_on with
  | _ n ih =>
    rw [decimal] at h
    split_ifs at h with hn
    · exact ⟨n, hn, List.mem_singleton.mp h⟩
    · rcases List.mem_append.mp h with h | h
      · exact ih (n / 10) (by omega) h
      · exact ⟨n % 10, by omega, List.mem_singleton.mp h⟩

theorem digits_decimal : digits 10 (decimal n) = some n := by
  have hne : decimal n ≠ [] := by
    rw [decimal]
    split_ifs
    · exact List.cons_ne_nil _ _
    · exact List.append_ne_nil_of_right_ne_nil _ (List.cons_ne_nil _ _)
  rw [digits, if_neg hne]
  clear hne
  induction n using Nat.strong_induction_on with
  | _ n ih =>
    rw [decimal]
    split_ifs with hn
    · rw [List.foldl_cons, (hexDigit_number hn).1]
      exact congrArg some (by omega)
    · rw [List.foldl_append, ih (n / 10) (by omega), List.foldl_cons,
        (hexDigit_number (by omega)).1]
      exact congrArg some (by omega)

theorem isDigitOf_decimal (h : b ∈ decimal n) : isDigitOf 10 b := by
  obtain ⟨d, hd, rfl⟩ := mem_decimal h
  rw [isDigitOf, (hexDigit_number hd).1]
  rfl

theorem formatInt_bytes (h : b ∈ formatInt m) :
    isNumberByte b ∧ b ≠ 95 ∧ (isDigitOf 10 b ∨ b = 43 ∨ b = 45) := by
  have hdecimal (h : b ∈ decimal m.natAbs) :
      isNumberByte b ∧ b ≠ 95 ∧ (isDigitOf 10 b ∨ b = 43 ∨ b = 45) := by
    have hdigit := isDigitOf_decimal h
    obtain ⟨d, hd, rfl⟩ := mem_decimal h
    exact ⟨(hexDigit_number hd).2.1, (hexDigit_number hd).2.2, .inl hdigit⟩
  rw [formatInt] at h
  split_ifs at h
  · rcases List.mem_cons.mp h with rfl | h
    · decide
    · exact hdecimal h
  · exact hdecimal h

theorem formatInt_taken (h : Fits m) : takenFor (bare (formatInt m)) = some m := by
  have hbare : bare (formatInt m) = formatInt m :=
    List.filter_eq_self.mpr fun b hb => decide_eq_true (formatInt_bytes hb).2.1
  rw [hbare, takenFor_decimal fun b hb => (formatInt_bytes hb).2.2, parseInt_eq_some]
  refine ⟨m.natAbs, ?_⟩
  by_cases hm : m < 0
  · have hsign : sign (formatInt m) = (true, decimal m.natAbs) := by
      rw [formatInt, if_pos hm]
      rfl
    rw [hsign, if_pos rfl]
    exact ⟨digits_decimal, by omega, h⟩
  · have hsign : sign (formatInt m) = (false, decimal m.natAbs) := by
      rw [formatInt, if_neg hm]
      exact sign_digits (fun b hb => isDigitOf_decimal hb) (by decide)
    rw [hsign, if_neg Bool.false_ne_true]
    exact ⟨digits_decimal, by omega, h⟩

theorem formatInt_value {f line : Nat} (h : Fits m) (hend : Ends tail) :
    value (f + 1) ⟨formatInt m ++ tail, line⟩ = .ok (.int m, ⟨tail, line⟩) := by
  have hbytes : ∀ b ∈ formatInt m, isNumberByte b := fun b hb => (formatInt_bytes hb).1
  rw [value_token hbytes hend, number_int hbytes hend]
  exact ⟨formatInt_taken h, rfl⟩

end Integers

/-! ## Values -/

section Values

variable {other : Value → Bytes} {v : Value} {items out : List Value} {tail : Bytes}
  {f line : Nat}

/-- Neither a space, a comment nor the end of an array. -/
def Starts (s : Bytes) : Prop :=
  ∃ b, s.head? = some b ∧ b ∉ ([32, 9, 13, 10, 35, 93] : Bytes)

theorem formatInt_starts (m : Int) : Starts (formatInt m) := by
  have hne : formatInt m ≠ [] := by
    rw [formatInt]
    split_ifs
    · exact List.cons_ne_nil _ _
    · intro hnil
      have := digits_decimal (n := m.natAbs)
      rw [hnil] at this
      cases this
  obtain ⟨b, s, hs⟩ := List.exists_cons_of_ne_nil hne
  have hb := (formatInt_bytes (m := m) (b := b) (hs ▸ List.mem_cons_self)).1
  have hmarks : ∀ b ∈ ([32, 9, 13, 10, 35, 93] : Bytes), ¬ isNumberByte b :=
    List.all_iff_forall_prop.mp rfl
  exact ⟨b, by rw [hs]; rfl, fun h => hmarks b h hb⟩

theorem valueText_starts (other : Value → Bytes) (h : Plain v) : Starts (valueText other v) := by
  cases h with
  | str _ =>
    rw [valueText]
    exact ⟨34, rfl, by decide⟩
  | bool b =>
    rw [valueText]
    cases b
    · exact ⟨102, rfl, by decide⟩
    · exact ⟨116, rfl, by decide⟩
  | @int n _ =>
    rw [valueText]
    exact formatInt_starts n
  | array _ =>
    rw [valueText]
    exact ⟨91, rfl, by decide⟩

theorem skipBlank_starts {s : Bytes} (h : Starts s) :
    skipBlank ⟨s ++ tail, line⟩ = ⟨s ++ tail, line⟩ := by
  obtain ⟨b, hb, hnot⟩ := h
  obtain ⟨s, rfl⟩ := List.head?_eq_some_iff.mp hb
  simp only [List.mem_cons, List.not_mem_nil, or_false, not_or] at hnot
  simp [skipBlank, skipLines, newline, isBlank, hnot]

theorem skipBlank_space {s : Bytes} : skipBlank ⟨32 :: s, line⟩ = skipBlank ⟨s, line⟩ := rfl

theorem arrayItems_space {s : Bytes} :
    arrayItems f out ⟨32 :: s, line⟩ = arrayItems f out ⟨s, line⟩ := by
  cases f with
  | zero => rw [arrayItems, arrayItems]
  | succ f => rw [arrayItems, arrayItems, skipBlank_space]

theorem arrayItems_item (hv : Plain v) {c : Cursor}
    (hread : value f ⟨valueText other v ++ tail, line⟩ = .ok (v, c)) :
    arrayItems (f + 1) out ⟨valueText other v ++ tail, line⟩ =
      if (skipBlank c).peek = 44 then arrayItems f (out ++ [v]) ((skipBlank c).advance 1)
      else if (skipBlank c).peek = 93 then .ok (.array (out ++ [v]), (skipBlank c).advance 1)
      else (skipBlank c).fail .arrayItem := by
  have hstarts := valueText_starts other hv
  have hpeek : (⟨valueText other v ++ tail, line⟩ : Cursor).peek ≠ 93 := by
    obtain ⟨b, hb, hnot⟩ := hstarts
    obtain ⟨s, hs⟩ := List.head?_eq_some_iff.mp hb
    simp only [List.mem_cons, List.not_mem_nil, or_false, not_or] at hnot
    rw [hs]
    exact hnot.2.2.2.2.2
  rw [arrayItems, skipBlank_starts hstarts]
  dsimp only
  rw [if_neg hpeek, hread]
  rfl

theorem ends_comma : Ends (44 :: tail) := by
  rintro b ⟨⟩
  decide

theorem ends_bracket : Ends (93 :: tail) := by
  rintro b ⟨⟩
  decide

theorem Ends.not_quote (h : Ends tail) : tail.head? ≠ some 34 := fun hhead =>
  absurd (h 34 hhead) (by decide)

/-- A value that is read back from its text, whatever follows. -/
def ReadBack (other : Value → Bytes) (v : Value) : Prop :=
  ∀ f tail line, Ends tail → 2 * (valueText other v).length ≤ f →
    value f ⟨valueText other v ++ tail, line⟩ = .ok (v, ⟨tail, line⟩)

theorem arrayItems_read (hplain : ∀ v ∈ items, Plain v) (hread : ∀ v ∈ items, ReadBack other v)
    (hf : 2 * ((ascii ", ").intercalate (valueTexts other items)).length + 3 ≤ f) :
    arrayItems f out ⟨(ascii ", ").intercalate (valueTexts other items) ++ 93 :: tail, line⟩ =
      .ok (.array (out ++ items), ⟨tail, line⟩) := by
  induction items generalizing f out with
  | nil =>
    obtain ⟨f, rfl⟩ := Nat.exists_eq_add_of_le' (show 1 ≤ f by omega)
    rw [List.append_nil]
    rfl
  | cons v items ih =>
    obtain ⟨hv, hitems⟩ := List.forall_mem_cons.mp hplain
    obtain ⟨hback, hbacks⟩ := List.forall_mem_cons.mp hread
    obtain ⟨f, rfl⟩ := Nat.exists_eq_add_of_le' (show 1 ≤ f by omega)
    cases items with
    | nil =>
      rw [valueTexts, valueTexts, List.intercalate_singleton] at hf ⊢
      rw [arrayItems_item hv (hback f _ line ends_bracket (by omega))]
      rfl
    | cons w items =>
      have hjoined : (ascii ", ").intercalate (valueTexts other (v :: w :: items)) =
          valueText other v ++ 44 :: 32 ::
            (ascii ", ").intercalate (valueTexts other (w :: items)) := by
        simp [valueTexts, List.intercalate, ascii]
      rw [hjoined] at hf ⊢
      simp only [List.length_append, List.length_cons] at hf
      rw [List.append_assoc, List.cons_append, List.cons_append,
        arrayItems_item hv (hback f _ line ends_comma (by omega))]
      show arrayItems f (out ++ [v]) ⟨32 :: _, line⟩ = _
      rw [arrayItems_space, ih hitems hbacks (by omega), List.append_assoc]
      rfl

theorem valueText_pos (other : Value → Bytes) (h : Plain v) : 0 < (valueText other v).length := by
  obtain ⟨b, hb, _⟩ := valueText_starts other h
  exact List.length_pos_of_ne_nil (by rintro hnil; rw [hnil] at hb; cases hb)

theorem readBack (h : Plain v) : ReadBack other v := by
  induction h with
  | @str s hs =>
    intro f tail line hend hf
    obtain ⟨rs, hrs, rfl⟩ := hs
    rw [valueText] at hf ⊢
    obtain ⟨f, rfl⟩ := Nat.exists_eq_add_of_le' (show 1 ≤ f by simp [quote] at hf; omega)
    exact quote_value hrs hend.not_quote
  | bool b =>
    intro f tail line _ hf
    rw [valueText] at hf ⊢
    cases b
    all_goals
      obtain ⟨f, rfl⟩ := Nat.exists_eq_add_of_le' (show 1 ≤ f from le_trans (by decide) hf)
      rw [value]
      rfl
  | @int n hn =>
    intro f tail line hend hf
    have hpos := valueText_pos other (Plain.int hn)
    rw [valueText] at hf hpos ⊢
    obtain ⟨f, rfl⟩ := Nat.exists_eq_add_of_le' (show 1 ≤ f by omega)
    exact formatInt_value hn hend
  | @array items hplain ih =>
    intro f tail line hend hf
    rw [valueText] at hf ⊢
    rw [List.length_cons, List.length_append, List.length_singleton] at hf
    obtain ⟨f, rfl⟩ := Nat.exists_eq_add_of_le' (show 1 ≤ f by omega)
    rw [value]
    show arrayItems f [] ⟨(_ ++ [93]) ++ tail, line⟩ = _
    rw [List.append_assoc]
    exact arrayItems_read hplain ih (by omega)

end Values

/-- A document of a value that is written is that value. -/
theorem parse_valueText {v : Value} (h : Plain v) (other : Value → Bytes) :
    parse (line (valueText other v)) = .ok [(ascii "k", v)] := by
  refine parse_line ?_ (readBack h _ _ _ ends_newline ?_)
  · obtain ⟨b, hb, hnot⟩ := valueText_starts other h
    obtain ⟨s, hs⟩ := List.head?_eq_some_iff.mp hb
    simp only [List.mem_cons, List.not_mem_nil, or_false, not_or] at hnot
    simp [hs, isBlank, hnot]
  · simp only [line, List.length_append]
    omega

/-- A quote, a delete and a code point of four bytes, in an array in an array. -/
theorem nested_read : parse (line (valueText (fun _ => [])
    (.array [.array [.str [34, 0x7F, 0xF0, 0x9F, 0x98, 0x80], .bool true], .int (-7)]))) =
    .ok [(ascii "k", .array [.array [.str [34, 0x7F, 0xF0, 0x9F, 0x98, 0x80], .bool true],
      .int (-7)])] := by
  have hstring : ValidUtf8 [34, 0x7F, 0xF0, 0x9F, 0x98, 0x80] :=
    ⟨[34, 0x7F, 0x1F600], by decide, by decide⟩
  have hinner : ∀ v ∈ [Value.str [34, 0x7F, 0xF0, 0x9F, 0x98, 0x80], .bool true], Plain v :=
    List.forall_mem_cons.mpr ⟨.str hstring, List.forall_mem_singleton.mpr (.bool true)⟩
  exact parse_valueText (.array (List.forall_mem_cons.mpr ⟨.array hinner,
    List.forall_mem_singleton.mpr (.int (by simp [Fits]))⟩)) _

end LocalBase.Toml
