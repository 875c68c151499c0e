import Mathlib.Data.List.Sort
import Mathlib.Data.Rat.Defs
import Mathlib.Tactic.IntervalCases
import LocalBase.Lib.Code

/-!
# Decoded JSON

The values `encoding/json` decodes to: a number keeps its text, as `UseNumber`
has it, and an object is a map. A map is written here as its entries; only what
a lookup finds and what a range visits is ever read off it.

What the checks call in Go's library and this development does not embed is
gathered in `Go`: how a number's text reads as a `float64`, which patterns
compile, and in which order a range visits a map, a new one each time.
-/

namespace LocalBase.StructuredOutput

/-- A number's text, and the number it denotes. -/
structure Number where
  text : String
  value : ℚ
  deriving DecidableEq

inductive Json
  | null
  | bool (b : Bool)
  | num (n : Number)
  | str (s : String)
  | arr (xs : List Json)
  | obj (m : List (String × Json))

abbrev Object := List (String × Json)

structure Go where
  /-- `Float64` of a `json.Number`, which fails out of range. -/
  float64 : Number → Option ℚ
  /-- Whether `regexp.Compile` takes a pattern. -/
  compiles : String → Bool
  /-- The order of a range over a map, the `n`-th time. -/
  range : Nat → Object → Object
  range_perm : ∀ n m, (range n m).Perm m

variable {v : Json}

namespace Json

/-! Go's type assertions. -/

def object? : Json → Option Object
  | .obj m => some m
  | _ => none

def array? : Json → Option (List Json)
  | .arr xs => some xs
  | _ => none

def string? : Json → Option String
  | .str s => some s
  | _ => none

@[simp] theorem object?_eq_some {m : Object} :
    v.object? = some m ↔ v = .obj m := by
  cases v <;> simp [object?]

@[simp] theorem array?_eq_some {xs : List Json} :
    v.array? = some xs ↔ v = .arr xs := by
  cases v <;> simp [array?]

@[simp] theorem string?_eq_some {s : String} :
    v.string? = some s ↔ v = .str s := by
  cases v <;> simp [string?]

end Json

/-- `s[k].(map[string]any)`, and the like below. -/
def Object.object? (s : Object) (k : String) : Option Object :=
  (s.lookup k).bind Json.object?

def Object.array? (s : Object) (k : String) : Option (List Json) :=
  (s.lookup k).bind Json.array?

def Object.string? (s : Object) (k : String) : Option String :=
  (s.lookup k).bind Json.string?

def Object.has (s : Object) (k : String) : Bool := (s.lookup k).isSome

variable {k : String} {s : Object}

theorem Object.object?_eq_some {m : Object} :
    s.object? k = some m ↔ s.lookup k = some (.obj m) := by
  simp [Object.object?, Option.bind_eq_some_iff]

theorem Object.array?_eq_some {xs : List Json} :
    s.array? k = some xs ↔ s.lookup k = some (.arr xs) := by
  simp [Object.array?, Option.bind_eq_some_iff]

theorem Object.string?_eq_some {t : String} :
    s.string? k = some t ↔ s.lookup k = some (.str t) := by
  simp [Object.string?, Option.bind_eq_some_iff]

theorem mem_of_lookup (h : s.lookup k = some v) : (k, v) ∈ s := by
  obtain ⟨l, l', rfl, _⟩ := List.lookup_eq_some_iff.mp h
  exact List.mem_append_right _ List.mem_cons_self

def sortedKeys (s : Object) : List String := (s.map (·.1)).insertionSort (· ≤ ·)

theorem mem_sortedKeys (h : s.lookup k = some v) :
    k ∈ sortedKeys s := by
  rw [sortedKeys, List.mem_insertionSort]
  exact List.mem_map_of_mem (mem_of_lookup h)

/-- `number`. -/
def number (go : Go) : Json → Option ℚ
  | .num n => go.float64 n
  | _ => none

/-! ## `json.Marshal` -/

/-- A lower-case hexadecimal digit. -/
def hexDigit (n : Nat) : Char := Char.ofNat (if n < 10 then 48 + n else 87 + n)

/-- A character of a string, as `Marshal` writes it (with HTML escaped). -/
def escape (c : Char) : List Char :=
  match c.toNat with
  | 34 | 92 => ['\\', c]
  | 8 => ['\\', 'b']
  | 9 => ['\\', 't']
  | 10 => ['\\', 'n']
  | 12 => ['\\', 'f']
  | 13 => ['\\', 'r']
  | 8232 => "\\u2028".toList
  | 8233 => "\\u2029".toList
  | n =>
    if n < 32 ∨ n = 38 ∨ n = 60 ∨ n = 62 then
      ['\\', 'u', '0', '0', hexDigit (n / 16), hexDigit (n % 16)]
    else [c]

def quote (s : String) : List Char := '"' :: s.toList.flatMap escape ++ ['"']

/-- Members, between a bracket and its partner. -/
def enclose (opening closing : Char) (members : List (List Char)) : List Char :=
  opening :: List.intercalate [','] members ++ [closing]

mutual

def marshal : Json → List Char
  | .null => "null".toList
  | .bool true => "true".toList
  | .bool false => "false".toList
  | .num n => n.text.toList
  | .str s => quote s
  | .arr xs => enclose '[' ']' (marshalItems xs)
  | .obj m =>
    enclose '\x7b' '\x7d'
      (((marshalMembers m).insertionSort fun a b => a.1 ≤ b.1).map fun a =>
        quote a.1 ++ ':' :: a.2)

def marshalItems : List Json → List (List Char)
  | [] => []
  | x :: xs => marshal x :: marshalItems xs

def marshalMembers : List (String × Json) → List (String × List Char)
  | [] => []
  | (k, x) :: m => (k, marshal x) :: marshalMembers m

end

def byteLength (cs : List Char) : Nat := (cs.map Char.utf8Size).sum

/-! Two strings are not written alike. -/

def hexValue (c : Char) : Nat := if c.toNat < 58 then c.toNat - 48 else c.toNat - 87

/-- Reads back what `escape` writes. -/
def unescape : List Char → Option (Char × List Char)
  | [] => none
  | c :: rest =>
    if c ≠ '\\' then some (c, rest)
    else
      match rest with
      | 'b' :: rest => some (Char.ofNat 8, rest)
      | 't' :: rest => some (Char.ofNat 9, rest)
      | 'n' :: rest => some (Char.ofNat 10, rest)
      | 'f' :: rest => some (Char.ofNat 12, rest)
      | 'r' :: rest => some (Char.ofNat 13, rest)
      | 'u' :: d₃ :: d₂ :: d₁ :: d₀ :: rest =>
        some (Char.ofNat (((hexValue d₃ * 16 + hexValue d₂) * 16 + hexValue d₁) * 16 +
          hexValue d₀), rest)
      | c :: rest => some (c, rest)
      | [] => none

theorem escape_reads : Code.Reads escape unescape := by
  refine ⟨fun c rest => ?_, rfl⟩
  have hc : c = Char.ofNat c.toNat := (Char.ofNat_toNat c).symm
  unfold escape
  split
  case h_10 n h34 h92 h8 h9 h10 h12 h13 h8232 h8233 =>
    split
    · next hn =>
      revert hn hc
      generalize c.toNat = n
      rintro rfl (hn | rfl | rfl | rfl)
      · interval_cases n <;> rfl
      all_goals rfl
    · have hne : c ≠ '\\' := by
        rintro rfl
        exact h92 rfl
      simp [unescape, hne]
  all_goals
    next h =>
      rw [h] at hc
      subst hc
      rfl

theorem quote_injective {s t : String} (h : quote s = quote t) : s = t := by
  have hbody : s.toList.flatMap escape = t.toList.flatMap escape := by
    simpa [quote] using h
  exact String.toList_injective (escape_reads.flatMap_injective hbody)

end LocalBase.StructuredOutput
