import Mathlib.Data.List.TakeWhile
import Mathlib.Tactic.Common

/-!
# Reading JSON text

A reader takes one value off the front of a text and answers what follows it,
as a streaming decoder does. Values are built by what the reader is given, and
containers are read to a given depth only. `Written` is the grammar, and the
reader is right for it in both directions: what it takes off the front is
written as the value it answers, and a text that is written as a value is taken
off whole, at some depth.

Strings are read as pieces, a character or a `\u` unit each; what pairs of units
mean is for `unquote`.
-/

namespace JsonText

variable {β : Type} {ws : List Char} {c : Char}

/-! ## Spaces -/

def isSpace (c : Char) : Bool := c = ' ' || c = '\t' || c = '\r' || c = '\n'

def Spaces (cs : List Char) : Prop := ∀ c ∈ cs, isSpace c = true

def spaces (cs : List Char) : List Char := cs.dropWhile isSpace

theorem spaces_split (cs : List Char) : ∃ ws, Spaces ws ∧ cs = ws ++ spaces cs :=
  ⟨cs.takeWhile isSpace, fun _ hc => List.mem_takeWhile_imp hc,
    (List.takeWhile_append_dropWhile ..).symm⟩

theorem spaces_append (h : Spaces ws) (cs : List Char) :
    spaces (ws ++ cs) = spaces cs :=
  List.dropWhile_append_of_pos h

theorem spaces_cons (h : isSpace c = false) (cs : List Char) :
    spaces (c :: cs) = c :: cs :=
  List.dropWhile_cons_of_neg (by simp [h])

theorem spaces_eq_nil {cs : List Char} : spaces cs = [] ↔ Spaces cs :=
  List.dropWhile_eq_nil_iff

/-! ## Strings -/

/-- A character, or a `\u` unit. -/
inductive Piece where
  | char (c : Char)
  | unit (u : Nat)
deriving DecidableEq

def simpleEscape : Char → Option Char
  | '"' => some '"'
  | '\\' => some '\\'
  | '/' => some '/'
  | 'b' => some (Char.ofNat 8)
  | 'f' => some (Char.ofNat 12)
  | 'n' => some '\n'
  | 'r' => some '\r'
  | 't' => some '\t'
  | _ => none

def hexValue (c : Char) : Option Nat :=
  if c.isDigit then some (c.toNat - 48)
  else if 'a' ≤ c ∧ c ≤ 'f' then some (c.toNat - 87)
  else if 'A' ≤ c ∧ c ≤ 'F' then some (c.toNat - 55)
  else none

def hexUnit (a b c d : Char) : Option Nat := do
  let a ← hexValue a
  let b ← hexValue b
  let c ← hexValue c
  let d ← hexValue d
  return ((a * 16 + b) * 16 + c) * 16 + d

/-- A character that stands for itself in a string. -/
def plain (c : Char) : Bool := 32 ≤ c.toNat && c ≠ '"' && c ≠ '\\'

/-- A string after its first quote, to its last. -/
def stringBody : List Char → Option (List Piece × List Char)
  | [] => none
  | '"' :: rest => some ([], rest)
  | '\\' :: 'u' :: a :: b :: c :: d :: rest =>
    (hexUnit a b c d).bind fun u => (stringBody rest).map fun x => (.unit u :: x.1, x.2)
  | '\\' :: e :: rest =>
    (simpleEscape e).bind fun c => (stringBody rest).map fun x => (.char c :: x.1, x.2)
  | c :: rest =>
    if plain c then (stringBody rest).map fun x => (.char c :: x.1, x.2) else none

/-- How the pieces of a string are written. -/
inductive Pieces : List Piece → List Char → Prop
  | nil : Pieces [] []
  | char {c : Char} {ps : List Piece} {cs : List Char} : plain c = true → Pieces ps cs →
      Pieces (.char c :: ps) (c :: cs)
  | escape {e c : Char} {ps : List Piece} {cs : List Char} : simpleEscape e = some c →
      Pieces ps cs → Pieces (.char c :: ps) ('\\' :: e :: cs)
  | unit {a b c d : Char} {u : Nat} {ps : List Piece} {cs : List Char} :
      hexUnit a b c d = some u → Pieces ps cs →
      Pieces (.unit u :: ps) ('\\' :: 'u' :: a :: b :: c :: d :: cs)

theorem stringBody_pieces {cs rest : List Char} {ps : List Piece}
    (h : stringBody cs = some (ps, rest)) : ∃ t, cs = t ++ '"' :: rest ∧ Pieces ps t := by
  induction cs using stringBody.induct generalizing ps with
  | case1 => cases h
  | case2 rest' =>
    rw [stringBody] at h
    cases h
    exact ⟨[], rfl, .nil⟩
  | case3 a b c d rest' ih =>
    rw [stringBody] at h
    obtain ⟨u, hu, h⟩ := Option.bind_eq_some_iff.mp h
    obtain ⟨⟨ps', r⟩, hr, he⟩ := Option.map_eq_some_iff.mp h
    cases he
    obtain ⟨t, rfl, ht⟩ := ih hr
    exact ⟨'\\' :: 'u' :: a :: b :: c :: d :: t, rfl, .unit hu ht⟩
  | case4 e rest' hne ih =>
    rw [stringBody] at h
    · obtain ⟨c, hc, h⟩ := Option.bind_eq_some_iff.mp h
      obtain ⟨⟨ps', r⟩, hr, he⟩ := Option.map_eq_some_iff.mp h
      cases he
      obtain ⟨t, rfl, ht⟩ := ih hr
      exact ⟨'\\' :: e :: t, rfl, .escape hc ht⟩
    · exact hne
  | case5 c rest' h1 h2 h3 hplain ih =>
    rw [stringBody, if_pos hplain] at h
    · obtain ⟨⟨ps', r⟩, hr, he⟩ := Option.map_eq_some_iff.mp h
      cases he
      obtain ⟨t, rfl, ht⟩ := ih hr
      exact ⟨c :: t, rfl, .char hplain ht⟩
    · exact h1
    · exact h2
    · exact h3
  | case6 c rest' h1 h2 h3 hplain =>
    rw [stringBody, if_neg hplain] at h
    · cases h
    · exact h1
    · exact h2
    · exact h3

theorem stringBody_written {ps : List Piece} {cs : List Char} (h : Pieces ps cs)
    (rest : List Char) : stringBody (cs ++ '"' :: rest) = some (ps, rest) := by
  induction h with
  | nil => rfl
  | char hplain _ ih =>
    rename_i c ps cs _
    have hne : c ≠ '"' ∧ c ≠ '\\' := by
      simp only [plain, ne_eq, Bool.and_eq_true, decide_eq_true_eq] at hplain
      exact ⟨hplain.1.2, hplain.2⟩
    rw [List.cons_append, stringBody, if_pos hplain, ih]
    · rfl
    · exact hne.1
    · intro _ _ _ _ _ he
      exact absurd he hne.2
    · intro _ _ he
      exact absurd he hne.2
  | escape he _ ih =>
    rename_i e c ps cs _
    rw [List.cons_append, List.cons_append, stringBody, he, Option.bind_some, ih]
    · rfl
    · intro _ _ _ _ _ hu
      subst hu
      cases he
  | unit hu _ ih =>
    simp only [List.cons_append, stringBody, hu, Option.bind_some, ih]
    rfl

/-! ## Numbers -/

/-- Digits, at least one. -/
def digits (cs : List Char) : Option (List Char × List Char) :=
  if cs.takeWhile Char.isDigit = [] then none
  else some (cs.takeWhile Char.isDigit, cs.dropWhile Char.isDigit)

def sign : List Char → List Char × List Char
  | '-' :: cs => (['-'], cs)
  | cs => ([], cs)

/-- Digits without a leading zero. -/
def whole : List Char → Option (List Char × List Char)
  | '0' :: cs => some (['0'], cs)
  | cs => digits cs

def fraction : List Char → Option (List Char × List Char)
  | '.' :: cs => (digits cs).map fun x => ('.' :: x.1, x.2)
  | cs => some ([], cs)

def exponentSign : List Char → List Char × List Char
  | '-' :: cs => (['-'], cs)
  | '+' :: cs => (['+'], cs)
  | cs => ([], cs)

def exponent : List Char → Option (List Char × List Char)
  | c :: cs =>
    if c = 'e' ∨ c = 'E' then
      (digits (exponentSign cs).2).map fun x => (c :: (exponentSign cs).1 ++ x.1, x.2)
    else some ([], c :: cs)
  | [] => some ([], [])

/-- The longest number at the front of a text, which ends where it does. -/
def number (cs : List Char) : Option (List Char × List Char) := do
  let (digits, cs₁) ← whole (sign cs).2
  let (fraction, cs₂) ← fraction cs₁
  let (exponent, cs₃) ← exponent cs₂
  return ((sign cs).1 ++ digits ++ fraction ++ exponent, cs₃)

/-! How numbers are written. -/

def Digits (ds : List Char) : Prop := ds ≠ [] ∧ ∀ c ∈ ds, c.isDigit = true

inductive Whole : List Char → Prop
  | zero : Whole ['0']
  | digits {c : Char} {ds : List Char} : c ≠ '0' → Digits (c :: ds) → Whole (c :: ds)

inductive Fraction : List Char → Prop
  | none : Fraction []
  | digits {ds : List Char} : Digits ds → Fraction ('.' :: ds)

inductive Exponent : List Char → Prop
  | none : Exponent []
  | digits {c : Char} {s ds : List Char} : c = 'e' ∨ c = 'E' → s = [] ∨ s = ['-'] ∨ s = ['+'] →
      Digits ds → Exponent (c :: s ++ ds)

inductive IsNumber : List Char → Prop
  | parts {s d f e : List Char} : s = [] ∨ s = ['-'] → Whole d → Fraction f → Exponent e →
      IsNumber (s ++ d ++ f ++ e)

theorem digits_sound {cs t r : List Char} (h : digits cs = some (t, r)) :
    cs = t ++ r ∧ Digits t := by
  unfold digits at h
  split at h
  · cases h
  · next hne =>
    cases h
    exact ⟨(List.takeWhile_append_dropWhile ..).symm, hne,
      fun _ hc => List.mem_takeWhile_imp hc⟩

theorem whole_sound {cs t r : List Char} (h : whole cs = some (t, r)) :
    cs = t ++ r ∧ Whole t := by
  unfold whole at h
  split at h
  · cases h
    exact ⟨rfl, .zero⟩
  · next hne =>
    obtain ⟨rfl, ht⟩ := digits_sound h
    refine ⟨rfl, ?_⟩
    cases t with
    | nil => exact absurd rfl ht.1
    | cons c t =>
      refine .digits ?_ ht
      rintro rfl
      exact hne (t ++ r) rfl

theorem fraction_sound {cs t r : List Char} (h : fraction cs = some (t, r)) :
    cs = t ++ r ∧ Fraction t := by
  unfold fraction at h
  split at h
  · obtain ⟨⟨t', r'⟩, hd, he⟩ := Option.map_eq_some_iff.mp h
    cases he
    obtain ⟨rfl, ht⟩ := digits_sound hd
    exact ⟨rfl, .digits ht⟩
  · cases h
    exact ⟨rfl, .none⟩

theorem exponentSign_sound (cs : List Char) :
    cs = (exponentSign cs).1 ++ (exponentSign cs).2 ∧
      ((exponentSign cs).1 = [] ∨ (exponentSign cs).1 = ['-'] ∨ (exponentSign cs).1 = ['+']) := by
  unfold exponentSign
  split <;> simp

theorem exponent_sound {cs t r : List Char} (h : exponent cs = some (t, r)) :
    cs = t ++ r ∧ Exponent t := by
  unfold exponent at h
  split at h
  · next c cs =>
    split at h
    · next hc =>
      obtain ⟨⟨t', r'⟩, hd, he⟩ := Option.map_eq_some_iff.mp h
      cases he
      obtain ⟨hsplit, hsign⟩ := exponentSign_sound cs
      obtain ⟨hrest, ht⟩ := digits_sound hd
      refine ⟨?_, .digits hc hsign ht⟩
      calc c :: cs = c :: ((exponentSign cs).1 ++ (exponentSign cs).2) := by rw [← hsplit]
        _ = c :: ((exponentSign cs).1 ++ (t' ++ r')) := by rw [hrest]
        _ = c :: (exponentSign cs).1 ++ t' ++ r' := by
            simp only [List.cons_append, List.append_assoc]
    · cases h
      exact ⟨rfl, .none⟩
  · cases h
    exact ⟨rfl, .none⟩

theorem sign_sound (cs : List Char) :
    cs = (sign cs).1 ++ (sign cs).2 ∧ ((sign cs).1 = [] ∨ (sign cs).1 = ['-']) := by
  unfold sign
  split <;> simp

theorem number_eq_some {cs t r : List Char} :
    number cs = some (t, r) ↔ ∃ d cs₁ f cs₂ e, whole (sign cs).2 = some (d, cs₁) ∧
      fraction cs₁ = some (f, cs₂) ∧ exponent cs₂ = some (e, r) ∧
      t = (sign cs).1 ++ d ++ f ++ e := by
  simp only [number, Option.bind_eq_bind, Option.pure_def, Option.bind_eq_some_iff, Prod.exists,
    Option.some.injEq, Prod.mk.injEq]
  constructor
  · rintro ⟨d, cs₁, hd, f, cs₂, hf, e, cs₃, he, rfl, rfl⟩
    exact ⟨d, cs₁, f, cs₂, e, hd, hf, he, rfl⟩
  · rintro ⟨d, cs₁, f, cs₂, e, hd, hf, he, rfl⟩
    exact ⟨d, cs₁, hd, f, cs₂, hf, e, r, he, rfl, rfl⟩

theorem number_sound {cs t r : List Char} (h : number cs = some (t, r)) :
    cs = t ++ r ∧ IsNumber t := by
  obtain ⟨d, cs₁, f, cs₂, e, hd, hf, he, rfl⟩ := number_eq_some.mp h
  obtain ⟨hsplit, hsign⟩ := sign_sound cs
  obtain ⟨h₁, hwhole⟩ := whole_sound hd
  obtain ⟨rfl, hfraction⟩ := fraction_sound hf
  obtain ⟨rfl, hexponent⟩ := exponent_sound he
  refine ⟨?_, .parts hsign hwhole hfraction hexponent⟩
  calc cs = (sign cs).1 ++ (sign cs).2 := hsplit
    _ = (sign cs).1 ++ (d ++ (f ++ (e ++ r))) := by rw [h₁]
    _ = (sign cs).1 ++ d ++ f ++ e ++ r := by simp only [List.append_assoc]

/-- A number is taken up to what it does not go on with. -/
def Ends (cs : List Char) : Prop :=
  ∀ c ∈ cs.head?, c.isDigit = false ∧ c ≠ '.' ∧ c ≠ 'e' ∧ c ≠ 'E'

theorem digits_append {ds rest : List Char} (h : Digits ds)
    (hrest : ∀ c ∈ rest.head?, c.isDigit = false) : digits (ds ++ rest) = some (ds, rest) := by
  have hnone : rest.takeWhile Char.isDigit = [] ∧ rest.dropWhile Char.isDigit = rest := by
    cases rest with
    | nil => exact ⟨rfl, rfl⟩
    | cons c rest => simp [hrest c rfl]
  rw [digits, List.takeWhile_append_of_pos h.2, List.dropWhile_append_of_pos h.2, hnone.1,
    hnone.2, List.append_nil, if_neg h.1]

theorem whole_append {d rest : List Char} (h : Whole d)
    (hrest : ∀ c ∈ rest.head?, c.isDigit = false) : whole (d ++ rest) = some (d, rest) := by
  cases h with
  | zero => rfl
  | digits hne hds =>
    rw [List.cons_append, whole]
    · exact digits_append hds hrest
    · rintro _ ⟨⟩
      exact hne rfl

theorem fraction_append {f rest : List Char} (h : Fraction f)
    (hrest : ∀ c ∈ rest.head?, c.isDigit = false ∧ c ≠ '.') :
    fraction (f ++ rest) = some (f, rest) := by
  cases h with
  | none =>
    cases rest with
    | nil => rfl
    | cons c rest =>
      rw [List.nil_append, fraction]
      rintro _ ⟨⟩
      exact (hrest _ rfl).2 rfl
  | digits hds =>
    rw [List.cons_append, fraction, digits_append hds fun c hc => (hrest c hc).1]
    rfl

theorem exponentSign_append {s ds : List Char} (hs : s = [] ∨ s = ['-'] ∨ s = ['+'])
    (hds : Digits ds) (rest : List Char) :
    exponentSign (s ++ (ds ++ rest)) = (s, ds ++ rest) := by
  rcases hs with rfl | rfl | rfl
  · cases ds with
    | nil => exact absurd rfl hds.1
    | cons c ds =>
      have hc := hds.2 c List.mem_cons_self
      rw [List.nil_append, List.cons_append, exponentSign]
      · rintro _ ⟨⟩
        cases hc
      · rintro _ ⟨⟩
        cases hc
  · rfl
  · rfl

theorem exponent_append {e rest : List Char} (h : Exponent e) (hrest : Ends rest) :
    exponent (e ++ rest) = some (e, rest) := by
  cases h with
  | none =>
    cases rest with
    | nil => rfl
    | cons c rest =>
      obtain ⟨_, _, he, hE⟩ := hrest c rfl
      rw [List.nil_append, exponent, if_neg (by simp [he, hE])]
  | digits hc hs hds =>
    rename_i c s ds
    have hsign := exponentSign_append hs hds rest
    rw [List.append_assoc, List.cons_append, exponent, if_pos hc, hsign,
      digits_append hds fun c hc => (hrest c hc).1]
    rfl

theorem sign_append {s d : List Char} (hs : s = [] ∨ s = ['-']) (hd : Whole d)
    (rest : List Char) : sign (s ++ (d ++ rest)) = (s, d ++ rest) := by
  rcases hs with rfl | rfl
  · cases hd with
    | zero => rfl
    | digits _ hds =>
      have hc := hds.2 _ List.mem_cons_self
      rw [List.nil_append, List.cons_append, sign]
      rintro _ ⟨⟩
      cases hc
  · rfl

theorem Exponent.head {e rest : List Char} (h : Exponent e) (hrest : Ends rest) :
    ∀ c ∈ (e ++ rest).head?, c.isDigit = false ∧ c ≠ '.' := by
  cases h with
  | none => exact fun c hc => ⟨(hrest c hc).1, (hrest c hc).2.1⟩
  | digits hc _ _ =>
    rintro _ ⟨⟩
    rcases hc with rfl | rfl <;> exact ⟨rfl, by decide⟩

theorem Fraction.head {f rest : List Char} (h : Fraction f)
    (hrest : ∀ c ∈ rest.head?, c.isDigit = false ∧ c ≠ '.') :
    ∀ c ∈ (f ++ rest).head?, c.isDigit = false := by
  cases h with
  | none => exact fun c hc => (hrest c hc).1
  | digits _ =>
    rintro _ ⟨⟩
    rfl

theorem number_append {t rest : List Char} (h : IsNumber t) (hrest : Ends rest) :
    number (t ++ rest) = some (t, rest) := by
  obtain @⟨s, d, f, e, hs, hd, hf, he⟩ := h
  have hsign := sign_append hs hd (f ++ (e ++ rest))
  have hassoc : s ++ d ++ f ++ e ++ rest = s ++ (d ++ (f ++ (e ++ rest))) := by
    simp only [List.append_assoc]
  rw [hassoc]
  refine number_eq_some.mpr ⟨d, f ++ (e ++ rest), f, e ++ rest, e, ?_,
    fraction_append hf (he.head hrest), exponent_append he hrest, ?_⟩
  · rw [hsign]
    exact whole_append hd (hf.head (he.head hrest))
  · rw [hsign]

/-! ## Values -/

/-- What values are made of. -/
structure Build (β : Type) where
  null : β
  bool : Bool → β
  num : List Char → β
  str : List Piece → β
  arr : List β → β
  obj : List (List Piece × β) → β

/-- A reader of one value. -/
abbrev Reader (β : Type) : Type := List Char → Option (β × List Char)

/-- The items of an array after its bracket, at most this many. -/
def elements (inner : Reader β) : Nat → List Char → Option (List β × List Char)
  | 0, _ => none
  | k + 1, cs => do
      let (v, cs) ← inner cs
      match spaces cs with
      | ',' :: cs => (elements inner k cs).map fun x => (v :: x.1, x.2)
      | ']' :: cs => some ([v], cs)
      | _ => none

/-- A key and the colon after it. -/
def key (cs : List Char) : Option (List Piece × List Char) :=
  match spaces cs with
  | '"' :: cs => do
      let (ps, cs) ← stringBody cs
      match spaces cs with
      | ':' :: cs => some (ps, cs)
      | _ => none
  | _ => none

/-- The members of an object after its brace, at most this many. -/
def members (inner : Reader β) : Nat → List Char → Option (List (List Piece × β) × List Char)
  | 0, _ => none
  | k + 1, cs => do
      let (ps, cs) ← key cs
      let (v, cs) ← inner cs
      match spaces cs with
      | ',' :: cs => (members inner k cs).map fun x => ((ps, v) :: x.1, x.2)
      | '\x7d' :: cs => some ([(ps, v)], cs)
      | _ => none

def literal (text : List Char) (v : β) (cs : List Char) : Option (β × List Char) :=
  if text.isPrefixOf cs then some (v, cs.drop text.length) else none

section
variable (b : Build β)

/-- An array after its bracket. -/
def array (inner : Reader β) (cs : List Char) : Option (β × List Char) :=
  match spaces cs with
  | ']' :: cs => some (b.arr [], cs)
  | _ => (elements inner (cs.length + 1) cs).map fun x => (b.arr x.1, x.2)

/-- An object after its brace. -/
def object (inner : Reader β) (cs : List Char) : Option (β × List Char) :=
  match spaces cs with
  | '\x7d' :: cs => some (b.obj [], cs)
  | _ => (members inner (cs.length + 1) cs).map fun x => (b.obj x.1, x.2)

/-- A value whose containers hold what `inner` reads. -/
def valueOf (inner : Option (Reader β)) (cs : List Char) : Option (β × List Char) :=
  match spaces cs with
  | '"' :: cs => (stringBody cs).map fun x => (b.str x.1, x.2)
  | '[' :: cs => inner.bind fun inner => array b inner cs
  | '\x7b' :: cs => inner.bind fun inner => object b inner cs
  | 't' :: cs => literal "rue".toList (b.bool true) cs
  | 'f' :: cs => literal "alse".toList (b.bool false) cs
  | 'n' :: cs => literal "ull".toList b.null cs
  | cs => (number cs).map fun x => (b.num x.1, x.2)

/-- A value with no more than `n` containers in one another. -/
def value : Nat → Reader β
  | 0 => valueOf b none
  | n + 1 => valueOf b (some (value n))

end

/-! ## The grammar -/

/-- A value, the items of an array, or the members of an object. -/
inductive Thing (β : Type) where
  | value (v : β)
  | items (vs : List β)
  | members (ms : List (List Piece × β))

/-- How things are written. -/
inductive Written (b : Build β) : Thing β → List Char → Prop
  | null : Written b (.value b.null) "null".toList
  | true : Written b (.value (b.bool true)) "true".toList
  | false : Written b (.value (b.bool false)) "false".toList
  | num {cs : List Char} : IsNumber cs → Written b (.value (b.num cs)) cs
  | str {ps : List Piece} {cs : List Char} : Pieces ps cs →
      Written b (.value (b.str ps)) ('"' :: cs ++ ['"'])
  | noItems {ws : List Char} : Spaces ws → Written b (.value (b.arr [])) ('[' :: ws ++ [']'])
  | arr {vs : List β} {cs : List Char} : Written b (.items vs) cs →
      Written b (.value (b.arr vs)) ('[' :: cs ++ [']'])
  | noMembers {ws : List Char} : Spaces ws →
      Written b (.value (b.obj [])) ('\x7b' :: ws ++ ['\x7d'])
  | obj {ms : List (List Piece × β)} {cs : List Char} : Written b (.members ms) cs →
      Written b (.value (b.obj ms)) ('\x7b' :: cs ++ ['\x7d'])
  | item {v : β} {ws cs ws' : List Char} : Spaces ws → Written b (.value v) cs → Spaces ws' →
      Written b (.items [v]) (ws ++ cs ++ ws')
  | items {v : β} {vs : List β} {ws cs ws' rest : List Char} : Spaces ws →
      Written b (.value v) cs → Spaces ws' → Written b (.items vs) rest →
      Written b (.items (v :: vs)) (ws ++ cs ++ ws' ++ ',' :: rest)
  | member {ps : List Piece} {v : β} {ws k ws₁ ws₂ cs ws₃ : List Char} : Spaces ws →
      Pieces ps k → Spaces ws₁ → Spaces ws₂ → Written b (.value v) cs → Spaces ws₃ →
      Written b (.members [(ps, v)]) (ws ++ '"' :: k ++ '"' :: ws₁ ++ ':' :: ws₂ ++ cs ++ ws₃)
  | members {ps : List Piece} {v : β} {ms : List (List Piece × β)}
      {ws k ws₁ ws₂ cs ws₃ rest : List Char} : Spaces ws →
      Pieces ps k → Spaces ws₁ → Spaces ws₂ → Written b (.value v) cs → Spaces ws₃ →
      Written b (.members ms) rest →
      Written b (.members ((ps, v) :: ms))
        (ws ++ '"' :: k ++ '"' :: ws₁ ++ ':' :: ws₂ ++ cs ++ ws₃ ++ ',' :: rest)

/-! ## What is read is written -/

theorem spaces_eq_cons {c : Char} {cs rest : List Char} (h : spaces cs = c :: rest) :
    ∃ ws, Spaces ws ∧ cs = ws ++ c :: rest := by
  obtain ⟨ws, hws, he⟩ := spaces_split cs
  exact ⟨ws, hws, by rw [he, h]⟩

theorem elements_succ {inner : Reader β} {k : Nat} {cs rest : List Char} {vs : List β} :
    elements inner (k + 1) cs = some (vs, rest) ↔ ∃ v cs₁, inner cs = some (v, cs₁) ∧
      (spaces cs₁ = ']' :: rest ∧ vs = [v] ∨ ∃ cs₂ vs', spaces cs₁ = ',' :: cs₂ ∧
        elements inner k cs₂ = some (vs', rest) ∧ vs = v :: vs') := by
  simp only [elements, Option.bind_eq_bind, Option.bind_eq_some_iff, Prod.exists]
  refine exists_congr fun v => exists_congr fun cs₁ => and_congr_right fun _ => ?_
  split
  · next cs₂ he =>
    simp only [he, Option.map_eq_some_iff, Prod.exists, Prod.mk.injEq]
    constructor
    · rintro ⟨vs', r, hr, rfl, rfl⟩
      exact .inr ⟨cs₂, vs', rfl, hr, rfl⟩
    · rintro (⟨hne, _⟩ | ⟨_, vs', h, hr, rfl⟩)
      · cases hne
      · cases h
        exact ⟨vs', rest, hr, rfl, rfl⟩
  · next cs₂ he =>
    simp only [he, Option.some.injEq, Prod.mk.injEq]
    constructor
    · rintro ⟨rfl, rfl⟩
      exact .inl ⟨rfl, rfl⟩
    · rintro (⟨h, rfl⟩ | ⟨_, _, hne, _⟩)
      · cases h
        exact ⟨rfl, rfl⟩
      · cases hne
  · next hcomma hclose =>
    constructor
    · intro h
      cases h
    · rintro (⟨h, _⟩ | ⟨_, _, h, _⟩)
      · exact absurd h (hclose _)
      · exact absurd h (hcomma _)

theorem key_eq_some {cs rest : List Char} {ps : List Piece} :
    key cs = some (ps, rest) ↔ ∃ cs₁ cs₂, spaces cs = '"' :: cs₁ ∧
      stringBody cs₁ = some (ps, cs₂) ∧ spaces cs₂ = ':' :: rest := by
  unfold key
  split
  · next cs₁ he =>
    simp only [he, Option.bind_eq_bind, Option.bind_eq_some_iff, Prod.exists]
    constructor
    · rintro ⟨ps', cs₂, hs, h⟩
      split at h
      · next cs₃ hcolon =>
        cases h
        exact ⟨cs₁, cs₂, rfl, hs, hcolon⟩
      · cases h
    · rintro ⟨_, cs₂, h, hs, hcolon⟩
      cases h
      exact ⟨ps, cs₂, hs, by rw [hcolon]; rfl⟩
  · next hne =>
    constructor
    · intro h
      cases h
    · rintro ⟨cs₁, _, h, _⟩
      exact absurd h (hne cs₁)

variable {k : Nat} {inner : Reader β} {ms : List (List Piece × β)} {v : β}

theorem members_succ {cs rest : List Char} :
    members inner (k + 1) cs = some (ms, rest) ↔ ∃ ps cs₀ v cs₁, key cs = some (ps, cs₀) ∧
      inner cs₀ = some (v, cs₁) ∧
      (spaces cs₁ = '\x7d' :: rest ∧ ms = [(ps, v)] ∨ ∃ cs₂ ms', spaces cs₁ = ',' :: cs₂ ∧
        members inner k cs₂ = some (ms', rest) ∧ ms = (ps, v) :: ms') := by
  simp only [members, Option.bind_eq_bind, Option.bind_eq_some_iff, Prod.exists]
  constructor
  · rintro ⟨ps, cs₀, hkey, v, cs₁, hv, h⟩
    refine ⟨ps, cs₀, v, cs₁, hkey, hv, ?_⟩
    split at h
    · next cs₂ he =>
      obtain ⟨⟨ms', r⟩, hr, hx⟩ := Option.map_eq_some_iff.mp h
      cases hx
      exact .inr ⟨cs₂, ms', he, hr, rfl⟩
    · next cs₂ he =>
      cases h
      exact .inl ⟨he, rfl⟩
    · cases h
  · rintro ⟨ps, cs₀, v, cs₁, hkey, hv, ⟨he, rfl⟩ | ⟨cs₂, ms', he, hr, rfl⟩⟩
    · exact ⟨ps, cs₀, hkey, v, cs₁, hv, by rw [he]; rfl⟩
    · exact ⟨ps, cs₀, hkey, v, cs₁, hv, by rw [he]; exact Option.map_eq_some_iff.mpr ⟨_, hr, rfl⟩⟩

theorem literal_eq_some {text cs rest : List Char} {w : β} :
    literal text v cs = some (w, rest) ↔ w = v ∧ cs = text ++ rest := by
  unfold literal
  split
  · next h =>
    obtain ⟨r, rfl⟩ := List.isPrefixOf_iff_prefix.mp h
    simp [eq_comm]
  · next h =>
    constructor
    · intro he
      cases he
    · rintro ⟨_, rfl⟩
      exact absurd (List.isPrefixOf_iff_prefix.mpr (List.prefix_append ..)) h

variable {b : Build β}

/-- What the reader takes off the front is a value, after spaces. -/
def Sound (b : Build β) (read : Reader β) : Prop :=
  ∀ cs v rest, read cs = some (v, rest) →
    ∃ ws t, cs = ws ++ t ++ rest ∧ Spaces ws ∧ Written b (.value v) t

theorem elements_sound (hinner : Sound b inner) {cs rest : List Char} {vs : List β}
    (h : elements inner k cs = some (vs, rest)) :
    ∃ t, cs = t ++ ']' :: rest ∧ Written b (.items vs) t := by
  induction k generalizing cs vs with
  | zero => cases h
  | succ k ih =>
    obtain ⟨v, cs₁, hv, hrest⟩ := elements_succ.mp h
    obtain ⟨ws, t, rfl, hws, ht⟩ := hinner _ _ _ hv
    rcases hrest with ⟨hclose, rfl⟩ | ⟨cs₂, vs', hcomma, hmore, rfl⟩
    · obtain ⟨ws', hws', rfl⟩ := spaces_eq_cons hclose
      exact ⟨ws ++ t ++ ws', by simp only [List.append_assoc], .item hws ht hws'⟩
    · obtain ⟨ws', hws', rfl⟩ := spaces_eq_cons hcomma
      obtain ⟨t', rfl, ht'⟩ := ih hmore
      exact ⟨ws ++ t ++ ws' ++ ',' :: t', by simp only [List.append_assoc, List.cons_append],
        .items hws ht hws' ht'⟩

theorem members_sound (hinner : Sound b inner) {cs rest : List Char}
    (h : members inner k cs = some (ms, rest)) :
    ∃ t, cs = t ++ '\x7d' :: rest ∧ Written b (.members ms) t := by
  induction k generalizing cs ms with
  | zero => cases h
  | succ k ih =>
    obtain ⟨ps, cs₀, v, cs₁, hkey, hv, hrest⟩ := members_succ.mp h
    obtain ⟨body, cs₂, hquote, hbody, hcolon⟩ := key_eq_some.mp hkey
    obtain ⟨ws, hws, rfl⟩ := spaces_eq_cons hquote
    obtain ⟨name, rfl, hname⟩ := stringBody_pieces hbody
    obtain ⟨ws₁, hws₁, rfl⟩ := spaces_eq_cons hcolon
    obtain ⟨ws₂, t, rfl, hws₂, ht⟩ := hinner _ _ _ hv
    rcases hrest with ⟨hclose, rfl⟩ | ⟨cs₃, ms', hcomma, hmore, rfl⟩
    · obtain ⟨ws₃, hws₃, rfl⟩ := spaces_eq_cons hclose
      exact ⟨ws ++ '"' :: name ++ '"' :: ws₁ ++ ':' :: ws₂ ++ t ++ ws₃,
        by simp only [List.append_assoc, List.cons_append],
        .member hws hname hws₁ hws₂ ht hws₃⟩
    · obtain ⟨ws₃, hws₃, rfl⟩ := spaces_eq_cons hcomma
      obtain ⟨t', rfl, ht'⟩ := ih hmore
      exact ⟨ws ++ '"' :: name ++ '"' :: ws₁ ++ ':' :: ws₂ ++ t ++ ws₃ ++ ',' :: t',
        by simp only [List.append_assoc, List.cons_append],
        .members hws hname hws₁ hws₂ ht hws₃ ht'⟩

theorem array_sound (hinner : Sound b inner) {cs rest : List Char}
    (h : array b inner cs = some (v, rest)) :
    ∃ t, '[' :: cs = t ++ rest ∧ Written b (.value v) t := by
  unfold array at h
  split at h
  · next he =>
    cases h
    obtain ⟨ws, hws, rfl⟩ := spaces_eq_cons he
    exact ⟨'[' :: ws ++ [']'], by simp, .noItems hws⟩
  · obtain ⟨⟨vs, r⟩, hr, he⟩ := Option.map_eq_some_iff.mp h
    cases he
    obtain ⟨t, rfl, ht⟩ := elements_sound hinner hr
    exact ⟨'[' :: t ++ [']'], by simp, .arr ht⟩

theorem object_sound (hinner : Sound b inner) {cs rest : List Char}
    (h : object b inner cs = some (v, rest)) :
    ∃ t, '\x7b' :: cs = t ++ rest ∧ Written b (.value v) t := by
  unfold object at h
  split at h
  · next he =>
    cases h
    obtain ⟨ws, hws, rfl⟩ := spaces_eq_cons he
    exact ⟨'\x7b' :: ws ++ ['\x7d'], by simp, .noMembers hws⟩
  · obtain ⟨⟨ms, r⟩, hr, he⟩ := Option.map_eq_some_iff.mp h
    cases he
    obtain ⟨t, rfl, ht⟩ := members_sound hinner hr
    exact ⟨'\x7b' :: t ++ ['\x7d'], by simp, .obj ht⟩

theorem valueOf_sound {inner : Option (Reader β)} (hinner : ∀ r ∈ inner, Sound b r) :
    Sound b (valueOf b inner) := by
  intro cs v rest h
  obtain ⟨ws, hws, he⟩ := spaces_split cs
  suffices ∃ t, spaces cs = t ++ rest ∧ Written b (.value v) t by
    obtain ⟨t, ht, hv⟩ := this
    exact ⟨ws, t, by rw [he, ht, List.append_assoc], hws, hv⟩
  unfold valueOf at h
  split at h
  · next he =>
    obtain ⟨⟨ps, r⟩, hr, hx⟩ := Option.map_eq_some_iff.mp h
    cases hx
    obtain ⟨t, rfl, ht⟩ := stringBody_pieces hr
    exact ⟨'"' :: t ++ ['"'], by simp [he], .str ht⟩
  · next he =>
    obtain ⟨r, hr, h⟩ := Option.bind_eq_some_iff.mp h
    rw [he]
    exact array_sound (hinner r hr) h
  · next he =>
    obtain ⟨r, hr, h⟩ := Option.bind_eq_some_iff.mp h
    rw [he]
    exact object_sound (hinner r hr) h
  · next he =>
    obtain ⟨rfl, rfl⟩ := literal_eq_some.mp h
    exact ⟨"true".toList, he, .true⟩
  · next he =>
    obtain ⟨rfl, rfl⟩ := literal_eq_some.mp h
    exact ⟨"false".toList, he, .false⟩
  · next he =>
    obtain ⟨rfl, rfl⟩ := literal_eq_some.mp h
    exact ⟨"null".toList, he, .null⟩
  · obtain ⟨⟨t, r⟩, hr, hx⟩ := Option.map_eq_some_iff.mp h
    cases hx
    obtain ⟨hsplit, ht⟩ := number_sound hr
    exact ⟨t, hsplit, .num ht⟩

/-- What `value` takes off the front of a text is a value, after spaces. -/
theorem value_sound (n : Nat) : Sound b (value b n) := by
  induction n with
  | zero => exact valueOf_sound fun _ h => by cases h
  | succ n ih =>
    refine valueOf_sound fun r h => ?_
    cases h
    exact ih

/-! ## What is written is read -/

/-- Reads what `f` reads. -/
def Extends (f g : Reader β) : Prop := ∀ cs x, f cs = some x → g cs = some x

theorem elements_extends {f g : Reader β} (hfg : Extends f g) {cs : List Char}
    {x : List β × List Char} (h : elements f k cs = some x) : elements g k cs = some x := by
  obtain ⟨vs, rest⟩ := x
  induction k generalizing cs vs with
  | zero => cases h
  | succ k ih =>
    obtain ⟨v, cs₁, hv, hrest⟩ := elements_succ.mp h
    refine elements_succ.mpr ⟨v, cs₁, hfg _ _ hv, ?_⟩
    rcases hrest with hlast | ⟨cs₂, vs', hcomma, hmore, rfl⟩
    · exact .inl hlast
    · exact .inr ⟨cs₂, vs', hcomma, ih vs' hmore, rfl⟩

theorem members_extends {f g : Reader β} (hfg : Extends f g) {cs : List Char}
    {x : List (List Piece × β) × List Char} (h : members f k cs = some x) :
    members g k cs = some x := by
  obtain ⟨ms, rest⟩ := x
  induction k generalizing cs ms with
  | zero => cases h
  | succ k ih =>
    obtain ⟨ps, cs₀, v, cs₁, hkey, hv, hrest⟩ := members_succ.mp h
    refine members_succ.mpr ⟨ps, cs₀, v, cs₁, hkey, hfg _ _ hv, ?_⟩
    rcases hrest with hlast | ⟨cs₂, ms', hcomma, hmore, rfl⟩
    · exact .inl hlast
    · exact .inr ⟨cs₂, ms', hcomma, ih ms' hmore, rfl⟩

theorem valueOf_extends {f : Option (Reader β)} {g : Reader β} (hfg : ∀ r ∈ f, Extends r g) :
    Extends (valueOf b f) (valueOf b (some g)) := by
  intro cs x h
  have harray : ∀ cs, (f.bind fun f => array b f cs) = some x → array b g cs = some x := by
    intro cs h
    obtain ⟨r, hr, h⟩ := Option.bind_eq_some_iff.mp h
    unfold array at h ⊢
    split at h
    · exact h
    · obtain ⟨y, hy, rfl⟩ := Option.map_eq_some_iff.mp h
      exact Option.map_eq_some_iff.mpr ⟨y, elements_extends (hfg r hr) hy, rfl⟩
  have hobject : ∀ cs, (f.bind fun f => object b f cs) = some x → object b g cs = some x := by
    intro cs h
    obtain ⟨r, hr, h⟩ := Option.bind_eq_some_iff.mp h
    unfold object at h ⊢
    split at h
    · exact h
    · obtain ⟨y, hy, rfl⟩ := Option.map_eq_some_iff.mp h
      exact Option.map_eq_some_iff.mpr ⟨y, members_extends (hfg r hr) hy, rfl⟩
  unfold valueOf at h ⊢
  split at h
  · exact h
  · exact harray _ h
  · exact hobject _ h
  · exact h
  · exact h
  · exact h
  · exact h

theorem value_succ (n : Nat) : Extends (value b n) (value b (n + 1)) := by
  induction n with
  | zero => exact valueOf_extends fun _ h => by cases h
  | succ n ih =>
    refine valueOf_extends fun r h => ?_
    cases h
    exact ih

theorem value_extends {n m : Nat} (h : n ≤ m) : Extends (value b n) (value b m) := by
  induction h with
  | refl => exact fun _ _ h => h
  | step _ ih => exact fun cs x h => value_succ _ cs x (ih cs x h)

/-- A thing that is taken off the front, at some depth: a value after spaces, and
items and members before what closes them. -/
def Taken (b : Build β) : Thing β → List Char → Prop
  | .value v, cs => ∃ d, ∀ ws rest, Spaces ws → Ends rest →
      value b d (ws ++ cs ++ rest) = some (v, rest)
  | .items vs, cs => ∃ d, ∀ k rest, cs.length < k →
      elements (value b d) k (cs ++ ']' :: rest) = some (vs, rest)
  | .members ms, cs => ∃ d, ∀ k rest, cs.length < k →
      members (value b d) k (cs ++ '\x7d' :: rest) = some (ms, rest)

theorem spaces_through (hws : Spaces ws) (hc : isSpace c = false)
    (cs : List Char) : spaces (ws ++ c :: cs) = c :: cs := by
  rw [spaces_append hws, spaces_cons hc]

theorem isSpace_iff :
    isSpace c = true ↔ c = ' ' ∨ c = '\t' ∨ c = '\r' ∨ c = '\n' := by
  simp only [isSpace, Bool.or_eq_true, decide_eq_true_eq, or_assoc]

theorem isSpace_of_digit (h : c.isDigit = true) : isSpace c = false := by
  cases hc : isSpace c with
  | false => rfl
  | true => rcases isSpace_iff.mp hc with rfl | rfl | rfl | rfl <;> cases h

theorem ends_of_space (h : isSpace c = true) (cs : List Char) : Ends (c :: cs) := by
  rintro _ ⟨⟩
  rcases isSpace_iff.mp h with rfl | rfl | rfl | rfl <;> decide

theorem ends_append (hws : Spaces ws) {cs : List Char} (hcs : Ends cs) :
    Ends (ws ++ cs) := by
  cases ws with
  | nil => exact hcs
  | cons w ws => exact ends_of_space (hws w List.mem_cons_self) _

theorem IsNumber.head {t : List Char} (h : IsNumber t) :
    ∃ c cs, t = c :: cs ∧ (c = '-' ∨ c.isDigit = true) := by
  cases h with
  | parts hs hd =>
    rcases hs with rfl | rfl
    · cases hd with
      | zero => exact ⟨'0', _, rfl, .inr rfl⟩
      | digits _ hds => exact ⟨_, _, rfl, .inr (hds.2 _ List.mem_cons_self)⟩
    · exact ⟨'-', _, rfl, .inl rfl⟩

theorem valueOf_number {inner : Option (Reader β)} {t rest : List Char} (ht : IsNumber t)
    (hrest : Ends rest) (hws : Spaces ws) :
    valueOf b inner (ws ++ t ++ rest) = some (b.num t, rest) := by
  have hnumber := number_append ht hrest
  obtain ⟨c, cs, rfl, hc⟩ := ht.head
  have hspace : isSpace c = false := by
    rcases hc with rfl | hc
    · rfl
    · exact isSpace_of_digit hc
  rw [List.append_assoc, valueOf, List.cons_append, spaces_through hws hspace]
  rw [List.cons_append] at hnumber
  split
  case h_7 => rw [hnumber]; rfl
  all_goals
    next he =>
      cases he
      rcases hc with hc | hc <;> cases hc

theorem valueOf_bracket {inner : Option (Reader β)} {cs rest : List Char}
    (h : spaces cs = ']' :: rest) : valueOf b inner cs = none := by
  rw [valueOf, h]
  rfl

theorem valueOf_array {cs rest : List Char} (hws : Spaces ws)
    (h : array b inner cs = some (v, rest)) :
    valueOf b (some inner) (ws ++ '[' :: cs) = some (v, rest) := by
  rw [valueOf, spaces_through hws rfl]
  exact h

theorem valueOf_object {cs rest : List Char} (hws : Spaces ws)
    (h : object b inner cs = some (v, rest)) :
    valueOf b (some inner) (ws ++ '\x7b' :: cs) = some (v, rest) := by
  rw [valueOf, spaces_through hws rfl]
  exact h

theorem array_items {d : Nat} {cs rest : List Char} {vs : List β}
    (h : elements (value b d) (cs.length + 1) cs = some (vs, rest)) :
    array b (value b d) cs = some (b.arr vs, rest) := by
  unfold array
  split
  · next he =>
    obtain ⟨v, cs₁, hv, _⟩ := elements_succ.mp h
    cases d with
    | zero => rw [value, valueOf_bracket he] at hv; cases hv
    | succ d => rw [value, valueOf_bracket he] at hv; cases hv
  · rw [h]
    rfl

theorem object_members {d : Nat} {cs rest : List Char}
    (h : members (value b d) (cs.length + 1) cs = some (ms, rest)) :
    object b (value b d) cs = some (b.obj ms, rest) := by
  unfold object
  split
  · next he =>
    obtain ⟨_, _, _, _, hkey, _⟩ := members_succ.mp h
    obtain ⟨_, _, hquote, _⟩ := key_eq_some.mp hkey
    rw [he] at hquote
    cases hquote
  · rw [h]
    rfl

theorem key_written {ps : List Piece} {k ws₁ : List Char} (hws : Spaces ws) (hk : Pieces ps k)
    (hws₁ : Spaces ws₁) (rest : List Char) :
    key (ws ++ '"' :: (k ++ '"' :: (ws₁ ++ ':' :: rest))) = some (ps, rest) :=
  key_eq_some.mpr ⟨_, _, spaces_through hws rfl _, stringBody_written hk _,
    spaces_through hws₁ rfl _⟩

theorem Written.taken {thing : Thing β} {cs : List Char} (h : Written b thing cs) :
    Taken b thing cs := by
  have hcomma : ∀ rest, Ends (',' :: rest) := fun _ => by rintro _ ⟨⟩; decide
  have hbracket : ∀ rest, Ends (']' :: rest) := fun _ => by rintro _ ⟨⟩; decide
  have hbrace : ∀ rest, Ends ('\x7d' :: rest) := fun _ => by rintro _ ⟨⟩; decide
  induction h with
  | null =>
    refine ⟨0, fun ws rest hws _ => ?_⟩
    rw [List.append_assoc]
    show valueOf b none (ws ++ 'n' :: ("ull".toList ++ rest)) = _
    rw [valueOf, spaces_through hws rfl]
    exact literal_eq_some.mpr ⟨rfl, rfl⟩
  | true =>
    refine ⟨0, fun ws rest hws _ => ?_⟩
    rw [List.append_assoc]
    show valueOf b none (ws ++ 't' :: ("rue".toList ++ rest)) = _
    rw [valueOf, spaces_through hws rfl]
    exact literal_eq_some.mpr ⟨rfl, rfl⟩
  | false =>
    refine ⟨0, fun ws rest hws _ => ?_⟩
    rw [List.append_assoc]
    show valueOf b none (ws ++ 'f' :: ("alse".toList ++ rest)) = _
    rw [valueOf, spaces_through hws rfl]
    exact literal_eq_some.mpr ⟨rfl, rfl⟩
  | num hn => exact ⟨0, fun ws rest hws hrest => valueOf_number hn hrest hws⟩
  | @str ps k hps =>
    refine ⟨0, fun ws rest hws _ => ?_⟩
    have hassoc : ws ++ ('"' :: k ++ ['"']) ++ rest = ws ++ '"' :: (k ++ '"' :: rest) := by simp
    rw [hassoc, value, valueOf, spaces_through hws rfl]
    exact Option.map_eq_some_iff.mpr ⟨_, stringBody_written hps rest, rfl⟩
  | @noItems inside hws' =>
    refine ⟨1, fun ws rest hws _ => ?_⟩
    have hassoc : ws ++ ('[' :: inside ++ [']']) ++ rest =
        ws ++ '[' :: (inside ++ ']' :: rest) := by simp
    rw [hassoc]
    refine valueOf_array hws ?_
    rw [array, spaces_through hws' rfl]
    rfl
  | @arr vs inside _ ih =>
    obtain ⟨d, hd⟩ := ih
    refine ⟨d + 1, fun ws rest hws _ => ?_⟩
    have hassoc : ws ++ ('[' :: inside ++ [']']) ++ rest =
        ws ++ '[' :: (inside ++ ']' :: rest) := by simp
    rw [hassoc]
    refine valueOf_array hws (array_items (hd _ rest ?_))
    rw [List.length_append]
    omega
  | @noMembers inside hws' =>
    refine ⟨1, fun ws rest hws _ => ?_⟩
    have hassoc : ws ++ ('\x7b' :: inside ++ ['\x7d']) ++ rest =
        ws ++ '\x7b' :: (inside ++ '\x7d' :: rest) := by simp
    rw [hassoc]
    refine valueOf_object hws ?_
    rw [object, spaces_through hws' rfl]
    rfl
  | @obj ms inside _ ih =>
    obtain ⟨d, hd⟩ := ih
    refine ⟨d + 1, fun ws rest hws _ => ?_⟩
    have hassoc : ws ++ ('\x7b' :: inside ++ ['\x7d']) ++ rest =
        ws ++ '\x7b' :: (inside ++ '\x7d' :: rest) := by simp
    rw [hassoc]
    refine valueOf_object hws (object_members (hd _ rest ?_))
    rw [List.length_append]
    omega
  | @item v ws cs ws' hws _ hws' ih =>
    obtain ⟨d, hd⟩ := ih
    refine ⟨d, fun k rest hk => ?_⟩
    obtain ⟨k, rfl⟩ : ∃ k', k = k' + 1 := ⟨k - 1, by omega⟩
    refine elements_succ.mpr ⟨v, ws' ++ ']' :: rest, ?_,
      .inl ⟨spaces_through hws' rfl _, rfl⟩⟩
    rw [List.append_assoc]
    exact hd _ _ hws (ends_append hws' (hbracket rest))
  | @items v vs ws cs ws' more hws _ hws' _ ih ihs =>
    obtain ⟨d, hd⟩ := ih
    obtain ⟨d', hd'⟩ := ihs
    refine ⟨max d d', fun k rest hk => ?_⟩
    obtain ⟨k, rfl⟩ : ∃ k', k = k' + 1 := ⟨k - 1, by omega⟩
    have hmore : more.length < k := by
      simp only [List.length_append, List.length_cons] at hk
      omega
    have hassoc : ws ++ cs ++ ws' ++ ',' :: more ++ ']' :: rest =
        ws ++ cs ++ (ws' ++ ',' :: (more ++ ']' :: rest)) := by
      simp only [List.append_assoc, List.cons_append]
    rw [hassoc]
    refine elements_succ.mpr ⟨v, ws' ++ ',' :: (more ++ ']' :: rest), ?_,
      .inr ⟨more ++ ']' :: rest, vs, spaces_through hws' rfl _, ?_, rfl⟩⟩
    · exact value_extends (Nat.le_max_left ..) _ _
        (hd _ _ hws (ends_append hws' (hcomma _)))
    · exact elements_extends (value_extends (Nat.le_max_right ..)) (hd' k rest hmore)
  | @member ps v ws name ws₁ ws₂ cs ws₃ hws hname hws₁ hws₂ _ hws₃ ih =>
    obtain ⟨d, hd⟩ := ih
    refine ⟨d, fun k rest hk => ?_⟩
    obtain ⟨k, rfl⟩ : ∃ k', k = k' + 1 := ⟨k - 1, by omega⟩
    have hassoc : ws ++ '"' :: name ++ '"' :: ws₁ ++ ':' :: ws₂ ++ cs ++ ws₃ ++ '\x7d' :: rest =
        ws ++ '"' :: (name ++ '"' :: (ws₁ ++ ':' :: (ws₂ ++ cs ++ (ws₃ ++ '\x7d' :: rest)))) := by
      simp only [List.append_assoc, List.cons_append]
    rw [hassoc]
    exact members_succ.mpr ⟨ps, _, v, _, key_written hws hname hws₁ _,
      hd _ _ hws₂ (ends_append hws₃ (hbrace rest)), .inl ⟨spaces_through hws₃ rfl _, rfl⟩⟩
  | @members ps v ms ws name ws₁ ws₂ cs ws₃ more hws hname hws₁ hws₂ _ hws₃ _ ih ihs =>
    obtain ⟨d, hd⟩ := ih
    obtain ⟨d', hd'⟩ := ihs
    refine ⟨max d d', fun k rest hk => ?_⟩
    obtain ⟨k, rfl⟩ : ∃ k', k = k' + 1 := ⟨k - 1, by omega⟩
    have hmore : more.length < k := by
      simp only [List.length_append, List.length_cons] at hk
      omega
    have hassoc : ws ++ '"' :: name ++ '"' :: ws₁ ++ ':' :: ws₂ ++ cs ++ ws₃ ++ ',' :: more ++
          '\x7d' :: rest =
        ws ++ '"' :: (name ++ '"' :: (ws₁ ++ ':' ::
          (ws₂ ++ cs ++ (ws₃ ++ ',' :: (more ++ '\x7d' :: rest))))) := by
      simp only [List.append_assoc, List.cons_append]
    rw [hassoc]
    refine members_succ.mpr ⟨ps, _, v, _, key_written hws hname hws₁ _, ?_,
      .inr ⟨more ++ '\x7d' :: rest, ms, spaces_through hws₃ rfl _, ?_, rfl⟩⟩
    · exact value_extends (Nat.le_max_left ..) _ _
        (hd _ _ hws₂ (ends_append hws₃ (hcomma _)))
    · exact members_extends (value_extends (Nat.le_max_right ..)) (hd' k rest hmore)

/-- A text has one first value, where nothing goes on with it. -/
theorem first_unique {cs ws' t t' rest rest' : List Char} {w : β} (hcs : cs = ws ++ t ++ rest)
    (hws : Spaces ws) (ht : Written b (.value v) t) (hrest : Ends rest)
    (hcs' : cs = ws' ++ t' ++ rest') (hws' : Spaces ws') (ht' : Written b (.value w) t')
    (hrest' : Ends rest') : v = w ∧ rest = rest' := by
  obtain ⟨d, hd⟩ := ht.taken
  obtain ⟨d', hd'⟩ := ht'.taken
  have h := value_extends (Nat.le_max_left d d') _ _ (hd ws rest hws hrest)
  have h' := value_extends (Nat.le_max_right d d') _ _ (hd' ws' rest' hws' hrest')
  rw [← hcs] at h
  rw [← hcs', h] at h'
  cases h'
  exact ⟨rfl, rfl⟩

theorem ends_of_spaces (hws : Spaces ws) : Ends ws := by
  cases ws with
  | nil => rintro _ ⟨⟩
  | cons w ws => exact ends_of_space (hws w List.mem_cons_self) ws

end JsonText
