import LocalBase.Lib.Fuel
import LocalBase.Lib.Double

/-!
# TOML statements

The reader of one statement of a document: a table header, the header of an
array's next element, or a key and its value. It works on the bytes that are
left and the number of the line, and says nothing of tables: a value is built
on its own, and so are the tables written inline. Every loop has fuel, and no
reader runs out of it on fewer bytes than that (`Toml.Total`).
-/

namespace LocalBase.Toml

abbrev Bytes := List UInt8

/-- What is left of the source, and the line it starts on. -/
structure Cursor where
  rest : Bytes
  line : Nat := 1

/-! ## Errors -/

inductive Problem where
  | endOfLine
  | closing
  | closingArray
  | notArray (k : Bytes)
  | definedTwice (name : Bytes)
  | alreadyValue (k : Bytes)
  | key
  | equals
  | duplicate (name : Bytes)
  | value
  | number (raw : Bytes)
  | unterminatedEscape
  | unicodeEscape
  | escape (c : UInt8)
  | unterminatedString
  | arrayItem
  | inlineItem
deriving DecidableEq

def encodeRune (r : Nat) : Bytes :=
  (if r < 0x80 then [r]
    else if r < 0x800 then [0xC0 + r / 0x40, 0x80 + r % 0x40]
    else if r < 0x10000 then [0xE0 + r / 0x1000, 0x80 + r / 0x40 % 0x40, 0x80 + r % 0x40]
    else [0xF0 + r / 0x40000, 0x80 + r / 0x1000 % 0x40, 0x80 + r / 0x40 % 0x40,
      0x80 + r % 0x40]).map UInt8.ofNat

def ascii (s : String) : Bytes := s.toList.map fun c => UInt8.ofNat c.toNat

def Problem.message : Problem → Bytes
  | .endOfLine => ascii "expected the end of the line"
  | .closing => ascii "expected ]"
  | .closingArray => ascii "expected ]]"
  | .notArray k => k ++ ascii " is not an array of tables"
  | .definedTwice name => ascii "table " ++ name ++ ascii " is defined twice"
  | .alreadyValue k => k ++ ascii " is already a value"
  | .key => ascii "expected a key"
  | .equals => ascii "expected ="
  | .duplicate name => ascii "duplicate key " ++ name
  | .value => ascii "expected a value"
  | .number raw => ascii "invalid number " ++ raw
  | .unterminatedEscape => ascii "unterminated escape"
  | .unicodeEscape => ascii "invalid unicode escape"
  | .escape c => ascii "invalid escape " ++ [92] ++ encodeRune c.toNat
  | .unterminatedString => ascii "unterminated string"
  | .arrayItem => ascii "expected , or ] in an array"
  | .inlineItem => ascii "expected , or \x7d in an inline table"

inductive Failure where
  /-- `errf`: the message goes after the number of the line. -/
  | error (line : Nat) (problem : Problem)
  /-- A reader ran out of fuel. -/
  | exhausted
deriving DecidableEq

abbrev Result (α : Type) := Except Failure α

def Cursor.fail {α : Type} (c : Cursor) (problem : Problem) : Result α :=
  .error (.error c.line problem)

/-! ## Values -/

inductive FloatValue where
  | finite (negative : Bool) (size : ℚ)
  | infinite (negative : Bool)
  | nan
deriving DecidableEq

/-- A table is the list of its keys in the order they first appeared. -/
inductive Value where
  | str (s : Bytes)
  | int (n : Int)
  | float (x : FloatValue)
  | bool (b : Bool)
  | array (items : List Value)
  | table (entries : List (Bytes × Value))

abbrev Entries := List (Bytes × Value)

/-- The keys of a header or of an assignment, of which there is at least one. -/
structure Keys where
  init : List Bytes
  last : Bytes
deriving DecidableEq

def Keys.toList (k : Keys) : List Bytes := k.init ++ [k.last]

/-- `strings.Join(keys, ".")` -/
def Keys.joined (k : Keys) : Bytes := [46].intercalate k.toList

/-! ## Spaces -/

def newline : UInt8 := 10

/-- The next byte, and zero at the end of the source. -/
def Cursor.peek (c : Cursor) : UInt8 := c.rest.headD 0

/-- `pos++` -/
def Cursor.advance (c : Cursor) (n : Nat) : Cursor := { c with rest := c.rest.drop n }

def isBlank (c : UInt8) : Bool := c = 32 || c = 9

def skipSpace (c : Cursor) : Cursor := { c with rest := c.rest.dropWhile isBlank }

/-- Skips whitespace, newlines and comments; `comment` says that one is open. -/
def skipLines (comment : Bool) (line : Nat) : Bytes → Cursor
  | [] => ⟨[], line⟩
  | b :: rest =>
    if b = newline then skipLines false (line + 1) rest
    else if comment then skipLines true line rest
    else if isBlank b || b = 13 then skipLines false line rest
    else if b = 35 then skipLines true line rest
    else ⟨b :: rest, line⟩

def skipBlank (c : Cursor) : Cursor := skipLines false c.line c.rest

def skipComment (c : Cursor) : Cursor :=
  if c.peek = 35 then { c with rest := c.rest.dropWhile (· ≠ newline) } else c

def endOfLine (c : Cursor) : Result Cursor :=
  let c := skipComment (skipSpace c)
  let c := if c.peek = 13 then c.advance 1 else c
  if c.rest = [] ∨ c.peek = newline then .ok c else c.fail .endOfLine

/-! ## Strings -/

/-- The value of a digit in a base of at most 16. -/
def digit (base : Nat) (c : UInt8) : Option Nat :=
  let n := c.toNat
  let d := if 48 ≤ n ∧ n ≤ 57 then n - 48
    else if 97 ≤ n ∧ n ≤ 122 then n - 87
    else if 65 ≤ n ∧ n ≤ 90 then n - 55
    else base
  if d < base then some d else none

/-- The number that digits write, of which there is at least one. -/
def digits (base : Nat) (s : Bytes) : Option Nat :=
  if s = [] then none
  else s.foldl (fun n c => do return base * (← n) + (← digit base c)) (some 0)

def parseRune (s : Bytes) : Option Nat :=
  (digits 16 s).filter fun r => r < 0xD800 || (0xDFFF < r && r ≤ 0x10FFFF)

/-- What an escape stands for; the cursor is at the backslash. -/
def escape (c : Cursor) : Result (Bytes × Cursor) :=
  match c.rest.drop 1 with
  | [] => c.fail .unterminatedEscape
  | e :: _ =>
    let next := c.advance 2
    if e = 98 then .ok ([8], next)
    else if e = 116 then .ok ([9], next)
    else if e = 110 then .ok ([10], next)
    else if e = 102 then .ok ([12], next)
    else if e = 114 then .ok ([13], next)
    else if e = 101 then .ok ([27], next)
    else if e = 34 then .ok ([34], next)
    else if e = 92 then .ok ([92], next)
    else if e = 117 ∨ e = 85 then
      let n := if e = 85 then 8 else 4
      if next.rest.length < n then c.fail .unicodeEscape
      else match parseRune (next.rest.take n) with
        | none => c.fail .unicodeEscape
        | some r => .ok (encodeRune r, next.advance n)
    else c.fail (.escape e)

/-- The rest of a basic string, after what is read of it. -/
def basicBody : Nat → Bytes → Cursor → Result (Bytes × Cursor)
  | 0, _, _ => .error .exhausted
  | n + 1, read, c =>
    match c.rest with
    | [] => c.fail .unterminatedString
    | b :: _ =>
      if b = newline then c.fail .unterminatedString
      else if b = 34 then .ok (read, c.advance 1)
      else if b = 92 then do
        let (e, c) ← escape c
        basicBody n (read ++ e) c
      else basicBody n (read ++ [b]) (c.advance 1)

def basicString (c : Cursor) : Result (Bytes × Cursor) :=
  basicBody (c.rest.length + 1) [] (c.advance 1)

def literalString (c : Cursor) : Result (Bytes × Cursor) :=
  let rest := c.rest.drop 1
  let s := rest.takeWhile fun b => b ≠ 39 ∧ b ≠ newline
  if (rest.drop s.length).head? = some 39 then .ok (s, { c with rest := rest.drop (s.length + 1) })
  else c.fail .unterminatedString

/-- After the opening quotes; a newline that follows them is no part of the string. -/
def openQuotes (c : Cursor) : Cursor :=
  let c := c.advance 3
  if [13, newline].isPrefixOf c.rest then { c.advance 2 with line := c.line + 1 }
  else if c.peek = newline then { c.advance 1 with line := c.line + 1 }
  else c

def isSpaceOrLine (c : UInt8) : Bool := isBlank c || c = 13 || c = newline

/-- The newline that a backslash takes away, with the space around it. -/
def lineEnd (c : Cursor) : Option Cursor :=
  let rest := c.rest.drop 1
  let trimmed := rest.dropWhile isBlank
  if [newline].isPrefixOf trimmed ∨ [13, newline].isPrefixOf trimmed then
    some ⟨rest.dropWhile isSpaceOrLine, c.line + (rest.takeWhile isSpaceOrLine).count newline⟩
  else none

def multilineBody : Nat → Bytes → Cursor → Result (Bytes × Cursor)
  | 0, _, _ => .error .exhausted
  | n + 1, read, c =>
    match c.rest with
    | [] => c.fail .unterminatedString
    | b :: _ =>
      if [34, 34, 34].isPrefixOf c.rest then
        -- Further quotes are the end of the content.
        let quotes := (c.rest.drop 3).takeWhile (· = 34)
        .ok (read ++ quotes, c.advance (3 + quotes.length))
      else if b = 92 then
        match lineEnd c with
        | some c => multilineBody n read c
        | none => do
            let (e, c) ← escape c
            multilineBody n (read ++ e) c
      else
        multilineBody n (read ++ [b])
          { c.advance 1 with line := if b = newline then c.line + 1 else c.line }

def multilineBasic (c : Cursor) : Result (Bytes × Cursor) :=
  multilineBody (c.rest.length + 1) [] (openQuotes c)

/-- Where three single quotes are first. -/
def closingQuotes : Bytes → Option Nat
  | [] => none
  | b :: rest =>
    if [39, 39, 39].isPrefixOf (b :: rest) then some 0 else (closingQuotes rest).map (· + 1)

def multilineLiteral (c : Cursor) : Result (Bytes × Cursor) :=
  let c := openQuotes c
  match closingQuotes c.rest with
  | none => c.fail .unterminatedString
  | some start =>
    -- Of more than three quotes the last three close the string.
    let more := ((c.rest.drop (start + 3)).takeWhile (· = 39)).length
    let s := c.rest.take (start + more)
    .ok (s, ⟨c.rest.drop (start + more + 3), c.line + s.count newline⟩)

/-! ## Numbers -/

/-- One of `+-0123456789._eExabcdfinABCDF`. -/
def isNumberByte (c : UInt8) : Bool :=
  (48 ≤ c && c ≤ 57) || (97 ≤ c && c ≤ 102) || (65 ≤ c && c ≤ 70) ||
    [43, 45, 46, 95, 120, 105, 110].contains c

/-- The sign in front, whether it is a minus, and what follows it. -/
def sign (s : Bytes) : Bool × Bytes :=
  if s.head? = some 45 then (true, s.tail)
  else if s.head? = some 43 then (false, s.tail)
  else (false, s)

/-- `ParseInt(s, base, 64)` -/
def parseInt (base : Nat) (s : Bytes) : Option Int :=
  let (negative, s) := sign s
  (digits base s).bind fun n =>
    if negative then if n ≤ 2 ^ 63 then some (-n) else none
    else if n < 2 ^ 63 then some n else none

def isDigit (c : UInt8) : Bool := 48 ≤ c && c ≤ 57

/-- The exponent that ends a number: nothing, or `e` and digits. -/
def exponent (s : Bytes) : Option Int :=
  if s = [] then some 0
  else if s.head? = some 101 ∨ s.head? = some 69 then
    let (negative, ds) := sign s.tail
    if ds = [] ∨ ¬ ds.all isDigit then none
    else
      -- Past 10000 the further digits are not read.
      let e : Nat := ds.foldl (fun e c => if e < 10000 then 10 * e + (c.toNat - 48) else e) 0
      some (if negative then -(e : Int) else e)
  else none

/-- `ParseFloat(s, 64)` of a number that has a point or an exponent. -/
def parseFloat (s : Bytes) : Option FloatValue :=
  let (negative, s) := sign s
  let whole := s.takeWhile isDigit
  let s := s.drop whole.length
  let fraction := if s.head? = some 46 then s.tail.takeWhile isDigit else []
  let s := if s.head? = some 46 then s.tail.drop fraction.length else s
  match digits 10 (whole ++ fraction), exponent s with
  | some m, some e =>
    let places := e - fraction.length
    (Float64.nearest (m * 10 ^ places.toNat) (10 ^ (-places).toNat)).map (.finite negative)
  | _, _ => none

def number (c : Cursor) : Result (Value × Cursor) :=
  let raw := c.rest.takeWhile isNumberByte
  let next := c.advance raw.length
  let clean := raw.filter (· ≠ 95)
  let bare := clean.dropWhile fun b => b = 43 || b = 45
  let found (v : Option Value) : Result (Value × Cursor) :=
    match v with
    | none => c.fail (.number raw)
    | some v => .ok (v, next)
  if raw = [] then c.fail .value
  else if bare = [105, 110, 102] then .ok (.float (.infinite (clean.head? = some 45)), next)
  else if bare = [110, 97, 110] then .ok (.float .nan, next)
  else if [48, 120].isPrefixOf clean then found ((parseInt 16 (clean.drop 2)).map .int)
  else if [48, 111].isPrefixOf clean then found ((parseInt 8 (clean.drop 2)).map .int)
  else if [48, 98].isPrefixOf clean then found ((parseInt 2 (clean.drop 2)).map .int)
  else if clean.any fun b => b = 46 || b = 101 || b = 69 then found ((parseFloat clean).map .float)
  else found ((parseInt 10 clean).map .int)

/-! ## Keys -/

def isBare (c : UInt8) : Bool :=
  (97 ≤ c && c ≤ 122) || (65 ≤ c && c ≤ 90) || isDigit c || c = 95 || c = 45

def keyPart (c : Cursor) : Result (Bytes × Cursor) :=
  if c.peek = 34 then basicString c
  else if c.peek = 39 then literalString c
  else if isBare c.peek then
    let k := c.rest.takeWhile isBare
    .ok (k, c.advance k.length)
  else c.fail .key

/-- The rest of a dotted key, after its first parts. -/
def keyParts : Nat → List Bytes → Cursor → Result (Keys × Cursor)
  | 0, _, _ => .error .exhausted
  | n + 1, init, c => do
      let (k, c) ← keyPart (skipSpace c)
      let c := skipSpace c
      if c.peek = 46 then keyParts n (init ++ [k]) (c.advance 1) else .ok (⟨init, k⟩, c)

def key (c : Cursor) : Result (Keys × Cursor) := keyParts (c.rest.length + 1) [] c

/-! ## Tables -/

namespace Entries

/-- `m[k] = v` -/
def set (m : Entries) (k : Bytes) (v : Value) : Entries :=
  match m with
  | [] => [(k, v)]
  | (k', v') :: m => if k' = k then (k, v) :: m else (k', v') :: set m k v

/-- The table at a key, a new one, or the last of an array of tables; and what
to put back for it. -/
def descend (m : Entries) (k : Bytes) : Except Problem (Entries × (Entries → Value)) :=
  match m.lookup k with
  | none => .ok ([], .table)
  | some (.table t) => .ok (t, .table)
  | some (.array items) =>
    match items.getLast? with
    | some (.table t) => .ok (t, fun t => .array (items.dropLast ++ [.table t]))
    | _ => .error (.alreadyValue k)
  | some _ => .error (.alreadyValue k)

/-- Changes the table that the keys lead to. -/
def within (f : Entries → Except Problem Entries) : List Bytes → Entries → Except Problem Entries
  | [], m => f m
  | k :: path, m => do
      let (t, put) ← descend m k
      let t ← within f path t
      .ok (set m k (put t))

def add (name k : Bytes) (v : Value) (m : Entries) : Except Problem Entries :=
  match m.lookup k with
  | none => .ok (set m k v)
  | some _ => .error (.duplicate name)

def assign (keys : Keys) (v : Value) (m : Entries) : Except Problem Entries :=
  within (add keys.joined keys.last v) keys.init m

end Entries

/-! ## Values -/

mutual

def value : Nat → Cursor → Result (Value × Cursor)
  | 0, _ => .error .exhausted
  | n + 1, c =>
    if c.peek = 34 then do
      let (s, c) ← if [34, 34, 34].isPrefixOf c.rest then multilineBasic c else basicString c
      .ok (.str s, c)
    else if c.peek = 39 then do
      let (s, c) ← if [39, 39, 39].isPrefixOf c.rest then multilineLiteral c else literalString c
      .ok (.str s, c)
    else if c.peek = 91 then arrayItems n [] (c.advance 1)
    else if c.peek = 123 then
      let c := skipSpace (c.advance 1)
      if c.peek = 125 then .ok (.table [], c.advance 1) else inlineItems n [] c
    else if (ascii "true").isPrefixOf c.rest then .ok (.bool true, c.advance 4)
    else if (ascii "false").isPrefixOf c.rest then .ok (.bool false, c.advance 5)
    else number c

def arrayItems : Nat → List Value → Cursor → Result (Value × Cursor)
  | 0, _, _ => .error .exhausted
  | n + 1, out, c =>
    let c := skipBlank c
    if c.peek = 93 then .ok (.array out, c.advance 1)
    else do
      let (v, c) ← value n c
      let c := skipBlank c
      if c.peek = 44 then arrayItems n (out ++ [v]) (c.advance 1)
      else if c.peek = 93 then .ok (.array (out ++ [v]), c.advance 1)
      else c.fail .arrayItem

def inlineItems : Nat → Entries → Cursor → Result (Value × Cursor)
  | 0, _, _ => .error .exhausted
  | n + 1, out, c => do
      let ((keys, v), c) ← keyAndValue n (skipSpace c)
      match out.assign keys v with
      | .error problem => c.fail problem
      | .ok out =>
        let c := skipSpace c
        if c.peek = 44 then inlineItems n out (c.advance 1)
        else if c.peek = 125 then .ok (.table out, c.advance 1)
        else c.fail .inlineItem

/-- `keyValue`, up to where the value is put. -/
def keyAndValue : Nat → Cursor → Result ((Keys × Value) × Cursor)
  | 0, _ => .error .exhausted
  | n + 1, c => do
      let (keys, c) ← key c
      let c := skipSpace c
      if c.peek = 61 then
        let (v, c) ← value n (skipSpace (c.advance 1))
        .ok ((keys, v), c)
      else c.fail .equals

end

/-! ## Statements -/

inductive Statement where
  | table (keys : Keys)
  | array (keys : Keys)
  | assign (keys : Keys) (v : Value)

/-- `tableHeader`, up to the closing bracket. -/
def header (c : Cursor) : Result (Statement × Cursor) := do
  let c := c.advance 1
  let array : Bool := c.peek = 91
  let c := if array then c.advance 1 else c
  let (keys, c) ← key (skipSpace c)
  let c := skipSpace c
  if c.peek ≠ 93 then c.fail .closing
  else
    let c := c.advance 1
    if array then
      if c.peek ≠ 93 then c.fail .closingArray else .ok (.array keys, c.advance 1)
    else .ok (.table keys, c)

/-- The next statement, of which there is one. -/
def statement (c : Cursor) : Result (Statement × Cursor) :=
  if c.peek = 91 then header c
  else do
    let ((keys, v), c) ← keyAndValue (2 * c.rest.length + 2) c
    .ok (.assign keys v, c)

end LocalBase.Toml
