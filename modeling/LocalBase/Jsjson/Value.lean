import LocalBase.Lib.JsonTree
import LocalBase.ModelCatalog.Spec
import LocalBase.StructuredOutput.Outcome

/-!
# JavaScript's JSON

`jsjson` reads a document the way `JSON.parse` does and writes it the way
`JSON.stringify` does. Objects remember the order in which their keys were set, and
list them as JavaScript does. Doubles, and the package that reads and formats them,
are given.
-/

namespace LocalBase.Jsjson

open JsonText
open ModelCatalog (arrayIndex maxParseDepth)
open StructuredOutput (unquote)

/-- `float64`, with `strconv`. -/
structure Doubles where
  Double : Type
  /-- What is out of range is infinite. -/
  parseFloat : List Char → Double
  finite : Double → Bool
  exact : Double → ℚ
  /-- `FormatFloat` with no more digits than it takes, as `1e+21`. -/
  formatE : Double → List Char
  /-- The same, as `1.5`. -/
  formatF : Double → List Char

/-- What `Parse` answers. An object is its properties in the order they were set. -/
inductive Value (F : Type) where
  | null
  | bool (x : Bool)
  | num (f : F)
  | str (s : String)
  | arr (xs : List (Value F))
  | obj (o : List (String × Value F))

variable {β F : Type}

/-! ## Objects -/

/-- `Set`. -/
def set (k : String) (v : β) : List (String × β) → List (String × β)
  | [] => [(k, v)]
  | e :: o => if e.1 = k then (k, v) :: o else e :: set k v o

def indexLE (a b : String) : Prop := (arrayIndex a).getD 0 ≤ (arrayIndex b).getD 0

instance : DecidableRel indexLE := fun _ _ => inferInstanceAs (Decidable (_ ≤ _))

/-- `Keys`, of the order in which they were set. -/
def keys (order : List String) : List String :=
  (order.filter fun k => (arrayIndex k).isSome).insertionSort indexLE ++
    order.filter fun k => (arrayIndex k).isNone

/-- The properties as `Keys` lists them. -/
def listed (o : List (String × β)) : List (String × β) :=
  (keys (o.map (·.1))).filterMap fun k => (o.lookup k).map fun v => (k, v)

section
variable (go : Doubles)

/-! ## Reading -/

def decoded : Build (Value go.Double) where
  null := .null
  bool := .bool
  num cs := .num (go.parseFloat cs)
  str ps := .str (String.ofList (unquote ps))
  arr := .arr
  obj ms := .obj (ms.foldl (fun o m => set (String.ofList (unquote m.1)) m.2 o) [])

/-- `Parse`: one value, and only spaces after it. -/
def parse (cs : List Char) : Option (Value go.Double) :=
  (value (decoded go) maxParseDepth cs).bind fun x => if spaces x.2 = [] then some x.1 else none

/-! ## Writing -/

/-- An exponent without leading zeros. -/
def shortExponent (s : List Char) : List Char :=
  let mant := s.takeWhile (· ≠ 'e')
  let exp := (s.dropWhile (· ≠ 'e')).drop 1
  mant ++ 'e' :: exp.take 1 ++ (exp.drop 1).dropWhile (· = '0')

/-- `Number`. -/
def number (f : go.Double) : List Char :=
  if ¬ go.finite f then "null".toList
  else if go.exact f = 0 then ['0']
  else if go.exact (go.parseFloat "1e21".toList) ≤ |go.exact f| ∨
      |go.exact f| < go.exact (go.parseFloat "1e-6".toList) then shortExponent (go.formatE f)
  else go.formatF f

end

/-- `%04x`. -/
def hex4 (n : Nat) : List Char :=
  [Nat.digitChar (n / 4096 % 16), Nat.digitChar (n / 256 % 16), Nat.digitChar (n / 16 % 16),
    Nat.digitChar (n % 16)]

def quoteChar (c : Char) : List Char :=
  if c = '"' then ['\\', '"']
  else if c = '\\' then ['\\', '\\']
  else if c = Char.ofNat 8 then ['\\', 'b']
  else if c = Char.ofNat 12 then ['\\', 'f']
  else if c = '\n' then ['\\', 'n']
  else if c = '\r' then ['\\', 'r']
  else if c = '\t' then ['\\', 't']
  else if c.toNat < 0x20 then '\\' :: 'u' :: hex4 c.toNat
  else [c]

def quote (s : String) : List Char := '"' :: s.toList.flatMap quoteChar ++ ['"']

def commas : List (List Char) → List Char
  | [] => []
  | [t] => t
  | t :: ts => t ++ ',' :: commas ts

section
variable (go : Doubles)

mutual

/-- `Stringify`. -/
def stringify : Value go.Double → List Char
  | .null => "null".toList
  | .bool x => if x then "true".toList else "false".toList
  | .num f => number go f
  | .str s => quote s
  | .arr xs => '[' :: commas (stringifyItems xs) ++ [']']
  | .obj o =>
    '\x7b' :: commas ((listed (stringifyMembers o)).map fun e => quote e.1 ++ ':' :: e.2) ++
      ['\x7d']

def stringifyItems : List (Value go.Double) → List (List Char)
  | [] => []
  | x :: xs => stringify x :: stringifyItems xs

def stringifyMembers : List (String × Value go.Double) → List (String × List Char)
  | [] => []
  | (k, x) :: o => (k, stringify x) :: stringifyMembers o

end

/-- Each on a line of its own, with a comma after all but the last. -/
def lines (inner : List Char) : List (List Char) → List Char
  | [] => []
  | [t] => inner ++ t ++ ['\n']
  | t :: ts => inner ++ t ++ ',' :: '\n' :: lines inner ts

mutual

/-- `writeIndent`. -/
def writeIndent (pad : List Char) : Value go.Double → List Char
  | .arr xs =>
    let inner := pad ++ "  ".toList
    if xs = [] then "[]".toList
    else "[\n".toList ++ lines inner (indentItems inner xs) ++ pad ++ [']']
  | .obj o =>
    let inner := pad ++ "  ".toList
    if o = [] then "\x7b\x7d".toList
    else "\x7b\n".toList ++
      lines inner
        ((listed (indentMembers inner o)).map fun e => quote e.1 ++ ": ".toList ++ e.2) ++
      pad ++ ['\x7d']
  | v => stringify go v

def indentItems (pad : List Char) : List (Value go.Double) → List (List Char)
  | [] => []
  | x :: xs => writeIndent pad x :: indentItems pad xs

def indentMembers (pad : List Char) : List (String × Value go.Double) → List (String × List Char)
  | [] => []
  | (k, x) :: o => (k, writeIndent pad x) :: indentMembers pad o

end

/-- `Indent`. -/
def indent (v : Value go.Double) : List Char := writeIndent go [] v

end

end LocalBase.Jsjson
