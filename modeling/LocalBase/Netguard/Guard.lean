import Mathlib.Algebra.Order.Ring.Nat
import Mathlib.Tactic.Common

/-!
# Which addresses a download may reach

An address is public, private or never allowed, and a URL is refused before anything is
connected when its host is an address that is not public, in any form, or a name that only
exists locally. Addresses are numbers; a host is the bytes of its text.
-/

namespace LocalBase.Netguard

abbrev Bytes := List UInt8

def byte (c : Char) : UInt8 := UInt8.ofNat c.toNat

def ascii (s : String) : Bytes := s.toList.map byte

/-! ## Addresses -/

/-- `netip.Addr`. -/
inductive Addr where
  | zero
  | v4 (n : Nat)
  | v6 (n : Nat) (zone : Bytes)
deriving DecidableEq

inductive Class where
  | isPublic
  | isPrivate
  | never
deriving DecidableEq

/-- `netip.Prefix`. -/
structure Prefix where
  is6 : Bool
  addr : Nat
  bits : Nat

def ipv4 (a b c d : Nat) : Nat := ((a * 256 + b) * 256 + c) * 256 + d

/-- The number of an IPv6 address, of its 16-bit groups. -/
def ipv6 (groups : List Nat) : Nat := groups.foldl (fun n g => n * 65536 + g) 0

def prefix4 (a b c d bits : Nat) : Prefix := ⟨false, ipv4 a b c d, bits⟩

/-- A prefix whose groups after the given ones are zero. -/
def prefix6 (groups : List Nat) (bits : Nat) : Prefix :=
  ⟨true, ipv6 (groups ++ List.replicate (8 - groups.length) 0), bits⟩

def neverPrefixes : List Prefix :=
  [prefix4 0 0 0 0 8, prefix4 169 254 0 0 16, prefix4 192 0 0 0 24, prefix4 192 0 2 0 24,
    prefix4 198 18 0 0 15, prefix4 198 51 100 0 24, prefix4 203 0 113 0 24,
    prefix4 224 0 0 0 4, prefix4 240 0 0 0 4, prefix4 100 100 100 200 32,
    prefix4 168 63 129 16 32, prefix6 [] 128, prefix6 [0xfe80] 10, prefix6 [0xff00] 8,
    prefix6 [0x2001] 32, prefix6 [0x2001, 0xdb8] 32, prefix6 [0x2002] 16,
    prefix6 [0xfd00, 0xec2, 0, 0, 0, 0, 0, 0x254] 128]

def privatePrefixes : List Prefix :=
  [prefix4 10 0 0 0 8, prefix4 100 64 0 0 10, prefix4 127 0 0 0 8, prefix4 172 16 0 0 12,
    prefix4 192 168 0 0 16, prefix6 [0, 0, 0, 0, 0, 0, 0, 1] 128, prefix6 [0xfc00] 7]

def nat64 : Prefix := prefix6 [0x64, 0xff9b] 96

def compat : Prefix := prefix6 [] 96

def Prefix.contains (p : Prefix) : Addr → Bool
  | .zero => false
  | .v4 n => !p.is6 && n / 2 ^ (32 - p.bits) = p.addr / 2 ^ (32 - p.bits)
  | .v6 n zone => p.is6 && zone = [] && n / 2 ^ (128 - p.bits) = p.addr / 2 ^ (128 - p.bits)

/-- `ip.WithZone("").Unmap()`. -/
def unmap : Addr → Addr
  | .v6 n _ => if n / 2 ^ 32 = 0xffff then .v4 (n % 2 ^ 32) else .v6 n []
  | ip => ip

/-- The class by the lists alone. -/
def listed (ip : Addr) : Class :=
  if neverPrefixes.any (·.contains ip) then .never
  else if privatePrefixes.any (·.contains ip) then .isPrivate
  else .isPublic

/-- `Classify`. What a NAT64 address carries is judged in its place. -/
def classify (ip : Addr) : Class :=
  match unmap ip with
  | .zero => .never
  | .v4 n => listed (.v4 n)
  | .v6 n zone =>
    if nat64.contains (.v6 n zone) then listed (.v4 (n % 2 ^ 32))
    else if compat.contains (.v6 n zone) && n ≠ 1 then .never
    else listed (.v6 n zone)

/-! ## Numbers in text -/

def isDigit (c : UInt8) : Bool := 48 ≤ c.toNat && c.toNat ≤ 57

def lower (c : UInt8) : UInt8 := if 65 ≤ c.toNat ∧ c.toNat ≤ 90 then c + 32 else c

def digitValue (c : UInt8) : Option Nat :=
  if isDigit c then some (c.toNat - 48)
  else if 97 ≤ (lower c).toNat ∧ (lower c).toNat ≤ 122 then some ((lower c).toNat - 87)
  else none

/-- The digits of a base, after a number. -/
def value (base : Nat) : Nat → Bytes → Option Nat
  | n, [] => some n
  | n, c :: s => do
      let d ← digitValue c
      if d < base then value base (n * base + d) s else none

/-- What `underscoreOK` has seen last. -/
inductive Seen where
  | start
  | digit
  | underscore
  | other
deriving DecidableEq

/-- The loop of `underscoreOK`. -/
def underscores (hex : Bool) : Seen → Bytes → Bool
  | i, [] => i ≠ .underscore
  | i, c :: s =>
    if isDigit c || hex && 97 ≤ (lower c).toNat && (lower c).toNat ≤ 102 then
      underscores hex .digit s
    else if c = byte '_' then
      if i ≠ .digit then false else underscores hex .underscore s
    else if i = .underscore then false
    else underscores hex .other s

/-- The base that a number starts with, and the rest. -/
def baseOf (s : Bytes) : Nat × Bytes :=
  match s with
  | c :: x :: y :: rest =>
    if c = byte '0' then
      if lower x = byte 'b' then (2, y :: rest)
      else if lower x = byte 'o' then (8, y :: rest)
      else if lower x = byte 'x' then (16, y :: rest)
      else (8, x :: y :: rest)
    else (10, s)
  | c :: rest => if c = byte '0' then (8, rest) else (10, s)
  | [] => (10, [])

def underscoreOK (s : Bytes) : Bool :=
  match s with
  | c :: x :: rest =>
    if c = byte '0' ∧ (lower x = byte 'b' ∨ lower x = byte 'o' ∨ lower x = byte 'x') then
      underscores (lower x = byte 'x') .digit rest
    else underscores false .start s
  | _ => underscores false .start s

/-- `strconv.ParseUint`, of base 0 and 64 bits. -/
def parseUint (s : Bytes) : Option Nat :=
  if s = [] then none
  else
    match value (baseOf s).1 0 ((baseOf s).2.filter (· ≠ byte '_')) with
    | none => none
    | some n =>
      if 2 ^ 64 ≤ n then none
      else if s.contains (byte '_') && !underscoreOK s then none
      else some n

/-! ## Addresses in text -/

/-- A field of a dotted address: it has no zero in front. -/
def octet (s : Bytes) : Option Nat :=
  if s = [] ∨ !s.all isDigit ∨ (s.head? = some (byte '0') ∧ 1 < s.length) then none
  else (value 10 0 s).bind fun n => if 255 < n then none else some n

def parseIPv4 (s : Bytes) : Option Nat :=
  match (s.splitOn (byte '.')).mapM octet with
  | some [a, b, c, d] => some (ipv4 a b c d)
  | _ => none

def hexGroup (s : Bytes) : Option Nat :=
  if s = [] ∨ 4 < s.length then none else value 16 0 s

/-- The groups of an IPv6 address. The last two may be a dotted address. -/
def groups : List Bytes → Option (List Nat)
  | [] => some []
  | [s] =>
    if s.contains (byte '.') then (parseIPv4 s).map fun n => [n / 65536, n % 65536]
    else (hexGroup s).map ([·])
  | s :: rest => do
      let g ← hexGroup s
      let gs ← groups rest
      some (g :: gs)

/-- What is before and after the first `::`. -/
def cutEllipsis : Bytes → Option (Bytes × Bytes)
  | c :: d :: s =>
    if c = byte ':' ∧ d = byte ':' then some ([], s)
    else (cutEllipsis (d :: s)).map fun p => (c :: p.1, p.2)
  | _ => none

/-- The groups on one side of a `::`. -/
def side (read : List Bytes → Option (List Nat)) (s : Bytes) : Option (List Nat) :=
  if s = [] then some [] else read (s.splitOn (byte ':'))

/-- An IPv6 address, without a zone. -/
def ipv6Of (s : Bytes) : Option Nat :=
  match cutEllipsis s with
  | none => (groups (s.splitOn (byte ':'))).bind fun gs =>
    if gs.length = 8 then some (ipv6 gs) else none
  | some (left, right) => do
      let ls ← side (·.mapM hexGroup) left
      let rs ← side groups right
      if ls.length + rs.length < 8 then
        some (ipv6 (ls ++ List.replicate (8 - ls.length - rs.length) 0 ++ rs))
      else none

/-- What is before the first of a byte, and what follows it if it is there. -/
def cut (c : UInt8) (s : Bytes) : Bytes × Option Bytes :=
  (s.takeWhile (· ≠ c), if s.contains c then some ((s.dropWhile (· ≠ c)).drop 1) else none)

def parseIPv6 (s : Bytes) : Option Addr :=
  match (cut (byte '%') s).2 with
  | none => (ipv6Of s).map fun n => .v6 n []
  | some zone =>
    if zone = [] then none
    else (ipv6Of (cut (byte '%') s).1).map fun n => .v6 n zone

/-- `netip.ParseAddr`: the first of `.`, `:` and `%` says which form it is. -/
def parseAddr (s : Bytes) : Option Addr :=
  match s.find? fun c => c = byte '.' || c = byte ':' || c = byte '%' with
  | none => none
  | some c =>
    if c = byte '.' then (parseIPv4 s).map .v4
    else if c = byte ':' then parseIPv6 s
    else none

/-! ## The check -/

/-- `strings.TrimSuffix(s, ".")`. -/
def trimDot (s : Bytes) : Bytes := if s.getLast? = some (byte '.') then s.dropLast else s

/-- The number that the parts are together. The last fills what the others leave, and each
has bits of its own. -/
def joined (count : Nat) : Nat → List Nat → Option Nat
  | _, [] => none
  | _, [v] => if 2 ^ (8 * (5 - count)) ≤ v then none else some v
  | i, v :: w :: vals =>
    if 255 < v then none
    else (joined count (i + 1) (w :: vals)).map fun n => v * 2 ^ (24 - 8 * i) + n

def looseIPv4 (host : Bytes) : Option Addr :=
  let parts := host.splitOn (byte '.')
  if 4 < parts.length then none
  else
    match parts.mapM parseUint with
    | none => none
    | some vals => (joined vals.length 0 vals).map .v4

def isBracket (c : UInt8) : Bool := c = byte '[' || c = byte ']'

/-- `strings.Trim(s, "[]")`. -/
def trimBrackets (s : Bytes) : Bytes :=
  ((s.dropWhile isBracket).reverse.dropWhile isBracket).reverse

def literal (host : Bytes) : Option Addr :=
  let host := (cut (byte '%') (trimBrackets host)).1
  match parseAddr host with
  | some ip => some ip
  | none => looseIPv4 (trimDot host)

def localSuffixes : List Bytes :=
  ["localhost", "local", "internal", "intranet", "lan", "home.arpa"].map ascii

structure BlockedError where
  host : Bytes
  reason : Class

structure Policy where
  allowPrivate : Bool
  allowHosts : List Bytes

section
variable (toLower : Bytes → Bytes)

def localName (host : Bytes) : Bool :=
  let host := trimDot (toLower host)
  localSuffixes.any fun s => host = s || (byte '.' :: s).isSuffixOf host

def Policy.allowsHost (p : Policy) (host : Bytes) : Bool :=
  p.allowHosts.any fun h => trimDot (toLower h) = trimDot (toLower host)

def Policy.check (p : Policy) (host : Bytes) (ip : Addr) : Option BlockedError :=
  if classify ip = .isPublic ∨ p.allowsHost toLower host then none
  else if classify ip = .isPrivate ∧ p.allowPrivate then none
  else some ⟨host, classify ip⟩

/-- `CheckURL`, of a URL with this host. -/
def Policy.checkURL (p : Policy) (host : Bytes) : Option BlockedError :=
  if p.allowsHost toLower host then none
  else
    match literal host with
    | some ip => p.check toLower host ip
    | none =>
      if localName toLower host && !p.allowPrivate then some ⟨host, .isPrivate⟩ else none

end

end LocalBase.Netguard
