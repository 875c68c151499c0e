import LocalBase.Lib.Double
import LocalBase.Lib.Follows

/-!
# Reading a GGUF header

The header of a model file is a list of keys with typed values, and a table of
tensors. The reader keeps some of it and steps over the rest: long texts, long
arrays, arrays of texts, and whatever its caller does not ask for. It counts what it
reads, keeps and steps over, and stops where a file asks for too much.
-/

namespace LocalBase.Gguf

open Sim

abbrev Bytes := List UInt8

def ascii (s : String) : Bytes := s.toList.map fun c => UInt8.ofNat c.toNat

def ggufMagic : Nat := 0x46554747
def maxKVCount : Nat := 1000000
def maxKeptArrayElements : Nat := 4096
def maxKeptStringBytes : Nat := 256
def maxParseWork : Nat := 8000000
/-- What one header can make the gateway hold. -/
def maxKeptBytes : Nat := 64 * 1024 * 1024
/-- What a header may ask to step over. -/
def maxSkippedBytes : Nat := 2 * 1024 * 1024 * 1024
def maxTensorCount : Nat := 1024 * 1024
/-- What a table entry costs beyond its name. -/
def tensorEntryBytes : Nat := 112
def maxTensorName : Nat := 1024
/-- The longest text there may be. -/
def maxString : Nat := 1024 * 1024 * 1024

def ggufTypeString : Nat := 8
def ggufTypeArray : Nat := 9

def fixedSizes : Nat → Option Nat
  | 0 | 1 | 7 => some 1
  | 2 | 3 => some 2
  | 4 | 5 | 6 => some 4
  | 10 | 11 | 12 => some 8
  | _ => none

inductive ReadError where
  | endOfFile
  | text (message : String)
  /-- GGUF arrays of arrays are not allowed. -/
  | nestedArray
  | unknownType (t : Nat)
deriving DecidableEq

/-- What is left of the file, and what was counted. -/
structure Reader where
  rest : Bytes
  work : Nat := 0
  kept : Nat := 0
  skipped : Nat := 0

abbrev Read (α : Type) : Type := Reads Reader ReadError α

inductive Value where
  | num (f : Double)
  | str (s : Bytes)
  | nums (fs : List Double)
deriving DecidableEq

/-- The kept values: none where a key is missing. -/
abbrev Values := Bytes → Option Value

def setValue (values : Values) (key : Bytes) (v : Value) : Values :=
  fun k => if k = key then some v else values k

structure TensorInfo where
  name : Bytes
  dims : List Nat
  type : Nat
deriving DecidableEq

/-! ## Steps -/

/-- Stops with the error where the condition holds. -/
def refuse (p : Prop) [Decidable p] (e : ReadError) : Read Unit := if p then throw e else pure ()

def keep (n : Nat) : Read Unit := fun g =>
  if maxKeptBytes < g.kept + n then .error (.text "GGUF header keeps too much")
  else .ok ((), { g with kept := g.kept + n })

def spend (n : Nat) : Read Unit := fun g =>
  if maxParseWork < g.work + n then .error (.text "GGUF header too large")
  else .ok ((), { g with work := g.work + n })

/-- `io.ReadFull`. -/
def readFull (n : Nat) : Read Bytes := fun g =>
  if g.rest.length < n then .error .endOfFile
  else .ok (g.rest.take n, { g with rest := g.rest.drop n })

/-- Steps over `n` bytes of the file. -/
def skip (n : Nat) : Read Unit := fun g =>
  if maxSkippedBytes < g.skipped + n then .error (.text "GGUF header too large")
  else if g.rest.length < n then .error .endOfFile
  else .ok ((), { g with skipped := g.skipped + n, rest := g.rest.drop n })

def littleEndian : Bytes → Nat
  | [] => 0
  | b :: bs => b.toNat + 256 * littleEndian bs

def u32 : Read Nat := littleEndian <$> readFull 4

def u64 : Read Nat := littleEndian <$> readFull 8

/-- A read that says the one error whatever fails in it. -/
def saying {α : Type} (e : ReadError) (x : Read α) : Read α := fun g => (x g).mapError fun _ => e

/-- Where the error is not looked at: what there is of the four bytes. -/
def u32Any : Read Nat := fun g =>
  .ok (littleEndian (g.rest.take 4), { g with rest := g.rest.drop 4 })

/-- Nothing where the text is stepped over. -/
def str (kept : Bool) (maxBytes : Nat) : Read (Option Bytes) := do
  let n ← u64
  refuse (maxString < n) (.text "implausible GGUF string")
  if ¬ kept ∨ maxBytes < n then do
    skip n
    return none
  else do
    keep n
    return some (← readFull n)

/-- A text of which nobody looks whether it was stepped over. -/
def strOrEmpty (maxBytes : Nat) : Read Bytes := (·.getD []) <$> str true maxBytes

/-- The number in `bits` bits, with a sign. -/
def signed (bits n : Nat) : Int := if 2 ^ (bits - 1) ≤ n then n - 2 ^ bits else n

def maxExact : Nat := 2 ^ 53

/-- What the bytes of a fixed-size value are as a float: NaN for 64-bit integers past 2^53. -/
def decode (t : Nat) (b : Bytes) : Double :=
  let n := littleEndian b
  match t with
  | 0 | 2 | 4 => .ofInt n
  | 1 => .ofInt (signed 8 n)
  | 3 => .ofInt (signed 16 n)
  | 5 => .ofInt (signed 32 n)
  | 6 => .ofBits 8 23 n
  | 7 => if n ≠ 0 then .ofInt 1 else .ofInt 0
  | 10 => if maxExact < n then .nan else .ofInt n
  | 11 =>
    let v := signed 64 n
    if (maxExact : Int) < v ∨ v < -maxExact then .nan else .ofInt v
  | _ => .ofBits 11 52 n

/-- A value of the type, which has a fixed size. -/
def scalar (t size : Nat) : Read Double := decode t <$> readFull size

/-- It never calls `value`: the elements are not arrays. -/
def array (kept : Bool) : Read (Option Value) := do
  let et ← u32
  refuse (et = ggufTypeArray) .nestedArray
  let n ← u64
  spend (min n (maxParseWork + 1))
  match fixedSizes et with
  | none => do
      refuse (et ≠ ggufTypeString) (.unknownType et)
      let _ ← timesOf (str false 0) n
      return none
  | some size =>
    if kept ∧ n ≤ maxKeptArrayElements then do
      return some (.nums (← timesOf (scalar et size) n))
    else do
      skip (n * size)
      return none

def value (t : Nat) (kept : Bool) (maxStr : Nat) : Read (Option Value) :=
  if t = ggufTypeString then (Option.map Value.str) <$> str kept maxStr
  else if t = ggufTypeArray then array kept
  else
    match fixedSizes t with
    | none => throw (.unknownType t)
    | some size => do
        let v ← scalar t size
        return if kept then some (.num v) else none

/-! ## The header -/

section

variable (keeps : Bytes → Bool) (maxStr : Bytes → Nat)

def readKey (values : Values) : Read Values := do
  spend 1
  let key ← strOrEmpty maxKeptStringBytes
  let t ← u32
  let v ← value t (keeps key) (maxStr key)
  return match v with
    | some v => if keeps key then setValue values key v else values
    | none => values

/-- The kept values, and how many tensors the header says there are. -/
def parseKeyBlock : Read (Values × Nat) := do
  let magic ← saying (.text "not a GGUF file") u32
  refuse (magic ≠ ggufMagic) (.text "not a GGUF file")
  let v ← u32Any
  refuse (v ≠ 2 ∧ v ≠ 3) (.text ("unsupported GGUF version " ++ toString v))
  let tensorCount ← u64
  let count ← saying (.text "implausible GGUF key count") u64
  refuse (maxKVCount < count) (.text "implausible GGUF key count")
  let values ← loopOf (readKey keeps maxStr) count fun _ => none
  return (values, tensorCount)

/-- One entry of the tensor table. -/
def readTensor : Read TensorInfo := do
  spend 1
  keep tensorEntryBytes
  let name ← strOrEmpty maxTensorName
  let nd ← saying (.text "implausible GGUF tensor dimensions") u32
  refuse (8 < nd) (.text "implausible GGUF tensor dimensions")
  let dims ← timesOf u64 nd
  let type ← u32
  let _offset ← u64
  return { name := name, dims := dims, type := type }

def readHeader (withTensors : Bool) : Read (Values × List TensorInfo) := do
  let block ← parseKeyBlock keeps maxStr
  if ¬ withTensors then return (block.1, [])
  else do
    refuse (maxTensorCount < block.2) (.text "implausible GGUF tensor count")
    return (block.1, ← timesOf readTensor block.2)

/-- `parseHeader`. -/
def parseHeader (withTensors : Bool) (src : Bytes) : Except ReadError (Values × List TensorInfo) :=
  Prod.fst <$> readHeader keeps maxStr withTensors { rest := src }

end

end LocalBase.Gguf
