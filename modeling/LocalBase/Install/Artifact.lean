import LocalBase.Lib.Crew
import LocalBase.Lib.Files

/-!
# Installing a model

`Model` brings a model's files into a directory: each is downloaded into a
partial, verified against the size and the SHA-256 that the catalog pins, and
renamed to its final name. Calls run side by side in one process. A lock
keeps calls for one model apart; models can name the same file.

What was verified is remembered by the identity of the file, in a record beside
the models that every call reads and rewrites. The identity of a file changes
with what is in it: a change that would give other bytes an identity that is
known is not to be had. What a server answers, where a call fails and where the
process dies is not for the program to choose.
-/

namespace LocalBase.Install

open Program Files

abbrev Bytes : Type := List UInt8

/-- A call, as the others see it. -/
abbrev Caller : Type := Nat

/-! ## Models -/

inductive Role where
  | primary
  | supplementary
deriving DecidableEq, Repr

structure Artifact where
  filename : String
  expectedSizeBytes : Int
  sha256 : String
  role : Role
deriving DecidableEq, Repr

structure Spec where
  modelID : String
  artifacts : List Artifact
deriving DecidableEq, Repr

structure Path where
  dir : String
  name : String
deriving DecidableEq, Repr

def Artifact.out (a : Artifact) (dir : String) : Path := ⟨dir, a.filename⟩

def Artifact.partialPath (a : Artifact) (dir : String) : Path := ⟨dir, a.filename ++ ".partial"⟩

/-- The files a model names, final and partial. -/
def Spec.files (s : Spec) (dir : String) : List Path :=
  s.artifacts.map (·.out dir) ++ s.artifacts.map (·.partialPath dir)

/-- The artifact that the model is started from. -/
def Spec.primary (s : Spec) : Option Artifact := s.artifacts.find? (·.role = .primary)

/-- `strings.ToLower`, of a text in ASCII. -/
def lower (s : String) : String := String.ofList (s.toList.map Char.toLower)

/-- `strings.EqualFold`, likewise. -/
def equalFold (s t : String) : Bool := lower s = lower t

/-! ## Errors -/

inductive Err where
  | system (text : String)
  | metadata (modelID : String)
  | diskSpace (modelID : String) (need free : Int) (dir : String)
  | httpStatus (code : Nat)
  | newDownload (code : Nat)
  | resumedDownload (code : Nat)
  | contentLengthHeader (header : String)
  | contentRangeHeader (header : String)
  | contentLength (length expected : Int)
  | contentRange (header : String) (offset expected : Int)
  | exceeds (expected : Int)
  | ended (n expected : Int)
  | size (filename : String) (expected got : Int)
  | checksum (filename expected got : String)
deriving DecidableEq, Repr

/-! ## Responses -/

/-- What a server answers: its headers, `""` where there is none, the pieces
its body comes in, and the error it breaks off with. -/
structure Response where
  status : Nat
  contentLength : String
  contentRange : String
  body : List Bytes
  broken : Option Err
deriving DecidableEq, Repr

def maxInt64 : Int := 9223372036854775807

def digits (cs : List Char) : Option Nat :=
  if cs ≠ [] ∧ cs.all Char.isDigit then some (Nat.ofDigitChars 10 cs 0) else none

/-- `strconv.ParseInt` of a decimal number. -/
def parseInt (text : String) : Option Int :=
  let value : Option Int := match text.toList with
    | '-' :: cs => (digits cs).map fun n => -(n : Int)
    | '+' :: cs => (digits cs).map Nat.cast
    | cs => (digits cs).map Nat.cast
  value.filter fun v => -maxInt64 - 1 ≤ v ∧ v ≤ maxInt64

/-- The digits at the start of a text, at most the largest number there is, and
what is behind the mark that follows. -/
def numberBefore (mark : Option Char) (cs : List Char) : Option (Int × List Char) :=
  (digits (cs.takeWhile Char.isDigit)).bind fun n =>
    match mark, cs.dropWhile Char.isDigit with
    | none, [] => some (min n maxInt64, [])
    | some m, c :: rest => if c = m then some (min n maxInt64, rest) else none
    | _, _ => none

/-- `contentRangeRe`: the first and the last byte, and how many there are. -/
def contentRangeOf (header : String) : Option (Int × Int × Int) :=
  let cs := header.toList
  if "bytes ".toList.isPrefixOf cs then do
    let (start, cs) ← numberBefore (some '-') (cs.drop 6)
    let (stop, cs) ← numberBefore (some '/') cs
    let (total, _) ← numberBefore none cs
    return (start, stop, total)
  else none

/-- What is wrong with a response to a new download. -/
def checkNew (resp : Response) (length : Option Int) (expected : Int) : Option Err :=
  if resp.status ≠ 200 ∨ resp.contentRange ≠ "" then some (.newDownload resp.status)
  else match length with
    | some n => if n ≠ expected then some (.contentLength n expected) else none
    | none => none

def checkResumed (resp : Response) (length : Option Int) (offset : Nat) (expected : Int) :
    Option Err :=
  if resp.status ≠ 206 ∨ resp.contentRange = "" then some (.resumedDownload resp.status)
  else match contentRangeOf resp.contentRange with
    | none => some (.contentRangeHeader resp.contentRange)
    | some (start, stop, total) =>
      if start ≠ offset ∨ stop < start ∨ stop ≥ total ∨ total ≠ expected then
        some (.contentRange resp.contentRange offset expected)
      else match length with
        | some n =>
          if n ≠ stop - start + 1 then some (.contentLength n (stop - start + 1)) else none
        | none => none

def checkFraming (resp : Response) (offset : Nat) (expected : Int) : Option Err :=
  let check (length : Option Int) : Option Err :=
    if offset = 0 then checkNew resp length expected
    else checkResumed resp length offset expected
  if resp.contentLength = "" then check none
  else match parseInt resp.contentLength with
    | some v => if v < 0 then some (.contentLengthHeader resp.contentLength) else check (some v)
    | none => some (.contentLengthHeader resp.contentLength)

/-! ## The record of what was verified -/

/-- What tells a file from another, and from itself before it was changed; the
device is one. -/
structure Identity where
  size : Nat
  mtimeMs : Nat
  ctimeMs : Nat
  ino : Nat
deriving DecidableEq, Repr

structure CacheEntry where
  authoritativeSha256 : String
  expectedSizeBytes : Int
  file : Identity
deriving DecidableEq, Repr

/-- The entries of a record, by file name. -/
abbrev Cache : Type := String → Option CacheEntry

def Cache.empty : Cache := fun _ => none

/-- The record says that this file is what the catalog pins. -/
def Cache.trusts (c : Cache) (a : Artifact) (id : Identity) : Bool :=
  match c a.filename with
  | some e => lower e.authoritativeSha256 = lower a.sha256 ∧
      e.expectedSizeBytes = a.expectedSizeBytes ∧ e.file = id
  | none => false

/-- The entry of a file that was renamed since: the same in all but the time of
the change. -/
def Cache.renamed (c : Cache) (a : Artifact) (now : Identity) : Option CacheEntry :=
  match c a.filename with
  | some e =>
    if equalFold e.authoritativeSha256 a.sha256 ∧ e.expectedSizeBytes = a.expectedSizeBytes ∧
        now.ino = e.file.ino ∧ now.size = e.file.size ∧ now.mtimeMs = e.file.mtimeMs then
      some { e with file := now }
    else none
  | none => none

def Cache.put (c : Cache) (name : String) (e : CacheEntry) : Cache :=
  Function.update c name (some e)

end LocalBase.Install
