import Mathlib.Data.List.Sort
import LocalBase.Lib.Crew
import LocalBase.Lib.Folders

/-!
# Importing a model

An import brings the files of a plan into a staging directory, checks each,
and moves the directory to where imported models are, which publishes it; then
it records what it brought. A staging directory is named by the source and the
id of its plan, so that an import that failed is resumed by the next.

Names are of one part, as a plan's are. What is in a file's header, what a
server answers and where a call fails is not for the program to choose.
-/

namespace LocalBase.Imports

open Program Files

abbrev Bytes : Type := List UInt8

abbrev Name : Type := String

/-- A call, in one of the processes. -/
structure Run where
  process : Nat
  number : Nat
deriving DecidableEq, Repr

/-! ## Plans -/

/-- `""` where nothing is known of a checksum, and 0 of a size. -/
structure PlannedFile where
  filename : Name
  role : String
  required : Bool
  sizeBytes : Int
  sha256 : String
  hashTrust : String
  sourceURL : String
  fetchURL : String
  localPath : String
deriving DecidableEq, Repr

/-- Where a download goes before it is complete. -/
def partialName (x : Name) : Name := x ++ ".partial"

/-- `validatorPath`, of a partial. -/
def validatorName (x : Name) : Name := x ++ ".validator"

def PlannedFile.partialFile (f : PlannedFile) : Name := partialName f.filename

def PlannedFile.validatorFile (f : PlannedFile) : Name := validatorName f.partialFile

/-- No two files of a plan have one name. -/
structure Plan where
  id : String
  kind : String
  display : String
  task : String
  files : List PlannedFile
  choices : List Name
  maxUnknownBytes : Int
  distinct : (files.map (·.filename)).Nodup
deriving DecidableEq

/-- The name of a plan's staging directory: `short` is the start of a SHA-256 in
hexadecimal. -/
def Plan.staging (short : String → String) (p : Plan) : Name :=
  p.id ++ "-" ++ short (p.kind ++ "\x00" ++ p.display ++ "\x00" ++ p.id)

/-! ## Directories -/

/-- The directories of a root that imports are about: that of imported models,
one of them, and one under `.staging`. -/
inductive Dir where
  | imports
  | imported (id : String)
  | staging (name : Name)
deriving DecidableEq, Repr

/-! ## Models -/

def tasks : List String :=
  ["chat", "embeddings", "decision", "image", "video", "speech", "transcription"]

def roleWeights : String := "weights"
def roleProjector : String := "projector"
def roleCompanion : String := "companion"

def hashObserved : String := "observed"

/-- What is recorded of a file; a shard that was found beside the others has no
size and no checksum. -/
structure Artifact where
  filename : Name
  role : String
  required : Bool
  sizeBytes : Option Nat
  sha256 : Option String
  hashTrust : String
  sourceURL : String
deriving DecidableEq, Repr

structure Model where
  id : String
  task : String
  capabilities : List String
  variantID : String
  artifacts : List Artifact
deriving DecidableEq, Repr

/-! ## Errors -/

inductive Err where
  | system (text : String)
  | chooseFile (choices : List Name)
  | noTask
  | unknownTask (task : String)
  | alreadyImported (id : String)
  | noSpace (need usable : Int)
  | tooLarge (limit : Int)
  | httpStatus (code : Nat)
  | sentMore (expected : Int)
  | inconsistent
  | wrongSize (filename : Name) (got : Nat) (expected : Int)
  | hashMismatch (filename : Name) (expected actual trust : String)
  | notPublished (filename : Name) (problem : String)
  | incomplete (missing : List Name)
  | modelID (id : String)
  | variantID (id : String)
  | artifactName (variant : String) (filename : Name)
  | embeddedCredentials (variant : String)
  | noArtifacts (variant : String)
  | notImported (id : String)
deriving DecidableEq, Repr

/-- `RefusedError`: what is using the space is not kept. -/
def Err.refused : Err → Bool
  | .noSpace _ _ | .tooLarge _ => true
  | _ => false

/-! ## Responses -/

/-- What a server answers: its headers, `""` where there is none, the pieces
its body comes in, and the error it breaks off with. -/
structure Response where
  status : Nat
  contentRange : String
  etag : String
  lastModified : String
  body : List Bytes
  broken : Option Err
deriving DecidableEq, Repr

/-- The digits at the start of a text, and what is behind the mark that
follows. -/
def digitsBefore (mark : Char) (cs : List Char) : Option (List Char × List Char) :=
  match cs.takeWhile Char.isDigit, cs.dropWhile Char.isDigit with
  | d :: ds, c :: rest => if c = mark then some (d :: ds, rest) else none
  | _, _ => none

/-- `contentRangeRe`: the first byte, as it is written. -/
def rangeStart (header : String) : Option (List Char) :=
  let cs := header.toList
  if "bytes ".toList.isPrefixOf cs then do
    let (start, cs) ← digitsBefore '-' (cs.drop 6)
    let (_, cs) ← digitsBefore '/' cs
    if cs = ['*'] ∨ cs ≠ [] ∧ cs.all Char.isDigit then some start else none
  else none

/-- The server resumed from where it was asked to. -/
def Response.resumesAt (resp : Response) (offset : Nat) : Bool :=
  rangeStart resp.contentRange = some (Nat.toDigits 10 offset)

/-! ### Validators -/

/-- The server gave nothing to resume by. -/
def validatorNone : String := "none"

/-- And the person has been told. -/
def validatorNoticed : String := "noticed"

def usable (v : String) : Bool := v ≠ "" ∧ v ≠ validatorNone ∧ v ≠ validatorNoticed

/-- `validatorOf`: a weak tag can't be used. -/
def Response.validator (resp : Response) : String :=
  if resp.etag ≠ "" ∧ ¬"W/".toList.isPrefixOf resp.etag.toList then resp.etag
  else if resp.lastModified ≠ "" then resp.lastModified
  else validatorNone

/-! ## Limits -/

/-- What stops a running download that would cost too much. -/
structure Budget where
  unknown : Bool
  limit : Int
  nextCheck : Int
deriving DecidableEq, Repr

def freeSpaceReserve : Int := 2147483648

def freeSpaceEvery : Int := 67108864

def maxUnknownSizeBytes : Int := 274877906944

def Plan.budget (p : Plan) (expected : Int) : Budget :=
  ⟨expected ≤ 0, if p.maxUnknownBytes > 0 then p.maxUnknownBytes else maxUnknownSizeBytes, 0⟩

/-! ## Inspection -/

structure FileFacts where
  refused : Bool
  problem : String
  role : String
  format : String
  precision : String
  splitIndex : Nat
  splitCount : Nat
deriving DecidableEq, Repr

/-- A role as the file's header says it. -/
def Artifact.withRole (a : Artifact) (ff : FileFacts) : Artifact :=
  if ff.role = roleProjector then { a with role := roleProjector }
  else if a.role = roleProjector then { a with role := roleCompanion }
  else a

def fiveDigits (n : Nat) : String :=
  String.ofList (List.leftpad 5 '0' (Nat.toDigits 10 n))

/-- `shardNameRe`: what a shard's name begins with. -/
def shardStem (x : Name) : Option String :=
  let cs := x.toList.reverse
  -- The longest stem, as the name is read from its end: .gguf, five digits, -of-, five, a dash.
  let number (cs : List Char) : Bool := cs.length = 5 && cs.all Char.isDigit
  if cs.take 5 = "fugg.".toList ∧ number ((cs.drop 5).take 5) ∧
      (cs.drop 10).take 4 = "-fo-".toList ∧ number ((cs.drop 14).take 5) ∧
      (cs.drop 19).take 1 = ['-'] ∧ '\n' ∉ cs.drop 20 then
    some (String.ofList (cs.drop 20).reverse)
  else none

def shardName (stem : String) (i count : Nat) : Name :=
  stem ++ "-" ++ fiveDigits i ++ "-of-" ++ fiveDigits count ++ ".gguf"

def maxVariantArtifacts : Nat := 16384

/-- A shard that the plan did not list. -/
def unlisted (name : Name) : Artifact := ⟨name, roleWeights, true, none, none, "", ""⟩

/-- A file is of the recorded size, where there is one. -/
def Artifact.sized (a : Artifact) (size : Nat) : Bool :=
  a.sizeBytes.all fun n => n = 0 ∨ size = n

/-- The first readable weights file speaks for the variant. -/
def precisionOf (weights : List FileFacts) : String :=
  match (weights.insertionSort fun a b => a.splitIndex ≤ b.splitIndex).find?
      fun ff => ff.problem = "" ∨ ff.format ≠ "" with
  | some ff => ff.precision
  | none => ""

/-- `strings.ToLower`, of a text in ASCII, with dashes for underscores. -/
def variantIDOf (precision : String) : String :=
  if precision = "" then "default"
  else String.ofList (precision.toList.map fun c => if c = '_' then '-' else c.toLower)

/-! ### Validation -/

/-- `ValidID`. -/
def validID (s : String) : Bool :=
  let first (c : Char) : Bool := c.isLower || c.isDigit
  match s.toList with
  | [] => false
  | c :: cs => first c && cs.length ≤ 127 &&
      cs.all fun c => first c || c = '.' || c = '_' || c = '-'

/-- The artifacts of a variant are files of different names, and none has
credentials in its address. -/
def checkArtifacts (variant : String) : List Name → List Artifact → Option Err
  | _, [] => none
  | seen, a :: rest =>
    if a.filename = "" ∨ a.filename.toList.any (fun c => c = '/' ∨ c = '\\') ∨ a.filename = "." ∨
        a.filename = ".." ∨ a.filename ∈ seen then
      some (.artifactName variant a.filename)
    else if a.sourceURL.toList.any (· = '@') then some (.embeddedCredentials variant)
    else checkArtifacts variant (a.filename :: seen) rest

/-- `Model.Validate`; an import's task was checked before. -/
def Model.validate (m : Model) : Option Err :=
  if ¬validID m.id then some (.modelID m.id)
  else if m.task ∉ tasks then some (.unknownTask m.task)
  else if ¬validID m.variantID then some (.variantID m.variantID)
  else if m.artifacts = [] then some (.noArtifacts m.variantID)
  else checkArtifacts m.variantID [] m.artifacts

end LocalBase.Imports
