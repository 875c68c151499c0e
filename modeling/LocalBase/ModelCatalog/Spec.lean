import LocalBase.StructuredOutput.Json

/-!
# Catalog entries

An entry of the catalog is a JSON object, decoded strictly and validated. What
the loading reads of it is here; the rest of a decoded entry is passed on as it
is.

What the loading calls in Go's library and this development does not embed is
gathered in `Go`.
-/

namespace LocalBase.ModelCatalog

open StructuredOutput (Json Number Object)

structure Artifact where
  filename : String
  sha256 : String
  role : String
deriving DecidableEq, Repr

/-- What an entry decodes to; `rest` is what the loading does not read. -/
structure Decoded (F : Type) where
  modelID : String
  qualificationState : String
  kind : String
  artifacts : List Artifact
  inputModalities : List String
  outputModalities : List String
  rest : F
deriving DecidableEq, Repr

/-- The kinds of a Go type that a decoding failure is worded by. -/
inductive GoKind where
  | string
  | bool
  | number
  | slice
  | other
deriving DecidableEq, Repr

/-- Why an entry is refused: a field of the wrong type, or anything else. -/
inductive DecodeError where
  | type (field value : String) (kind : GoKind) (text : String)
  | other (text : String)
deriving DecidableEq, Repr

def DecodeError.text : DecodeError → String
  | .type _ _ _ text => text
  | .other text => text

def describeDecodeError : DecodeError → String
  | .other text => text
  | .type field value kind _ =>
    let expected :=
      match kind with
      | .string => "string"
      | .bool => "boolean"
      | .number => "number"
      | .slice => "array"
      | .other => "object"
    let received := if value = "bool" then "boolean" else value
    field ++ ": Invalid input: expected " ++ expected ++ ", received " ++ received

structure Go (F : Type) where
  /-- The `float64` a number reads as, as `Marshal` writes it; none out of
  range. -/
  float64 : Number → Option Number
  /-- A string, quoted (`%q`). -/
  quote : String → String
  toLower : String → String
  equalFold : String → String → Bool
  /-- Decode an object into a `Spec`, with unknown fields disallowed. -/
  decode : Object → Except DecodeError (Decoded F)

variable {F : Type} (go : Go F)

/-! ## Validation -/

def unsafeFilename (name : String) : Bool :=
  name = "" || name.toList.any (fun c => c = '/' || c = '\\') || name = "." || name = ".."

def kinds : List String := ["llm", "stt", "tts", "image", "video"]

/-- The artifacts one after another; `names` are those so far. -/
def validateArtifacts (names : List String) : List Artifact → Except DecodeError Unit
  | [] => .ok ()
  | a :: rest =>
    if unsafeFilename a.filename then
      .error (.other ("artifact filename " ++ go.quote a.filename ++ " is unsafe"))
    else if a.filename ∈ names then .error (.other "artifact filenames must be unique")
    else validateArtifacts (a.filename :: names) rest

def validate (s : Decoded F) : Except DecodeError (Decoded F) :=
  if s.modelID = "" then .error (.other "modelId is required")
  else if s.kind ∉ kinds then .error (.other ("kind " ++ go.quote s.kind ++ " is invalid"))
  else if s.artifacts = [] then .error (.other "artifacts must not be empty")
  else if s.inputModalities = [] ∨ s.outputModalities = [] then
    .error (.other "modalities must not be empty")
  else do
    validateArtifacts go [] s.artifacts
    if (s.artifacts.filter (·.role = "primary")).length ≠ 1 then
      .error (.other "exactly one primary artifact is required")
    else if s.qualificationState = "" then .ok { s with qualificationState := "qualified" }
    else .ok s

/-- The object's members in the order `Marshal` writes a map. -/
def sortedMembers (m : Object) : Object := m.insertionSort fun a b => a.1 ≤ b.1

def decodeStrict (raw : Object) : Except DecodeError (Decoded F) :=
  match go.decode (sortedMembers raw) with
  | .error err => .error err
  | .ok s => validate go s

/-! ## Fields -/

/-- The top-level fields a catalog entry may set, in schema order. -/
def specKeyOrder : List String :=
  ["modelId", "qualificationState", "kind", "provider", "displayName", "family", "version", "size",
    "quant", "codingScore", "storageGb", "source", "repositoryRevision", "artifacts", "llmRuntime",
    "ttsRuntime", "imageRuntime", "imageLaunchOptions", "videoRuntime", "videoCatalogOnly",
    "inputModalities", "outputModalities", "contextWindowTokens", "capabilities",
    "unsupportedCapabilities", "outputFormat", "experimentalRuntime", "diffusionWeightsOnly",
    "commercialStatus", "catch", "notes"]

def launchShaped : List String :=
  ["kind", "source", "repositoryRevision", "artifacts", "llmRuntime", "ttsRuntime", "imageRuntime",
    "imageLaunchOptions", "videoRuntime", "contextWindowTokens"]

mutual

def depth : Json → Nat
  | .arr xs => depthItems xs + 1
  | .obj m => depthMembers m + 1
  | _ => 0

def depthItems : List Json → Nat
  | [] => 0
  | x :: xs => max (depth x) (depthItems xs)

def depthMembers : List (String × Json) → Nat
  | [] => 0
  | (_, x) :: m => max (depth x) (depthMembers m)

end

/-- How deeply a document may nest for `jsjson.Parse`. -/
def maxParseDepth : Nat := 1000

/-- A key that JavaScript lists before the others. -/
def arrayIndex (k : String) : Option Nat :=
  let digits := k.toList
  if digits = [] ∨ (1 < digits.length ∧ digits.head? = some '0') ∨
      ¬ digits.all Char.isDigit then none
  else
    let n := digits.foldl (fun n c => 10 * n + (c.toNat - 48)) 0
    if n < 4294967295 then some n else none

/-- An object's keys in JavaScript order. -/
def objectKeys (m : Object) : List String :=
  let keys := m.map (·.1)
  (keys.filter fun k => (arrayIndex k).isSome).insertionSort
      (fun a b => (arrayIndex a).getD 0 ≤ (arrayIndex b).getD 0) ++
    keys.filter fun k => (arrayIndex k).isNone

/-- None where the document nests too deeply, or is no object. -/
def jsonKeys (data : Json) : List String :=
  if maxParseDepth < depth data then []
  else match data with
    | .obj m => objectKeys m
    | _ => []

def unknownKeys (data : Json) : List String :=
  (jsonKeys data).filter fun k => k ∉ specKeyOrder

/-! ## Values compared -/

mutual

/-- What a value decodes to as `any`; a number out of range is left out. -/
def decodeAny : Json → Json
  | .num n => ((go.float64 n).map Json.num).getD .null
  | .arr xs => .arr (decodeItems xs)
  | .obj m => .obj (decodeMembers m)
  | v => v

def decodeItems : List Json → List Json
  | [] => []
  | x :: xs => decodeAny x :: decodeItems xs

def decodeMembers : List (String × Json) → List (String × Json)
  | [] => []
  | (k, x) :: m => (k, decodeAny x) :: decodeMembers m

end

mutual

/-- Decoding it as `any` succeeds. -/
def inRange : Json → Bool
  | .num n => (go.float64 n).isSome
  | .arr xs => inRangeItems xs
  | .obj m => inRangeMembers m
  | _ => true

def inRangeItems : List Json → Bool
  | [] => true
  | x :: xs => inRange x && inRangeItems xs

def inRangeMembers : List (String × Json) → Bool
  | [] => true
  | (_, x) :: m => inRange x && inRangeMembers m

end

mutual

/-- `reflect.DeepEqual` of decoded values. -/
def deepEqual : Json → Json → Bool
  | .null, .null => true
  | .bool a, .bool b => a == b
  | .num a, .num b => a.value == b.value
  | .str a, .str b => a == b
  | .arr xs, .arr ys => deepEqualItems xs ys
  | .obj m, .obj n => m.length == n.length && deepEqualMembers m n
  | _, _ => false

def deepEqualItems : List Json → List Json → Bool
  | [], [] => true
  | x :: xs, y :: ys => deepEqual x y && deepEqualItems xs ys
  | _, _ => false

def deepEqualMembers : List (String × Json) → List (String × Json) → Bool
  | [], _ => true
  | (k, x) :: m, n => ((n.lookup k).map fun y => deepEqual x y).getD false && deepEqualMembers m n

end

/-- A field that is not there is no JSON. -/
def sameJSON (a : Option Json) (b : Json) : Bool :=
  (a.map fun a => inRange go a && inRange go b && deepEqual (decodeAny go a) (decodeAny go b)).getD
    false

/-- A field as `supersededByBuiltIn` compares it. -/
def comparedField (m : Object) (k : String) : Json :=
  match (m.lookup k).map (decodeAny go) with
  | some (.str s) =>
    if k = "source" then
      .str (String.ofList (s.toList.reverse.dropWhile (· = '/')).reverse)
    else .str s
  | some v => v
  | none => .null

/-- The fields that pin one artifact's download. -/
def pin (a : Object) : Object :=
  ["sourcePath", "filename", "expectedSizeBytes", "sha256", "source"].filterMap fun k =>
    (a.lookup k).map fun v =>
      match v with
      | .str s => (k, if k = "sha256" then .str (go.toLower s) else .str s)
      | v => (k, decodeAny go v)

/-- The artifacts as a list of maps, none of them if one is not a map. -/
def artifactObjects (raw : Option Json) : List Object :=
  match raw with
  | some (.arr xs) =>
    if xs.all fun x => inRange go x && (x.object?.isSome || x matches .null) then
      xs.map fun x => x.object?.getD []
    else []
  | _ => []

/-- The pins of the artifacts, canonical and sorted. -/
def pinnedFiles (raw : Option Json) : List String :=
  ((artifactObjects go raw).map fun a =>
    String.ofList (StructuredOutput.marshal (.obj (pin go a)))).insertionSort fun a b => a ≤ b

/-- A complete user spec for a built-in id that pins the built-in's repository,
revision and files exactly. -/
def supersededByBuiltIn (builtIn user : Object) : Bool :=
  (match decodeStrict go user with
    | .ok _ => true
    | .error _ => false) &&
  ["source", "repositoryRevision", "kind"].all (fun k =>
    StructuredOutput.marshal (comparedField go builtIn k) =
      StructuredOutput.marshal (comparedField go user k)) &&
  pinnedFiles go (builtIn.lookup "artifacts") = pinnedFiles go (user.lookup "artifacts")

end LocalBase.ModelCatalog
