import LocalBase.Jsjson.Value
import LocalBase.Runtime.Plan
import LocalBase.Toml.Written

/-!
# The declarative configuration

The settings that a document holds: the listener, the runtime, the models and the
memory reserves. `Document` writes them out as JSON, `Project` copies them, and
`Compose` sets them over a saved configuration. Each has its own list of them.
-/

namespace LocalBase.Conf

open Jsjson (Doubles Value)
open LocalBase.Runtime (atoi)
open Toml (Bytes runes)

/-- Doubles, and what an integer converts to. -/
structure Floats extends Doubles where
  ofInt : Int → Double

inductive Kind where
  | llm
  | stt
  | tts
  | image
  | video
deriving DecidableEq

structure MemoryReserve (F : Type) where
  percent : F
  minimumGB : F

/-- The single `config` row. A kind that is not in a map has no models. The hosts
are bytes, which nothing checks; the models are those of a catalog, and their names
are read from JSON. -/
structure Config (F : Type) where
  root : String
  gatewayHost : Bytes
  gatewayPort : Int
  host : Bytes
  port : Int
  ctxSize : Int
  ctxMode : String
  sttHost : Bytes
  sttPort : Int
  selected : Kind → List String
  active : Kind → String
  allowExperimental : Bool
  hfToken : String
  installMissingModels : Bool
  parallel : String
  otelEndpoint : String
  otelHeaders : String
  otelSampleRatio : Int
  systemReserve : MemoryReserve F
  acceleratorReserve : MemoryReserve F
  defaultLLMs : List String

section
variable {F : Type}

def normalize (c : Config F) : Config F :=
  { c with selected := fun k => (c.selected k).insertionSort (· ≤ ·) }

/-- `Project`: the declarative fields, and no others. -/
def project (c : Config F) : Config F where
  root := ""
  gatewayHost := c.gatewayHost
  gatewayPort := c.gatewayPort
  host := c.host
  port := c.port
  ctxSize := c.ctxSize
  ctxMode := c.ctxMode
  parallel := c.parallel
  sttHost := c.sttHost
  sttPort := c.sttPort
  allowExperimental := c.allowExperimental
  selected k := c.selected k
  active k := c.active k
  systemReserve := c.systemReserve
  acceleratorReserve := c.acceleratorReserve
  defaultLLMs := c.defaultLLMs
  hfToken := ""
  installMissingModels := false
  otelEndpoint := ""
  otelHeaders := ""
  otelSampleRatio := 0

/-- `Compose`: a document's settings over the current ones. -/
def compose (current desired : Config F) : Config F :=
  let d := project desired
  { current with
    gatewayHost := d.gatewayHost
    gatewayPort := d.gatewayPort
    host := d.host
    port := d.port
    ctxSize := d.ctxSize
    ctxMode := d.ctxMode
    parallel := d.parallel
    sttHost := d.sttHost
    sttPort := d.sttPort
    allowExperimental := d.allowExperimental
    selected := d.selected
    active := d.active
    defaultLLMs := d.defaultLLMs
    systemReserve := d.systemReserve
    acceleratorReserve := d.acceleratorReserve }

end

/-! ## The document -/

section
variable (go : Floats)

abbrev Object : Type := List (String × Value go.Double)

/-- `strconv.Atoi`, of what fits an `int`. -/
def intOf (s : String) : Option Int :=
  (atoi s).filter fun n => -9223372036854775808 ≤ n ∧ n < 9223372036854775808

def obj (kv : Object go) : Object go := kv.foldl (fun o e => Jsjson.set e.1 e.2 o) []

/-- Bytes as they are written in a document: what is not UTF-8 is U+FFFD, each of it. -/
def text (s : Bytes) : String := String.ofList ((runes s).map Char.ofNat)

def strs (ids : List String) : Value go.Double := .arr (ids.map .str)

def int (n : Int) : Value go.Double := .num (go.ofInt n)

def parallelValue (parallel : String) : Value go.Double :=
  match intOf parallel with
  | some p => int go p
  | none => .str parallel

def reserve (r : MemoryReserve go.Double) : Value go.Double :=
  .obj (obj go [("percent", .num r.percent), ("minimumGb", .num r.minimumGB)])

/-- `Document`. -/
def document (c : Config go.Double) : Object go :=
  let n := normalize (project c)
  let models := obj go [("allowExperimental", .bool n.allowExperimental),
    ("selectedLlmModels", strs go (n.selected .llm)),
    ("selectedSttModels", strs go (n.selected .stt)),
    ("selectedTtsModels", strs go (n.selected .tts)),
    ("selectedImageModels", strs go (n.selected .image)),
    ("selectedVideoModels", strs go (n.selected .video)),
    ("activeLlmModel", .str (n.active .llm)), ("activeSttModel", .str (n.active .stt)),
    ("activeTtsModel", .str (n.active .tts)), ("activeImageModel", .str (n.active .image)),
    ("activeVideoModel", .str (n.active .video))]
  let models :=
    if 2 ≤ n.defaultLLMs.length then
      Jsjson.set "defaultLlmModels" (strs go n.defaultLLMs) models
    else models
  obj go [("version", int go 1),
    ("gateway", .obj (obj go [("host", .str (text n.gatewayHost)),
      ("port", int go n.gatewayPort)])),
    ("runtime", .obj (obj go [("host", .str (text n.host)), ("port", int go n.port),
      ("ctxSize", int go n.ctxSize), ("ctxMode", .str n.ctxMode),
      ("parallel", parallelValue go n.parallel), ("sttHost", .str (text n.sttHost)),
      ("sttPort", int go n.sttPort)])),
    ("models", .obj models),
    ("memory", .obj (obj go [("systemReserve", reserve go n.systemReserve),
      ("acceleratorReserve", reserve go n.acceleratorReserve)]))]

end

/-!
## Planning a change

`PlanChanges` holds a document against the saved configuration: it walks the two
documents side by side and lists what differs. A video model that is newly selected
must be able to run on this host.
-/

open Jsjson (Value listed stringify)

structure VideoTarget where
  platform : String
  architecture : String
  accelerator : String

def VideoTarget.text (t : VideoTarget) : String :=
  t.platform ++ "/" ++ t.architecture ++ "/" ++ t.accelerator

/-- What of a catalog entry says where it runs. -/
structure Spec where
  qualificationState : String
  videoRuntime : Option (List VideoTarget)

def supportedVideoTargets : List String := ["darwin/arm64/apple-unified"]

def Spec.videoRunsAnywhere (s : Spec) : Bool :=
  (s.videoRuntime.getD []).any fun t => supportedVideoTargets.contains t.text

def Spec.videoRefusal (s : Spec) : String :=
  if s.videoRunsAnywhere then "Video generation runs only on Apple Silicon Macs today."
  else "This video model can't run on any computer LocalBase supports today. " ++
    "Choose another video model."

/-- What a host has: its video target, empty where there is none, and the catalog. -/
structure Host where
  videoTarget : String
  byID : String → Option Spec

def experimentalOptIn : String :=
  "Experimental models require models.allowExperimental = true."

/-- `Ineligible`: why a model cannot be selected, empty where it can. -/
def Host.ineligible (h : Host) (s : Spec) (allowExperimental : Bool) : String :=
  if s.qualificationState = "experimental" ∧ allowExperimental = false then experimentalOptIn
  else
    match s.videoRuntime with
    | none => ""
    | some targets =>
      if targets.any fun t => t.text = h.videoTarget then "" else s.videoRefusal

structure Change (F : Type) where
  path : String
  before : Value F
  after : Value F
  activation : String

structure Plan (F : Type) where
  changed : Bool
  restartRequired : Bool
  pendingRestart : Bool
  changes : List (Change F)

section
variable (go : Floats)

/-- `l.Get(k)`, of what may be no object. -/
def get (left : Value go.Double) (k : String) : Value go.Double :=
  match left with
  | .obj o => (o.lookup k).getD .null
  | _ => .null

mutual

def compare (path : String) (left : Value go.Double) (activation : String) :
    Value go.Double → List (Change go.Double)
  | .obj r => (listed (compareMembers path left activation r)).flatMap (·.2)
  | right =>
    if stringify go.toDoubles left = stringify go.toDoubles right then []
    else [⟨path, left, right, activation⟩]

def compareMembers (path : String) (left : Value go.Double) (activation : String) :
    Object go → List (String × List (Change go.Double))
  | [] => []
  | (k, rv) :: r =>
    (k, compare (path ++ "." ++ k) (get go left k) activation rv) ::
      compareMembers path left activation r

end

/-- The list of chat models, where only the saved configuration has one. -/
def compareDefaults (l r : Value go.Double) : List (Change go.Double) :=
  match l, r with
  | .obj lo, .obj ro =>
    match lo.lookup "defaultLlmModels" with
    | some lv =>
      if (ro.lookup "defaultLlmModels").isSome then []
      else [⟨"models.defaultLlmModels", lv, .null, "hot"⟩]
    | none => []
  | _, _ => []

/-- The changes, as they are found. -/
def changes (current : Option (Config go.Double)) (desired : Config go.Double) :
    List (Change go.Double) :=
  let left name := ((current.map (document go)).bind (·.lookup name)).getD .null
  let right name := ((document go desired).lookup name).getD .null
  compare go "gateway" (left "gateway") "restart-required" (right "gateway") ++
    compare go "runtime" (left "runtime") "hot" (right "runtime") ++
    compare go "models" (left "models") "hot" (right "models") ++
    compareDefaults go (left "models") (right "models") ++
    compare go "memory" (left "memory") "restart-required" (right "memory")

/-- A newly selected video model that cannot run here. -/
def refusal (h : Host) (current : Option (Config go.Double)) (desired : Config go.Double) :
    Option String :=
  let previous := (current.map fun c => c.selected .video).getD []
  (desired.selected .video).findSome? fun id =>
    if previous.contains id then none
    else (h.byID id).bind fun s =>
      let reason := h.ineligible s desired.allowExperimental
      if reason = "" then none else some (id ++ ": " ++ reason)

/-- `PlanChanges`; nothing saved is `none`. -/
def planChanges (h : Host) (current : Option (Config go.Double)) (desired : Config go.Double)
    (pending : Bool) : Except String (Plan go.Double) :=
  match refusal go h current desired with
  | some message => .error message
  | none =>
    let sorted := (changes go current desired).insertionSort fun a b => a.path ≤ b.path
    .ok
      { changed := !sorted.isEmpty
        pendingRestart := pending
        restartRequired := pending || sorted.any fun c => c.activation = "restart-required"
        changes := sorted }

end

end LocalBase.Conf
