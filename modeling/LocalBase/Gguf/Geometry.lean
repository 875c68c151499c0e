import LocalBase.Gguf.Reader
import LocalBase.Lib.Checked

/-!
# The geometry of a model's cache

What the planner makes of the kept values: how many blocks a model has, how many of
them attend over all that was said and how many over a window, and how long their
keys and values are. The values are whatever a file says. An index into a slice and a
division are `Checked`, so that a run of this code may crash.
-/

namespace LocalBase.Gguf

open Checked

def hybridQwenFullAttnInt : Int := 4
def recurrentStateBytes : Int := 4
def maxSSMKernel : Int := 64
def maxSSMSize : Int := 65536
def q8BlockSize : Int := 32
def maxBlockCount : Int := 4096
def maxHeadCount : Int := 4096
def maxHeadLength : Int := 65536
def maxTokens : Int := 2147483648

def hybridQwen : List Bytes := ["qwen3next", "qwen35", "qwen35moe"].map ascii

def unmodelledRecurrent : List Bytes :=
  ["mamba", "mamba2", "rwkv6", "rwkv6qwen2", "rwkv7", "arwkv7",
    "jamba", "falcon-h1", "plamo2", "granitehybrid", "lfm2", "lfm2moe",
    "nemotron_h", "nemotron_h_moe", "kimi-linear", "deepseek4", "bailingmoe3",
    "kimi-k3", "glm5-next", "qwen4exp", "minimax-01"].map ascii

structure SwaArch where
  period : Int := 0
  defaultWindow : Int := 0
  kvLayers : Int := 0

def swaArchitectures (arch : Bytes) : Option SwaArch :=
  if arch = ascii "gpt-oss" then some { period := 2 }
  else if arch = ascii "gemma2" then some { period := 2, defaultWindow := 4096 }
  else if arch = ascii "gemma3" then some { period := 6 }
  else if arch = ascii "gemma3n" then some { period := 5, kvLayers := 20 }
  else if arch = ascii "cohere2" then some { period := 4 }
  else none

/-- The shape of the attention cache, summed over the layers that have one. -/
structure Geometry where
  architecture : Bytes
  blockCount : Int
  fullKVHeads : Int
  swaKVHeads : Int
  /-- 0 for none. -/
  slidingWindow : Int
  keyLength : Int
  valueLength : Int
  swaKeyLength : Int
  swaValueLength : Int
  q8Compatible : Bool
  recurrentBytesPerSlot : Int
  /-- 0 for unknown. -/
  contextLength : Int
  decisionType : Bytes
deriving DecidableEq

/-! ## Values -/

/-- 0 where there is no whole number from 1 to `max`. -/
def bounded (v : Option Value) (max : Int) : Int :=
  match v with
  | some (.num f) =>
    if ¬ f.whole ∨ f.le (.ofInt 0) ∨ Double.lt (.ofInt max) f then 0 else f.toInt
  | _ => 0

/-- The value, whether there is one, and whether it is a whole number of the range. -/
def optionalInt (v : Option Value) (lo hi : Int) : Int × Bool × Bool :=
  match v with
  | none => (0, false, true)
  | some (.num f) =>
    if ¬ f.whole ∨ f.lt (.ofInt lo) ∨ Double.lt (.ofInt hi) f then (0, true, false)
    else (f.toInt, true, true)
  | some _ => (0, true, false)

def validHeads (f : Double) : Bool :=
  f.whole && Double.le (.ofInt 0) f && f.le (.ofInt maxHeadCount)

/-- The loop over an array of a value for each layer, into the slice. -/
def storeHeads : List Double → Int → List Int → Checked (List Int)
  | [], _, out => pure out
  | f :: fs, i, out => do
      require (validHeads f)
      let out ← store out i f.toInt
      storeHeads fs (i + 1) out

/-- A value for each layer, from one for all or an array: none where there is neither,
and no result where it is malformed. -/
def layerValues (v : Option Value) (blocks : Int) : Checked (Option (List Int)) :=
  match v with
  | none => pure none
  | some (.nums arr) => do
      require (arr.length = blocks)
      some <$> storeHeads arr 0 (List.replicate blocks.toNat 0)
  | some (.num f) => do
      require (validHeads f)
      return some (List.replicate blocks.toNat f.toInt)
  | some (.str _) => nil

/-! ## The planner's shape -/

/-- What the sums go over: which layers there are, and what each of them is. -/
structure Shape where
  arch : Bytes
  blocks : Int
  headsFor : Int → Checked Int
  keyLen : Int
  valLen : Int
  kMLA : Int
  vMLA : Int
  window : Int
  swaKey : Int
  swaVal : Int
  attnLayers : Int
  kvLayers : Int
  isSWA : Int → Checked Bool
  isRecurrent : Int → Checked Bool
  recurrentBytes : Int

def Shape.mla (s : Shape) : Bool := s.kMLA ≠ 0 && s.vMLA ≠ 0

section

variable (get : String → Option Value)

def headsFor (headCounts : List Int) (kvHeadCounts : Option (List Int)) (l : Int) : Checked Int :=
  match kvHeadCounts with
  | some kvHeads => index kvHeads l
  | none => index headCounts l

/-- The length of a head where the file does not say it. -/
def fallbackLength (headCounts : List Int) : Checked Int := do
  let embd := bounded (get "embedding_length") maxTokens
  if 0 < embd then do
    if 0 < (← index headCounts 0) then quot embd (← index headCounts 0) else return 0
  else return 0

/-- The lengths of keys and values. -/
def headLengths (headCounts : List Int) : Checked (Int × Int) := do
  let fallback ← fallbackLength get headCounts
  let keyLen := bounded (get "attention.key_length") maxHeadLength
  let keyLen := if keyLen = 0 then fallback else keyLen
  let valLen := bounded (get "attention.value_length") maxHeadLength
  let valLen := if valLen = 0 then fallback else valLen
  let valLen := if valLen = 0 then keyLen else valLen
  require (¬ (keyLen = 0 ∨ valLen = 0 ∨ maxHeadLength < keyLen))
  return (keyLen, valLen)

/-- The window of the architectures that have one. -/
def slidingWindow (arch : Bytes) : Int :=
  if (swaArchitectures arch).isSome ∨ arch = ascii "gemma4" then
    let window := bounded (get "attention.sliding_window") maxTokens
    if window = 0 then ((swaArchitectures arch).getD {}).defaultWindow else window
  else 0

/-- The lengths of keys and values in the window. -/
def swaLengths (arch : Bytes) (window keyLen valLen : Int) : Checked (Int × Int) :=
  if arch = ascii "gemma4" then do
    let sk := bounded (get "attention.key_length_swa") maxHeadLength
    let sv := bounded (get "attention.value_length_swa") maxHeadLength
    require (¬ (window = 0 ∨ sk = 0 ∨ sv = 0))
    return (sk, sv)
  else return (keyLen, valLen)

/-- The layers that predict further tokens do not attend. -/
def nextnLayers (arch : Bytes) (blocks : Int) : Checked Int :=
  if hybridQwen.contains arch then do
    let n := optionalInt (get "nextn_predict_layers") 0 (blocks - 1)
    require (n.2.2 = true)
    return n.1
  else return 0

/-- Of so many layers one attends over all. -/
def swaPeriod (arch : Bytes) : Int :=
  match get "attention.sliding_window_pattern" with
  | some (.num f) =>
    if f.whole ∧ Double.le (.ofInt 0) f ∧ f.le (.ofInt maxBlockCount) then f.toInt
    else ((swaArchitectures arch).getD {}).period
  | _ => ((swaArchitectures arch).getD {}).period

/-- Which layers attend over a window. -/
def swaLayers (arch : Bytes) (blocks window : Int) : Checked (Int → Checked Bool) :=
  if arch = ascii "gemma4" then
    match get "attention.sliding_window_pattern" with
    | some (.nums arr) => do
        require (arr.length = blocks)
        return fun l => do return !(← index arr l).eq (.ofInt 0)
    | _ => return fun _ => return false
  else if window = 0 then return fun _ => return false
  else
    return fun l =>
      if swaPeriod get arch = 0 then return true
      else do return (← rem (l + 1) (swaPeriod get arch)) ≠ 0

/-- How many layers have a cache of their own. -/
def cacheLayers (arch : Bytes) (blocks attnLayers : Int) : Checked Int := do
  let spec := (swaArchitectures arch).getD {}
  let kvLayers :=
    if 0 < spec.kvLayers ∧ spec.kvLayers < attnLayers then spec.kvLayers else attnLayers
  if arch = ascii "gemma4" then do
    let shared := optionalInt (get "attention.shared_kv_layers") 0 blocks
    require (¬ (shared.2.2 = false ∨ blocks - shared.1 < 1))
    return blocks - shared.1
  else return kvLayers

/-- Which layers of a hybrid model keep a state instead. -/
def recurrentLayers (blocks : Int) : Checked (Int → Checked Bool) :=
  match get "attention.recurrent_layers" with
  | some (.nums arr) => do
      require (arr.length = blocks)
      return fun l => do return !(← index arr l).eq (.ofInt 0)
  | some _ => nil
  | none => do
      let interval := optionalInt (get "full_attention_interval") 1 maxBlockCount
      require (interval.2.2 = true)
      let every := if interval.2.1 then interval.1 else hybridQwenFullAttnInt
      return fun l => do return (← rem (l + 1) every) ≠ 0

/-- How many layers are recurrent. -/
def countRecurrent (attnLayers : Int) (isRecurrent : Int → Checked Bool) : Checked Int :=
  upTo attnLayers.toNat (fun l n => do return if ← isRecurrent l then n + 1 else n) 0

/-- The recurrent layers, and what their states take. -/
def recurrentState (arch : Bytes) (blocks attnLayers : Int) :
    Checked ((Int → Checked Bool) × Int) :=
  if hybridQwen.contains arch then do
    let recurs ← recurrentLayers get blocks
    let kernel := bounded (get "ssm.conv_kernel") maxSSMKernel
    let inner := bounded (get "ssm.inner_size") maxSSMSize
    let state := bounded (get "ssm.state_size") maxSSMSize
    let groups := optionalInt (get "ssm.group_count") 0 maxSSMSize
    require (¬ (kernel = 0 ∨ inner = 0 ∨ state = 0 ∨ groups.2.1 = false ∨ groups.2.2 = false))
    let isRecurrent := fun l => if l < attnLayers then recurs l else return false
    let n ← countRecurrent attnLayers isRecurrent
    let conv := (kernel - 1) * (inner + 2 * groups.1 * state)
    let st := state * inner
    return (isRecurrent, n * (conv + st) * recurrentStateBytes)
  else return (fun _ => return false, 0)

end

/-- What is read under the architecture's name. -/
def valueOf (values : Values) (arch : Bytes) (s : String) : Option Value :=
  values (arch ++ ascii "." ++ ascii s)

/-- A value that is no text is none. -/
def textOf (v : Option Value) : Bytes :=
  match v with
  | some (.str s) => s
  | _ => []

def architectureOf (values : Values) : Bytes := textOf (values (ascii "general.architecture"))

/-- The first half of `GeometryFromMetadata`, up to the sums. -/
def shape (values : Values) : Checked Shape := do
  let arch := architectureOf values
  require (¬ (arch = [] ∨ unmodelledRecurrent.contains arch))
  let get := valueOf values arch
  let blocks := bounded (get "block_count") maxBlockCount
  require (blocks ≠ 0)
  let headCounts ← layerValues (get "attention.head_count") blocks
  let kvHeadCounts ← layerValues (get "attention.head_count_kv") blocks
  match headCounts with
  | none => nil
  | some headCounts => do
      let lengths ← headLengths get headCounts
      let window := slidingWindow get arch
      let swa ← swaLengths get arch window lengths.1 lengths.2
      let nextn ← nextnLayers get arch blocks
      let attnLayers := blocks - nextn
      let isSWA ← swaLayers get arch blocks window
      let kvLayers ← cacheLayers get arch blocks attnLayers
      let recurrent ← recurrentState get arch blocks attnLayers
      return {
        arch := arch
        blocks := blocks
        headsFor := headsFor headCounts kvHeadCounts
        keyLen := lengths.1
        valLen := lengths.2
        kMLA := bounded (get "attention.key_length_mla") maxHeadLength
        vMLA := bounded (get "attention.value_length_mla") maxHeadLength
        window := window
        swaKey := swa.1
        swaVal := swa.2
        attnLayers := attnLayers
        kvLayers := kvLayers
        isSWA := isSWA
        isRecurrent := recurrent.1
        recurrentBytes := recurrent.2 }

/-! ## The sums -/

/-- Whether a layer attends over a window. -/
def anySWA (s : Shape) : Checked Bool :=
  upTo s.blocks.toNat (fun l any => do return if ← s.isSWA l then true else any) false

/-- The heads of the layers that have a cache: over all, and over the window. -/
def sumHeads (s : Shape) : Checked (Int × Int) :=
  upTo s.kvLayers.toNat (fun l sums => do
    let h ← s.headsFor l
    if h ≤ 0 then return sums
    else do
      if ← s.isRecurrent l then return sums
      else do
        if ← s.isSWA l then return (sums.1, sums.2 + h) else return (sums.1 + h, sums.2)) (0, 0)

def isDecisionType (s : Bytes) : Bool :=
  1 ≤ s.length && s.length ≤ 32 && s.all fun c =>
    ('a'.toNat ≤ c.toNat && c.toNat ≤ 'z'.toNat) || ('0'.toNat ≤ c.toNat && c.toNat ≤ '9'.toNat) ||
      c.toNat = '_'.toNat || c.toNat = '-'.toNat

def sumShape (values : Values) (s : Shape) : Checked Geometry := do
  let any ← anySWA s
  let sums ← sumHeads s
  let dims := [s.keyLen, s.valLen] ++ (if any then [s.swaKey, s.swaVal] else []) ++
    (if s.mla then [s.kMLA, s.vMLA] else [])
  let dt := textOf (valueOf values s.arch "decision.type")
  let decides := isDecisionType dt
  return {
    architecture := s.arch
    blockCount := s.blocks
    fullKVHeads := if decides then 0 else sums.1
    swaKVHeads := if decides then 0 else sums.2
    slidingWindow := s.window
    keyLength := s.keyLen
    valueLength := if s.mla then 0 else s.valLen
    swaKeyLength := s.swaKey
    swaValueLength := if s.mla then 0 else s.swaVal
    q8Compatible := dims.all fun d => d.tmod q8BlockSize = 0
    recurrentBytesPerSlot := if decides then 0 else s.recurrentBytes
    contextLength := bounded (valueOf values s.arch "context_length") maxTokens
    decisionType := if decides then dt else [] }

/-- `GeometryFromMetadata`. -/
def geometryFromMetadata (values : Values) : Checked Geometry := shape values >>= sumShape values

end LocalBase.Gguf
