import LocalBase.Placement.Sizes

/-!
# Resolving a placement

`Resolve` turns the stored choice into a plan for a device, or refuses. In
mode auto it tries splits in a fixed order and takes the first that fits; the
other modes ask for one split.
-/

namespace LocalBase.Placement

inductive Mode where
  | auto
  | gpu
  | cpu
  | custom
deriving DecidableEq, Repr

def Mode.ofText (text : String) : Option Mode :=
  if text = "" ∨ text = "auto" then some .auto
  else if text = "gpu" then some .gpu
  else if text = "cpu" then some .cpu
  else if text = "custom" then some .custom
  else none

structure Request where
  mode : String
  cpuMoeLayers : Option Int
  gpuLayers : Option Int
deriving DecidableEq, Repr

structure Plan where
  mode : Mode
  platform : Platform
  pool : String
  gpuLayers : Nat
  totalLayers : Nat
  cpuMoeLayers : Nat
  hostTensors : Nat
  hostLayers : List Nat
  gpuBytes : Int64
  hostBytes : Int64
  kvBytes : Int64
  workspaceBytes : Int64
  reserveBytes : Int64
  freeVRAMBytes : Int64
  args : List String
  note : String
  hostExperts : List String
deriving DecidableEq, Repr

/-! ## Texts -/

/-- The quotient to the nearest, a half to the even one. -/
def nearest (n unit : Nat) : Nat :=
  let q := n / unit
  if unit < 2 * (n % unit) ∨ unit = 2 * (n % unit) ∧ q % 2 = 1 then q + 1 else q

/-- The magnitude as a 64-bit float has it: 53 bits of it. -/
def float64 (n : Nat) : Nat :=
  let unit := Nat.pow 2 (Nat.log2 n - 52)
  nearest n unit * unit

def gib (b : Int64) : String :=
  let tenths := nearest (float64 b.toInt.natAbs * 10) 1073741824
  (if b < 0 then "-" else "") ++ toString (tenths / 10) ++ "." ++ toString (tenths % 10) ++ " GB"

example : gib 1610612736 = "1.5 GB" := by decide

/-- An unsupported or unfittable placement. -/
inductive Refusal where
  | unknownMode (mode : String)
  | manyGPUs (count : Nat)
  | negativeExperts
  | unifiedExperts
  | cpuExperts
  | noExperts
  | backendExperts
  | tooManyExperts (layers : Nat)
  | layersOutside (total : Nat)
  | cpuLayers
  | backendLayers
  | gpuOnCPU
  | gpuMemory (needs free : Int64)
  | tooLarge (needs capacity kept : Int64) (cpuOnly : Bool)
  | hostMemory (needs available kept : Int64) (cpuOnly : Bool)
deriving DecidableEq, Repr

def Refusal.code : Refusal → String
  | .gpuMemory .. | .hostMemory .. => "placement_does_not_fit"
  | .tooLarge .. => "model_too_large"
  | _ => "placement_unsupported"

/-- The message; `quote` puts a text in quotes. -/
def Refusal.message (quote : String → String) : Refusal → String
  | .unknownMode mode =>
    "Unknown placement mode " ++ quote mode ++ ". Use auto, gpu, cpu or custom."
  | .manyGPUs count =>
    "This machine has " ++ toString count ++ " NVIDIA GPUs. LocalBase places a model on one " ++
      "GPU only: start the gateway with CUDA_VISIBLE_DEVICES set to a single GPU (for example " ++
      "CUDA_VISIBLE_DEVICES=0), or choose CPU-only placement."
  | .negativeExperts => "CPU expert layers must be 0 or more."
  | .unifiedExperts =>
    "On unified memory, keeping experts in CPU memory frees no memory; this setting applies " ++
      "to discrete GPUs."
  | .cpuExperts =>
    "This model runs on the CPU here, so all of it is already in system memory; CPU expert " ++
      "layers apply to discrete GPUs."
  | .noExperts =>
    "This model has no expert layers, so CPU expert layers do not apply. Use GPU layers for a " ++
      "partial offload instead."
  | .backendExperts =>
    "This backend cannot keep expert layers in CPU memory (no --n-cpu-moe). Use GPU layers, " ++
      "or choose a backend that supports it."
  | .tooManyExperts layers =>
    "This model has " ++ toString layers ++ " expert layers; CPU expert layers must be from 0 " ++
      "to " ++ toString layers ++ "."
  | .layersOutside total => "GPU layers must be from 0 to " ++ toString total ++ " for this model."
  | .cpuLayers =>
    "This backend runs on the CPU only, so GPU layers must be 0. Choose a GPU backend to " ++
      "offload layers."
  | .backendLayers => "This backend cannot offload part of the model (-ngl)."
  | .gpuOnCPU =>
    "This backend runs on the CPU only. Choose a GPU backend for GPU-only placement, or use " ++
      "auto or CPU-only."
  | .gpuMemory needs free =>
    "This placement needs " ++ gib needs ++ " of GPU memory (including the " ++
      gib Placement.reserveBytes ++ " reserve), but " ++ gib free ++ " is free. Choose auto, " ++
      "keep more layers or experts in CPU memory, or lower the context size."
  | .tooLarge needs capacity kept cpuOnly =>
    let also := if cpuOnly then "" else "use the GPU (placement auto), "
    "This model needs " ++ gib needs ++ " of system memory. This computer has " ++
      gib capacity ++ " and keeps " ++ gib kept ++ " for itself, which leaves " ++
      gib (max 0 (capacity - kept)) ++ ", so it cannot load here even with nothing else " ++
      "running. Use a smaller model, " ++ also ++ "a smaller context size, or keep less for " ++
      "the computer: set memory.systemReserve (percent and minimumGb) with local-base " ++
      "configure --config."
  | .hostMemory needs available kept cpuOnly =>
    let after := if 0 < kept then " after keeping " ++ gib kept ++ " for your computer" else ""
    let advice := if cpuOnly then "Close other applications, or lower the context size."
      else "Keep more of the model on the GPU, close other applications, or lower the " ++
        "context size."
    "This placement needs " ++ gib needs ++ " of system memory, but " ++ gib available ++
      " is available" ++ after ++ ". " ++ advice

def doesNotFit (sp : Split) (d : Device) : Refusal :=
  if 0 < sp.gpuLayers ∧ d.freeVRAM < sp.gpu + reserveBytes then
    .gpuMemory (sp.gpu + reserveBytes) d.freeVRAM
  else if sp.gpuLayers = 0 ∧ 0 < d.capacityBytes ∧ d.capacityBytes - d.keptBytes < sp.host then
    -- No wait can clear it: it would not fit on this computer even idle.
    .tooLarge sp.host d.capacityBytes d.keptBytes (d.platform = .cpuOnly)
  else .hostMemory sp.host d.hostAvailable d.keptBytes (d.platform = .cpuOnly)

/-- The factual line for a placement. -/
def describe (p : Plan) : String :=
  let gb := gib p.hostBytes
  if p.gpuLayers = 0 then "Runs on the CPU; uses " ++ gb ++ " of system memory."
  else if p.cpuMoeLayers = 0 ∧ p.gpuLayers = p.totalLayers then
    if p.mode = .auto then "Fits on the GPU; nothing is kept in system memory."
    else "Runs fully on the GPU."
  else if 0 < p.cpuMoeLayers ∧ p.gpuLayers = p.totalLayers then
    let why := if p.mode = .auto then
        " The full model does not fit in free GPU memory, so auto kept the smallest number of " ++
          "expert layers in CPU memory."
      else ""
    "Experts of layers 0–" ++ toString (p.cpuMoeLayers - 1) ++ " stay in system memory (" ++ gb ++
      "); everything else is on the GPU." ++ why
  else
    let why := if p.mode = .auto then
        " The full model does not fit in free GPU memory, so auto offloaded as many layers as " ++
          "fit."
      else ""
    toString p.gpuLayers ++ " of " ++ toString p.totalLayers ++
      " layers on the GPU; the rest stays in system memory (" ++ gb ++ ")." ++ why

/-! ## What a custom request asks for -/

section
variable (d : Device) (s : Sizes) (m : Model)

def checkExperts : Option Int → Except Refusal Nat
  | some n =>
    let expertLayers := s.experts.layers.length
    if n < 0 then .error .negativeExperts
    else if 0 < n ∧ d.platform = .unified then .error .unifiedExperts
    else if 0 < n ∧ d.platform = .cpuOnly then .error .cpuExperts
    else if 0 < n ∧ expertLayers = 0 then .error .noExperts
    else if 0 < n ∧ d.cpuMoE = false then .error .backendExperts
    else if expertLayers < n then .error (.tooManyExperts expertLayers)
    else .ok n.toNat
  | none => .ok 0

def checkLayers : Option Int → Except Refusal Nat
  | some l =>
    if l < 0 ∨ ↑(m.layers + 1) < l then .error (.layersOutside (m.layers + 1))
    else if 0 < l ∧ d.platform = .cpuOnly then .error .cpuLayers
    else if l < ↑(m.layers + 1) ∧ d.gpuLayers = false ∧ d.platform ≠ .cpuOnly then
      .error .backendLayers
    else .ok l.toNat
  | none => .ok (m.layers + 1)

/-- The split that is asked for: in mode custom the request's, and everything
on the GPU by default. -/
def asked (mode : Mode) (r : Request) : Except Refusal (Nat × Nat) :=
  if mode = .custom then do
    let nMoE ← checkExperts d s r.cpuMoeLayers
    let layers ← checkLayers d m r.gpuLayers
    return (nMoE, layers)
  else .ok (0, m.layers + 1)

/-! ## Choosing a split -/

variable (kv : Int64)

def trySplit (nMoE gpuLayers : Nat) : Option Split :=
  let sp := s.evaluate m kv nMoE gpuLayers
  if sp.fits d then some sp else none

/-- Everything on the GPU but the experts of `n` layers, then of one more, for
as many numbers as are left. -/
def tryExperts (n : Nat) : Nat → Option Split
  | 0 => none
  | left + 1 =>
    match trySplit d s m kv n (m.layers + 1) with
    | some sp => some sp
    | none => tryExperts (n + 1) left

/-- Fewer and fewer layers on the GPU. -/
def tryLayers (nMax : Nat) : Nat → Option Split
  | 0 => none
  | l + 1 =>
    match trySplit d s m kv nMax l with
    | some sp => some sp
    | none => tryLayers nMax l

def autoSplit : Option Split :=
  let expertLayers := if d.cpuMoE then s.experts.layers.length else 0
  match trySplit d s m kv 0 (m.layers + 1) with
  | some sp => some sp
  | none =>
    match tryExperts d s m kv 1 expertLayers with
    | some sp => some sp
    | none => tryLayers d s m kv expertLayers (if d.gpuLayers then m.layers + 1 else 0)

def oneSplit (nMoE gpuLayers : Nat) : Except Refusal (Split × String) :=
  let sp := s.evaluate m kv nMoE gpuLayers
  if sp.fits d then .ok (sp, "") else .error (doesNotFit sp d)

/-- The split of a discrete device, or of the CPU, and a note that was already
decided. -/
def choose (mode : Mode) (nMoE layers : Nat) : Except Refusal (Split × String) :=
  if mode = .cpu ∨ d.platform = .cpuOnly then oneSplit d s m kv 0 0
  else
    match mode with
    | .gpu => oneSplit d s m kv 0 (m.layers + 1)
    | .custom => oneSplit d s m kv nMoE layers
    | _ =>
      if s.unknownTy then
        .ok (s.evaluate m kv 0 (m.layers + 1),
          "Some tensor types in this file are not sized by the planner, so it stays fully on " ++
            "the GPU.")
      else
        match autoSplit d s m kv with
        | some sp => .ok (sp, "")
        | none => .error (doesNotFit (s.evaluate m kv 0 (m.layers + 1)) d)

end

/-! ## The plan -/

/-- What every plan says of the device and the model. -/
def basePlan (mode : Mode) (m : Model) (kv : Int64) (d : Device) : Plan where
  mode := mode
  platform := d.platform
  pool := if d.platform = .discrete then "gpu:0" else "system"
  gpuLayers := 0
  totalLayers := m.layers + 1
  cpuMoeLayers := 0
  hostTensors := 0
  hostLayers := []
  gpuBytes := 0
  hostBytes := 0
  kvBytes := kv
  workspaceBytes := 0
  reserveBytes := 0
  freeVRAMBytes := if d.platform = .discrete then d.freeVRAM else 0
  args := []
  note := ""
  hostExperts := []

/-- On unified memory nothing is planned but how many layers are offloaded. -/
def unifiedPlan (mode : Mode) (m : Model) (kv : Int64) (d : Device) (s : Sizes) (layers : Nat) :
    Plan :=
  let total := m.layers + 1
  let layers := match mode with
    | .cpu => 0
    | .auto | .gpu => total
    | .custom => layers
  let sp := s.evaluate m kv 0 layers
  { basePlan mode m kv d with
    gpuLayers := layers
    args := if layers < total then ["-ngl", toString layers] else []
    note := "Unified memory: the GPU and CPU share the same memory, so offloading frees " ++
      "nothing; the model is admitted against system memory."
    gpuBytes := sp.gpu
    hostBytes := if layers = total then 0 else sp.host }

def splitPlan (mode : Mode) (m : Model) (kv : Int64) (d : Device) (s : Sizes) (sp : Split)
    (note : String) : Plan :=
  let p := { basePlan mode m kv d with
    gpuLayers := sp.gpuLayers
    cpuMoeLayers := sp.nMoE
    gpuBytes := sp.gpu
    hostBytes := sp.host
    workspaceBytes := if 0 < sp.gpuLayers then workspaceBytes else 0
    reserveBytes := if 0 < sp.gpuLayers then reserveBytes else 0
    hostLayers := List.range sp.nMoE
    hostTensors := (List.range sp.nMoE).foldl (fun n l => n + (s.experts.names l).length) 0
    hostExperts := (List.range sp.nMoE).flatMap s.experts.names
    args := (if 0 < sp.nMoE then ["--n-cpu-moe", toString sp.nMoE] else []) ++
      if sp.gpuLayers < m.layers + 1 then ["-ngl", toString sp.gpuLayers] else [] }
  { p with note := if note = "" then describe p else note }

/-- Turns a request into a plan for this device, or refuses. -/
def resolve (m : Model) (kv : Int64) (d : Device) (r : Request) : Except Refusal Plan :=
  match Mode.ofText r.mode with
  | none => .error (.unknownMode r.mode)
  | some mode =>
    if 1 < d.gpuCount then .error (.manyGPUs d.gpuCount)
    else do
      let s := measure m
      let (nMoE, layers) ← asked d s m mode r
      if mode = .gpu ∧ d.platform = .cpuOnly then .error .gpuOnCPU
      else if d.platform = .unified then return unifiedPlan mode m kv d s layers
      else
        let (sp, note) ← choose d s m kv mode nMoE layers
        return splitPlan mode m kv d s sp note

end LocalBase.Placement
