import Mathlib.Data.List.Induction
import Mathlib.Logic.Function.Basic

/-!
# What a model's tensors weigh

The tensor table of a model file, summed as the planner sums it: by layer, and
by layer for the experts that a backend can keep on the host. Sizes are the
source's 64-bit integers, and wrap as they do. Two patterns read the names:
`layerRe` finds the layer of any tensor, `expertLayer` that of an expert one.
-/

namespace LocalBase.Placement

/-- One entry of the tensor table. -/
structure Tensor where
  name : String
  dims : List UInt64
  type : UInt32
deriving DecidableEq, Repr

/-- What the planner needs from a model's header. `layers` is the number of
repeating blocks, `hostExtraBytes` the memory a CPU load holds beyond the file
and its cache. -/
structure Model where
  tensors : List Tensor
  artifactBytes : Int64
  layers : Nat
  hostExtraBytes : Int64
deriving DecidableEq, Repr

/-- Bytes per block and values per block, by type. -/
def typeSizes (type : UInt32) : Option (Int64 × Int64) :=
  match type.toNat with
  | 0 => some (4, 1)
  | 1 => some (2, 1)
  | 2 => some (18, 32)
  | 3 => some (20, 32)
  | 6 => some (22, 32)
  | 7 => some (24, 32)
  | 8 => some (34, 32)
  | 9 => some (36, 32)
  | 10 => some (84, 256)
  | 11 => some (110, 256)
  | 12 => some (144, 256)
  | 13 => some (176, 256)
  | 14 => some (210, 256)
  | 15 => some (292, 256)
  | 16 => some (66, 256)
  | 17 => some (74, 256)
  | 18 => some (98, 256)
  | 19 => some (50, 256)
  | 20 => some (18, 32)
  | 21 => some (110, 256)
  | 22 => some (82, 256)
  | 23 => some (136, 256)
  | 24 => some (1, 1)
  | 25 => some (2, 1)
  | 26 => some (4, 1)
  | 27 => some (8, 1)
  | 28 => some (8, 1)
  | 29 => some (56, 256)
  | 30 => some (2, 1)
  | 34 => some (54, 256)
  | 35 => some (66, 256)
  | 39 => some (17, 32)
  | _ => none

/-- A tensor's size in the file, and whether it is known. -/
def tensorBytes (t : Tensor) : Int64 × Bool :=
  match typeSizes t.type with
  | none => (0, false)
  | some (bytes, values) =>
    let n := t.dims.foldl (fun n d => n * d.toInt64) 1
    (n / values * bytes, n % values == 0)

example : tensorBytes ⟨"", [2880, 2880, 32], 39⟩ = (141004800, true) := by decide

/-! ## Experts and layers -/

/-- The number that digits write, at most the largest integer. -/
def atoi (digits : List Char) : Nat :=
  Nat.min (digits.foldl (fun n c => 10 * n + (c.toNat - '0'.toNat)) 0) 9223372036854775807

/-- `^blk\.(\d+)\.`: the digits, and what follows. -/
def layerRe (name : String) : Option (List Char × List Char) :=
  let blk := "blk.".toList
  if blk.isPrefixOf name.toList then
    let rest := name.toList.drop blk.length
    match rest.takeWhile Char.isDigit, rest.dropWhile Char.isDigit with
    | [], _ => none
    | digits, '.' :: more => some (digits, more)
    | _, _ => none
  else none

def layerOf (name : String) : Option Nat := (layerRe name).map fun m => atoi m.1

/-- What `ffn_(up|down|gate|gate_up)_(ch|)exps` matches. -/
def expertNames : List String :=
  ["up", "down", "gate", "gate_up"].flatMap fun part =>
    ["ch", ""].map fun ch => "ffn_" ++ part ++ "_" ++ ch ++ "exps"

/-- The layer of an expert tensor, one that `--n-cpu-moe` keeps on the host. -/
def expertLayer (name : String) : Option Nat :=
  match layerRe name with
  | none => none
  | some (digits, rest) =>
    if expertNames.any fun e => e.toList.isPrefixOf rest then some (atoi digits) else none

example : expertLayer "blk.12.ffn_gate_up_exps.weight" = some 12 := by decide

/-- A model's expert tensors by layer; `layers` are the layers that have
any. -/
structure ExpertSet where
  tensors : Nat
  byLayer : Nat → Int64
  names : Nat → List String
  layers : List Nat

def ExpertSet.empty : ExpertSet := ⟨0, fun _ => 0, fun _ => [], []⟩

def ExpertSet.add (e : ExpertSet) (t : Tensor) : ExpertSet :=
  match expertLayer t.name with
  | none => e
  | some l =>
    { tensors := e.tensors + 1
      byLayer := Function.update e.byLayer l (e.byLayer l + (tensorBytes t).1)
      names := Function.update e.names l (e.names l ++ [t.name])
      layers := if l ∈ e.layers then e.layers else e.layers ++ [l] }

/-- The tensors `--n-cpu-moe` keeps on the host. -/
def experts (ts : List Tensor) : ExpertSet := ts.foldl .add .empty

structure Sizes where
  layer : List Int64
  output : Int64
  experts : ExpertSet
  unknownTy : Bool

def Sizes.add (layers : Nat) (s : Sizes) (t : Tensor) : Sizes :=
  let (b, ok) := tensorBytes t
  let s := if ok then s else { s with unknownTy := true }
  match layerOf t.name with
  | some l => if l < layers then { s with layer := s.layer.modify l (· + b) } else s
  | none =>
    if "output.".toList.isPrefixOf t.name.toList then { s with output := s.output + b } else s

def measure (m : Model) : Sizes :=
  m.tensors.foldl (.add m.layers) ⟨List.replicate m.layers 0, 0, experts m.tensors, false⟩

/-! ## Splits -/

/-- Compute buffers and scratch on the GPU. -/
def workspaceBytes : Int64 := 256 * 1048576

/-- Free memory left untouched on the GPU. -/
def reserveBytes : Int64 := 512 * 1048576

inductive Platform where
  | unified
  | discrete
  | cpuOnly
deriving DecidableEq, Repr

/-- The machine and the backend. `cpuMoE`: it has `--n-cpu-moe`; `gpuLayers`:
it can offload layers. -/
structure Device where
  capacityBytes : Int64
  keptBytes : Int64
  platform : Platform
  freeVRAM : Int64
  hostAvailable : Int64
  gpuCount : Nat
  cpuMoE : Bool
  gpuLayers : Bool
deriving DecidableEq, Repr

/-- One candidate: the experts of the first `nMoE` layers on the host, and
`gpuLayers` of the layers, from the end and then the output, on the GPU. -/
structure Split where
  nMoE : Nat
  gpuLayers : Nat
  gpu : Int64
  host : Int64
  kv : Int64
deriving DecidableEq, Repr

namespace Sizes

/-- What the experts of the first layers weigh. -/
def hostExperts (s : Sizes) (nMoE : Nat) : Int64 :=
  (List.range nMoE).foldl (fun sum l => sum + s.experts.byLayer l) 0

/-- What the last `rep` layers weigh, less the experts kept on the host. -/
def gpuWeights (s : Sizes) (layers rep nMoE : Nat) : Int64 :=
  (List.range' (layers - rep) rep).foldl (fun weights l =>
    let weights := weights + s.layer.getD l 0
    if l < nMoE then weights - s.experts.byLayer l else weights) 0

def evaluate (s : Sizes) (m : Model) (kv : Int64) (nMoE gpuLayers : Nat) : Split :=
  if gpuLayers = 0 then ⟨nMoE, 0, 0, m.artifactBytes + kv + m.hostExtraBytes, 0⟩
  else
    let (weights, kvGPU) :=
      -- The whole file is the conservative bound on the GPU side.
      if gpuLayers ≥ m.layers + 1 then (m.artifactBytes - s.hostExperts nMoE, kv)
      else
        let rep := min gpuLayers m.layers
        (s.gpuWeights m.layers rep nMoE,
          if m.layers > 0 then kv * Int64.ofNat rep / Int64.ofNat m.layers else 0)
    ⟨nMoE, gpuLayers, weights + kvGPU + workspaceBytes,
      m.artifactBytes - weights + kv - kvGPU, kv⟩

end Sizes

def Split.fits (sp : Split) (d : Device) : Bool :=
  (sp.gpuLayers = 0 || sp.gpu + reserveBytes ≤ d.freeVRAM) && sp.host ≤ d.hostAvailable

@[simp] theorem Sizes.evaluate_nMoE (s : Sizes) (m : Model) (kv : Int64) (n l : Nat) :
    (s.evaluate m kv n l).nMoE = n := by
  unfold Sizes.evaluate
  split <;> rfl

@[simp] theorem Sizes.evaluate_gpuLayers (s : Sizes) (m : Model) (kv : Int64) (n l : Nat) :
    (s.evaluate m kv n l).gpuLayers = l := by
  unfold Sizes.evaluate
  split
  · next h => exact h.symm
  · rfl

/-! ## What the sums are of -/

variable {ts : List Tensor} {l n : Nat}

/-- The expert tensors of a layer. -/
def expertsOf (ts : List Tensor) (l : Nat) : List Tensor :=
  ts.filter fun t => expertLayer t.name = some l

theorem expertsOf_concat (t : Tensor) : expertsOf (ts ++ [t]) l =
    expertsOf ts l ++ if expertLayer t.name = some l then [t] else [] := by
  simp [expertsOf, List.filter_append, List.filter_cons]

theorem experts_concat (t : Tensor) : experts (ts ++ [t]) = (experts ts).add t := by
  rw [experts, List.foldl_append]
  rfl

theorem experts_names : (experts ts).names l = (expertsOf ts l).map Tensor.name := by
  induction ts using List.reverseRecOn with
  | nil => rfl
  | append_singleton ts t ih =>
    rw [experts_concat, expertsOf_concat, List.map_append, ← ih, ExpertSet.add]
    split
    · next h => simp [h]
    · next l' h =>
      by_cases hl : l = l'
      · subst hl
        simp [h]
      · simp [h, Function.update_of_ne hl, Ne.symm hl]

/-- The experts that a number of layers keeps on the host: those of the layers
below it, in some order. -/
theorem experts_below : ((List.range n).flatMap (expertsOf ts)).Perm
    (ts.filter fun t => (expertLayer t.name).any (· < n)) := by
  induction n with
  | zero => simp
  | succ n ih =>
    have hsplit := List.filter_append_perm (fun t => (expertLayer t.name).any (· < n))
      (ts.filter fun t => (expertLayer t.name).any (· < n + 1))
    rw [List.filter_filter, List.filter_filter] at hsplit
    rw [List.range_succ, List.flatMap_append]
    refine List.Perm.trans (List.Perm.append ?_ ?_) hsplit
    · refine ih.trans (List.Perm.of_eq (List.filter_congr fun t _ => ?_))
      cases expertLayer t.name with
      | none => rfl
      | some l =>
        simp only [Option.any_some]
        grind
    · rw [List.flatMap_singleton]
      refine List.Perm.of_eq (List.filter_congr fun t _ => ?_)
      cases expertLayer t.name with
      | none => rfl
      | some l =>
        simp only [Option.any_some]
        grind

end LocalBase.Placement
