import Mathlib.Data.Rat.Defs
import Mathlib.Algebra.Order.Ring.Rat
import Mathlib.Tactic.NormNum

/-!
# How many slots a plan has

A plan's `Parallel` says how many requests its backend runs at once. Every
path of `AllocateParallel` that succeeds, and the CPU-only cap `PlanLLM` puts
on top of it, ends between one slot and four, and the structure carries that:
a backend without a slot, which would hold its queue back for ever, cannot be
planned.
-/

namespace LocalBase.Runtime

def maxParallelSlots : Nat := 4
def minContextPerSlot : Nat := 2048
def reservedRuntimeGB : ℚ := 2
def contextGBPer8K : ℚ := 1 / 2
def parallelSlotOverheadGB : ℚ := 1 / 2
def decisionContextTokens : Nat := 8192

/-- The resolved slot allocation. -/
structure Parallel where
  slots : Nat
  isAuto : Bool := false
  contextPerSlot : Nat
  slots_pos : 1 ≤ slots
  slots_le : slots ≤ maxParallelSlots
  deriving DecidableEq

def Parallel.one (contextPerSlot : Nat) : Parallel :=
  { slots := 1, contextPerSlot
    slots_pos := Nat.le_refl 1, slots_le := by decide }

/-- `strconv.Atoi`: an optional sign and decimal digits. -/
def atoi (s : String) : Option Int :=
  let digits (ds : List Char) : Option Nat :=
    if ds ≠ [] ∧ ds.all Char.isDigit then
      some (ds.foldl (fun n c => 10 * n + (c.toNat - '0'.toNat)) 0)
    else none
  match s.toList with
  | '+' :: ds => (digits ds).map fun n => (n : Int)
  | '-' :: ds => (digits ds).map fun n => -(n : Int)
  | ds => (digits ds).map fun n => (n : Int)

/-- The most slots, from four down to two, whose overhead fits beside the
context; one when none does. -/
def memorySlots (available : ℚ) (contextGB : Nat → ℚ) : Nat :=
  ([4, 3, 2].find? fun s : Nat =>
    (s : ℚ) * parallelSlotOverheadGB ≤ available - contextGB s).getD 1

theorem memorySlots_pos (available : ℚ) (contextGB : Nat → ℚ) :
    1 ≤ memorySlots available contextGB := by
  unfold memorySlots
  cases h : [4, 3, 2].find? fun s : Nat =>
      decide ((s : ℚ) * parallelSlotOverheadGB ≤ available - contextGB s) with
  | none => exact Nat.le_refl 1
  | some s =>
    have hs : s ∈ [4, 3, 2] := List.mem_of_find?_eq_some h
    simp only [List.mem_cons, List.not_mem_nil, or_false] at hs
    show 1 ≤ s
    omega

def allocateParallel (setting : String) (memoryGB modelGB : ℚ) (ctx : Nat)
    (kvGB : Option (Nat → ℚ)) : Except String Parallel :=
  if ctx < minContextPerSlot then
    .error s!"context size must be at least {minContextPerSlot} tokens"
  else if setting ≠ "auto" then
    match atoi setting with
    | none => .error s!"invalid parallel slots {setting.quote}"
    | some n =>
      if h : n < 1 ∨ (maxParallelSlots : Int) < n then
        .error s!"invalid parallel slots {setting.quote}"
      else if (ctx : Int) < n * minContextPerSlot then
        .error s!"parallel slots {n} require at least {n * minContextPerSlot} total context tokens"
      else .ok
        { slots := n.toNat, contextPerSlot := ctx / n.toNat
          slots_pos := by omega, slots_le := by omega }
  else if memoryGB ≤ 0 ∨ modelGB < 0 then
    .ok { Parallel.one ctx with isAuto := true }
  else
    let ctxSlots := max 1 (min maxParallelSlots (ctx / minContextPerSlot))
    let contextGB (s : Nat) : ℚ :=
      match kvGB with
      | some f => f s
      | none => ctx / 8192 * contextGBPer8K
    let memSlots := memorySlots (memoryGB - modelGB - reservedRuntimeGB) contextGB
    let slots := min ctxSlots memSlots
    .ok
      { slots := slots, isAuto := true, contextPerSlot := ctx / slots
        slots_pos := Nat.le_min.mpr ⟨Nat.le_max_left _ _, memorySlots_pos _ _⟩
        slots_le := Nat.le_trans (Nat.min_le_left _ _)
          (Nat.max_le.mpr ⟨by decide, Nat.min_le_left _ _⟩) }

/-- The automatic launch where only the CPU can run a model: slots divide a
small machine's speed. -/
def cpuSlots (memoryGB : ℚ) : Nat :=
  if memoryGB ≤ 16 then 1 else if memoryGB ≤ 32 then 2 else maxParallelSlots

theorem cpuSlots_pos (memoryGB : ℚ) : 1 ≤ cpuSlots memoryGB := by
  unfold cpuSlots
  split
  · decide
  · split <;> decide

/-- The slots of a launch plan: `PlanLLM`'s use of the allocation. -/
def planParallel (setting : String) (memoryGB modelGB : ℚ) (window : Nat)
    (kvGB : Option (Nat → ℚ)) (scaled decision : Bool) :
    Except String Parallel := do
  let par ← allocateParallel setting memoryGB modelGB window kvGB
  let par : Parallel :=
    if scaled && par.isAuto then
      { par with
        slots := min par.slots (cpuSlots memoryGB)
        contextPerSlot := window / min par.slots (cpuSlots memoryGB)
        slots_pos := Nat.le_min.mpr ⟨par.slots_pos, cpuSlots_pos memoryGB⟩
        slots_le := Nat.le_trans (Nat.min_le_left _ _) par.slots_le }
    else par
  return if decision then
    { par with contextPerSlot := min par.contextPerSlot decisionContextTokens }
  else par

end LocalBase.Runtime
