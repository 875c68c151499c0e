import LocalBase.Memory.Controller

/-!
# Refusals that waiting cannot help

`evaluate` calls a refusal permanent when the demand can never fit on the host,
even idle, and callers stop retrying on that word. It decides so before it
looks at any reading, from the GPU working set and from the capacity less the
reserve. An admission asks for more: the reading must also be at least 1.25
times the reserve. On a host whose capacity is less than that, nothing is ever
admitted, and a demand that would fit beside the reserve is refused for memory
pressure, which is not permanent, for ever.
-/

namespace LocalBase.Memory

/-- The controller with nothing reserved, in any state of the hysteresis. -/
def Controller.idle (c : Controller) (state : Safety) (normalRun : Nat) : Controller :=
  { c with reservations := ∅, state := state, normalRun := normalRun }

/-- The demand is past the GPU working set. -/
def Controller.GpuShort (c : Controller) (d : Demand) : Prop :=
  c.topology.unified = true ∧ 0 < c.topology.gpuWorkingSetBytes ∧
    c.topology.gpuWorkingSetBytes < d.acceleratorBytes

/-- The demand is past what a known capacity leaves beside the reserve. -/
def Controller.CapacityShort (c : Controller) (d : Demand) : Prop :=
  0 < c.topology.systemCapacity ∧
    max 0 (c.topology.systemCapacity - c.reserveBytes) < c.projected d

/-- The idle host shows 1.25 times the reserve. -/
def Controller.ClearsWarning (c : Controller) : Prop :=
  (c.reserveBytes : ℚ) * warningReserveMultiplier ≤ c.topology.systemCapacity

variable {c : Controller} {d : Demand}

/-! ## The refusal -/

theorem Controller.ClearsWarning.reserve_le (h : c.ClearsWarning) :
    c.reserveBytes ≤ c.topology.systemCapacity := by
  have hnonneg : (0 : ℚ) ≤ c.reserveBytes := by
    exact_mod_cast c.system.bytes_nonneg c.topology.systemCapacity
  have hle : (c.reserveBytes : ℚ) ≤ c.topology.systemCapacity := by
    unfold Controller.ClearsWarning warningReserveMultiplier at h
    linarith
  exact_mod_cast hle

/-! ## When the word is right -/

end LocalBase.Memory
