import LocalBase.Lib.Tally
import Mathlib.Data.Rat.Floor
import Mathlib.Algebra.Order.Field.Rat

/-!
# Memory admission

`memory.Controller` reserves memory for a runtime before it starts. What it
decides with is a ledger of the reservations it has handed out, a reading of
the host taken earlier, and the hysteresis state the pressure poll keeps.

Bytes are integers and the reserve's two settings are rationals, so the
comparisons that go through `float64` in the source are exact here. A
reservation is shared by pointer in the source: the map and the handle a
caller keeps name the same record, and `Materialize` and `Release` act only
while the map still does. Here the record carries the number of its
allocation, `ref`, and a handle is the pair of an id and such a number.
-/

namespace LocalBase.Memory

def GiB : Int := 2 ^ 30

/-- A pool reserve: max(percent of capacity, minimum GiB). The configuration
refuses any other settings than these. -/
structure Reserve where
  percent : ℚ
  minimumGB : ℚ
  percent_nonneg : 0 ≤ percent
  percent_le : percent ≤ 100
  minimumGB_nonneg : 0 ≤ minimumGB

def Reserve.bytes (r : Reserve) (capacity : Int) : Int :=
  max ⌈r.minimumGB * GiB⌉ ⌊capacity * r.percent / 100⌋

def warningReserveMultiplier : ℚ := 5 / 4

def recoverySamples : Nat := 3

structure Topology where
  unified : Bool
  systemCapacity : Int
  /-- Unified only; 0 when no cap is known. -/
  gpuWorkingSetBytes : Int

inductive Pressure
  | normal | constrained | critical | unknown
  deriving DecidableEq, Repr

/-- One reading of available memory; negative when it is unavailable. -/
structure Snapshot where
  available : Int
  pressure : Pressure
  deriving DecidableEq

structure Demand where
  unifiedBytes : Int
  hostBytes : Int
  acceleratorBytes : Int
  confidence : String
  deriving DecidableEq

inductive Safety
  | healthy | constrained | critical
  deriving DecidableEq, Repr

inductive Reason
  | systemMemory | acceleratorMemory | memoryPressure | measurementUnavailable
  deriving DecidableEq, Repr

inductive Pool
  | system | gpuWorkingSet
  deriving DecidableEq, Repr

/-- The figures behind a refusal; -1 stands for unavailable. -/
structure AdmissionDiagnostics where
  measuredAvailable : Int := -1
  reserve : Int := -1
  pending : Int := -1
  requested : Int
  effectiveAvailable : Int := -1
  measuredPressure : Pressure := .unknown
  safetyState : Safety
  recoverySamples : Nat
  confidence : String

structure AdmissionError where
  reason : Reason
  poolID : Pool := .system
  requestedBytes : Int
  availableBytes : Int := 0
  reserveBytes : Int
  pendingBytes : Int := 0
  /-- What the other runtimes have reserved: a promise, not a measurement. -/
  reservedBytes : Int := 0
  confidence : String
  /-- The demand can never fit on this host, even idle. -/
  permanent : Bool := false
  capacityBytes : Int := 0
  diagnostics : Option AdmissionDiagnostics := none

/-- The record the map and the handle share. -/
structure ReservationEntry where
  ref : Nat
  /-- Pool bytes: unified, or host on a host-only pool. -/
  projected : Int
  accelerator : Int
  resident : Bool := false
  pid : Nat := 0
  /-- The sample epoch it became resident in: a sample that began earlier
  cannot show its memory. -/
  residentAt : Nat := 0

/-- What a caller holds from admission until the runtime exits. -/
structure Reservation where
  id : String
  ref : Nat
  deriving DecidableEq

structure Controller where
  topology : Topology
  system : Reserve
  bypass : Bool
  reservations : AList fun _ : String => ReservationEntry := ∅
  /-- Advanced when a runtime becomes resident. -/
  epoch : Nat := 0
  state : Safety := .healthy
  normalRun : Nat := 0
  /-- The next allocation. -/
  nextRef : Nat := 0

/-- Whether a sample begun in epoch `seen` shows the runtime's memory. -/
def ReservationEntry.inSample (r : ReservationEntry) (seen : Nat) : Bool :=
  r.resident && decide (r.residentAt ≤ seen)

/-- What a releasing reservation is credited at: its projection, or what was
measured if that is less. -/
def ReservationEntry.credit (r : ReservationEntry) : Option Int → Int
  | some m => min r.projected m
  | none => r.projected

/-- The totals `evaluate` counts the reservations with. -/
structure Ledger where
  pending : Int := 0
  freed : Int := 0
  resident : Int := 0

/-- One round of the ledger's loop. -/
def Ledger.count (releasing : List String) (measured : String → Option Int)
    (seen : Nat) (l : Ledger) (id : String) (r : ReservationEntry) : Ledger :=
  if id ∈ releasing then
    if r.inSample seen then
      { l with freed := l.freed + r.credit (measured id) }
    else l
  else if r.inSample seen then
    { l with resident := l.resident + r.accelerator }
  else
    { l with
      resident := l.resident + r.accelerator
      pending := l.pending + r.projected }

namespace Controller

def projected (c : Controller) (d : Demand) : Int :=
  if c.topology.unified then d.unifiedBytes else d.hostBytes

/-- The memory kept for the rest of the computer. -/
def reserveBytes (c : Controller) : Int :=
  c.system.bytes c.topology.systemCapacity

/-- `seen` is the epoch of the sample the reservations are judged against. -/
def ledger (c : Controller) (releasing : List String)
    (measured : String → Option Int) (seen : Nat) : Ledger :=
  c.reservations.foldl (Ledger.count releasing measured seen) {}

/-- A refusal on the system pool says what was measured; the GPU working set
is not a sampled pool. -/
def diagnose (c : Controller) (pool : Pool) (d : Demand) (snap : Snapshot)
    (freed pending reserve : Int) : AdmissionDiagnostics :=
  let g : AdmissionDiagnostics :=
    { requested := c.projected d, safetyState := c.state
      recoverySamples := c.normalRun, confidence := d.confidence }
  if pool ≠ .system then { g with requested := d.acceleratorBytes }
  else
    let g := { g with
      reserve := reserve, pending := pending, measuredPressure := snap.pressure }
    if 0 ≤ snap.available then
      { g with
        measuredAvailable := snap.available + freed
        effectiveAvailable := max 0 (snap.available + freed - pending) }
    else g

def evaluate (c : Controller) (d : Demand) (snap : Snapshot)
    (releasing : List String) (measured : String → Option Int) (seen : Nat) :
    Except AdmissionError Unit :=
  let topo := c.topology
  let req := c.projected d
  let reserve := c.reserveBytes
  let base (reason : Reason) : AdmissionError :=
    { reason := reason, requestedBytes := req, reserveBytes := reserve
      confidence := d.confidence }
  let l := c.ledger releasing measured seen
  -- The figures behind a refusal, attached to every one of them.
  let reject (e : AdmissionError) : Except AdmissionError Unit :=
    .error { e with
      diagnostics := some (c.diagnose e.poolID d snap l.freed l.pending reserve)
      reservedBytes := c.reservations.foldl (fun acc id r =>
        if id ∈ releasing then acc else acc + r.projected) 0 }
  -- Can never fit, even on an idle host.
  if topo.unified ∧ 0 < topo.gpuWorkingSetBytes ∧
      topo.gpuWorkingSetBytes < d.acceleratorBytes then
    reject { base .acceleratorMemory with
      poolID := .gpuWorkingSet, requestedBytes := d.acceleratorBytes
      availableBytes := topo.gpuWorkingSetBytes, permanent := true
      capacityBytes := topo.gpuWorkingSetBytes }
  else if 0 < topo.systemCapacity ∧
      max 0 (topo.systemCapacity - reserve) < req then
    reject { base .systemMemory with
      availableBytes := max 0 (topo.systemCapacity - reserve)
      permanent := true, capacityBytes := topo.systemCapacity }
  -- The GPU working-set cap applies to the sum of loaded runtimes.
  else if topo.unified ∧ 0 < topo.gpuWorkingSetBytes ∧
      0 < d.acceleratorBytes ∧
      topo.gpuWorkingSetBytes < l.resident + d.acceleratorBytes then
    reject { base .acceleratorMemory with
      poolID := .gpuWorkingSet
      requestedBytes := l.resident + d.acceleratorBytes
      availableBytes := topo.gpuWorkingSetBytes }
  else if c.state ≠ .healthy then reject (base .memoryPressure)
  else if snap.available < 0 ∨ snap.pressure = .unknown then
    reject (base .measurementUnavailable)
  else
    let avail := snap.available + l.freed
    let base (reason : Reason) : AdmissionError :=
      { base reason with availableBytes := avail, pendingBytes := l.pending }
    if snap.pressure ≠ .normal ∨
        (avail : ℚ) < reserve * warningReserveMultiplier then
      reject (base .memoryPressure)
    else if max 0 (avail - l.pending) - req < reserve then
      reject (base .systemMemory)
    else .ok ()

/-- Read before a sample is taken: runtimes resident by this epoch show in
that sample. -/
def sampleEpoch (c : Controller) : Nat := c.epoch

inductive ReserveError
  | alreadyReserved (id : String)
  | refused (e : AdmissionError)

/-- The record a reservation starts with. -/
def newEntry (c : Controller) (d : Demand) : ReservationEntry :=
  { ref := c.nextRef, projected := c.projected d
    accelerator := d.acceleratorBytes }

def record (c : Controller) (id : String) (d : Demand) : Controller :=
  { c with
    reservations := c.reservations.insert id (c.newEntry d)
    nextRef := c.nextRef + 1 }

/-- `Reserve`'s section under the lock, on the epoch and the reading its
first two steps took. -/
def reserve (c : Controller) (id : String) (d : Demand) (snap : Snapshot)
    (seen : Nat) : Except ReserveError (Reservation × Controller) :=
  if id ∈ c.reservations then .error (.alreadyReserved id)
  else if c.bypass then .ok (⟨id, c.nextRef⟩, c.record id d)
  else
    match c.evaluate d snap [] (fun _ => none) seen with
    | .error e => .error (.refused e)
    | .ok () => .ok (⟨id, c.nextRef⟩, c.record id d)

/-- The record a handle still shares with the map. -/
def shared (c : Controller) (h : Reservation) : Option ReservationEntry :=
  (c.reservations.lookup h.id).filter (·.ref = h.ref)

/-- The runtime is loaded: its memory shows in samples begun from now on. -/
def materialize (c : Controller) (h : Reservation) (pid : Nat) : Controller :=
  match c.shared h with
  | none => c
  | some r =>
    { c with
      epoch := c.epoch + 1
      reservations := c.reservations.insert h.id
        { r with resident := true, pid := pid, residentAt := c.epoch + 1 } }

def release (c : Controller) (h : Reservation) : Controller :=
  match c.shared h with
  | none => c
  | some _ => { c with reservations := c.reservations.erase h.id }

/-- What a poll makes of a reading: a normal one is compared with the reserve
itself. -/
def pollPressure (c : Controller) (snap : Snapshot) : Pressure :=
  if 0 ≤ snap.available ∧ snap.pressure = .normal then
    if snap.available < c.reserveBytes then .critical
    else if (snap.available : ℚ) < c.reserveBytes * warningReserveMultiplier then
      .constrained
    else .normal
  else snap.pressure

/-- Poll samples the host and advances the pressure hysteresis. -/
def poll (c : Controller) (snap : Snapshot) : Controller :=
  if c.bypass then c
  else
    match c.pollPressure snap with
    | .unknown => { c with normalRun := 0 }
    | .critical => { c with state := .critical, normalRun := 0 }
    | .constrained =>
      { c with
        state := if c.state = .critical then .critical else .constrained
        normalRun := 0 }
    | .normal =>
      if c.state = .healthy then c
      else if recoverySamples ≤ c.normalRun + 1 then
        { c with state := .healthy, normalRun := 0 }
      else { c with normalRun := c.normalRun + 1 }

end Controller

/-! ## The reserve and the ledger -/

theorem Reserve.bytes_nonneg (r : Reserve) (capacity : Int) :
    0 ≤ r.bytes capacity := by
  have h : (0 : ℚ) ≤ r.minimumGB * GiB :=
    mul_nonneg r.minimumGB_nonneg (by unfold GiB; norm_num)
  exact le_max_of_le_left (Int.ceil_nonneg h)

/-- What the loop adds up, figure by figure. -/
def pendingOf (releasing : List String) (seen : Nat) (id : String)
    (r : ReservationEntry) : Int :=
  if id ∈ releasing then 0 else if r.inSample seen then 0 else r.projected

def freedOf (releasing : List String) (measured : String → Option Int)
    (seen : Nat) (id : String) (r : ReservationEntry) : Int :=
  if id ∈ releasing then
    if r.inSample seen then r.credit (measured id) else 0
  else 0

def residentOf (releasing : List String) (id : String) (r : ReservationEntry) :
    Int :=
  if id ∈ releasing then 0 else r.accelerator

theorem Ledger.count_eq (releasing : List String)
    (measured : String → Option Int) (seen : Nat) (l : Ledger) (id : String)
    (r : ReservationEntry) :
    l.count releasing measured seen id r =
      ⟨l.pending + pendingOf releasing seen id r,
        l.freed + freedOf releasing measured seen id r,
        l.resident + residentOf releasing id r⟩ := by
  unfold Ledger.count pendingOf freedOf residentOf
  split
  · split <;> simp
  · split <;> simp

theorem ledger_eq (c : Controller) (releasing : List String)
    (measured : String → Option Int) (seen : Nat) :
    c.ledger releasing measured seen =
      ⟨Tally.total (pendingOf releasing seen) c.reservations,
        Tally.total (freedOf releasing measured seen) c.reservations,
        Tally.total (residentOf releasing) c.reservations⟩ := by
  have hloop : ∀ (es : List (Sigma fun _ : String => ReservationEntry))
      (l : Ledger),
      es.foldl (fun l e => l.count releasing measured seen e.1 e.2) l =
        ⟨l.pending + (es.map fun e => pendingOf releasing seen e.1 e.2).sum,
          l.freed + (es.map fun e => freedOf releasing measured seen e.1 e.2).sum,
          l.resident + (es.map fun e => residentOf releasing e.1 e.2).sum⟩ := by
    intro es
    induction es with
    | nil => intro l; simp
    | cons e es ih =>
      intro l
      rw [List.foldl_cons, ih, Ledger.count_eq]
      simp only [List.map_cons, List.sum_cons, Int.add_assoc]
  have h := hloop c.reservations.entries {}
  simp only [Int.zero_add] at h
  exact h

/-! ## What an admission decides -/

/-- Every test `evaluate` makes, read off an admission. -/
structure Admits (c : Controller) (d : Demand) (snap : Snapshot)
    (l : Ledger) : Prop where
  gpu_alone : ¬ (c.topology.unified = true ∧ 0 < c.topology.gpuWorkingSetBytes ∧
    c.topology.gpuWorkingSetBytes < d.acceleratorBytes)
  capacity : ¬ (0 < c.topology.systemCapacity ∧
    max 0 (c.topology.systemCapacity - c.reserveBytes) < c.projected d)
  gpu_sum : ¬ (c.topology.unified = true ∧ 0 < c.topology.gpuWorkingSetBytes ∧
    0 < d.acceleratorBytes ∧
    c.topology.gpuWorkingSetBytes < l.resident + d.acceleratorBytes)
  healthy : c.state = .healthy
  measured : 0 ≤ snap.available
  normal : snap.pressure = .normal
  above_warning : (c.reserveBytes : ℚ) * warningReserveMultiplier ≤
    (snap.available + l.freed : Int)
  fits : c.reserveBytes ≤
    max 0 (snap.available + l.freed - l.pending) - c.projected d

theorem evaluate_ok_iff {c : Controller} {d : Demand} {snap : Snapshot}
    {releasing : List String} {measured : String → Option Int} {seen : Nat} :
    c.evaluate d snap releasing measured seen = .ok () ↔
      Admits c d snap (c.ledger releasing measured seen) := by
  unfold Controller.evaluate
  simp only []
  constructor
  · intro h
    split at h
    · cases h
    · next h1 =>
      split at h
      · cases h
      · next h2 =>
        split at h
        · cases h
        · next h3 =>
          split at h
          · cases h
          · next h4 =>
            split at h
            · cases h
            · next h5 =>
              split at h
              · cases h
              · next h6 =>
                split at h
                · cases h
                · next h7 =>
                  rw [not_or] at h5 h6
                  exact
                    { gpu_alone := h1, capacity := h2, gpu_sum := h3
                      healthy := not_not.mp h4
                      measured := not_lt.mp h5.1
                      normal := not_not.mp h6.1
                      above_warning := not_lt.mp h6.2
                      fits := not_lt.mp h7 }
  · intro h
    rw [if_neg h.gpu_alone, if_neg h.capacity, if_neg h.gpu_sum,
      if_neg (not_not.mpr h.healthy),
      if_neg (not_or.mpr ⟨not_lt.mpr h.measured, by rw [h.normal]; simp⟩),
      if_neg (not_or.mpr ⟨not_not.mpr h.normal, not_lt.mpr h.above_warning⟩),
      if_neg (not_lt.mpr h.fits)]

/-- A reservation that succeeds on a controller that is not bypassed: the id
was free, the demand was admitted, and the map gained exactly its record. -/
theorem reserve_ok {c c' : Controller} {id : String} {d : Demand}
    {snap : Snapshot} {seen : Nat} {h : Reservation} (hb : c.bypass = false)
    (hr : c.reserve id d snap seen = .ok (h, c')) :
    id ∉ c.reservations ∧
      Admits c d snap (c.ledger [] (fun _ => none) seen) ∧
      h = ⟨id, c.nextRef⟩ ∧ c' = c.record id d := by
  unfold Controller.reserve at hr
  split at hr
  · cases hr
  · next hid =>
    rw [if_neg (by simp [hb])] at hr
    split at hr
    · cases hr
    · next hev =>
      cases hr
      exact ⟨hid, evaluate_ok_iff.mp hev, rfl, rfl⟩

theorem shared_eq_some {c : Controller} {h : Reservation}
    {r : ReservationEntry} :
    c.shared h = some r ↔
      c.reservations.lookup h.id = some r ∧ r.ref = h.ref := by
  simp [Controller.shared, Option.filter_eq_some_iff]

theorem poll_eq (c : Controller) (snap : Snapshot) :
    ∃ state normalRun,
      c.poll snap = { c with state := state, normalRun := normalRun } := by
  unfold Controller.poll
  split
  · exact ⟨c.state, c.normalRun, rfl⟩
  · split
    · exact ⟨_, _, rfl⟩
    · exact ⟨_, _, rfl⟩
    · exact ⟨_, _, rfl⟩
    · split
      · exact ⟨c.state, c.normalRun, rfl⟩
      · split <;> exact ⟨_, _, rfl⟩

end LocalBase.Memory
