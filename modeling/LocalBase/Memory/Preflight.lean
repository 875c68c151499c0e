import LocalBase.Memory.Permanent

/-!
# The preflight, the preview and the admission itself

A switch asks `CheckAdmission` whether the next model would be admitted once
the current one has stopped, and the pages ask `Preview`. Both decide with the
`evaluate` that `Reserve` decides with, but they credit the runtimes that would
be released, and each takes its reading in its own way: `CheckAdmission` samples
the footprints of the releasing runtimes, and a preview shares one reading of
all of them.

The credit is what makes them agree. A releasing runtime is left out of the
pending and the resident totals, and what it is credited with is added to the
free memory, so the decision is the one `Reserve` takes on the ledger without
it and a reading that much higher.
-/

namespace LocalBase.Memory

/-- The reading, had it shown more free memory. -/
def Snapshot.raised (s : Snapshot) (credit : Int) : Snapshot :=
  { s with available := s.available + credit }

/-- One shared display reading of the host and the resident runtimes. -/
structure View where
  snap : Snapshot
  measured : String → Option Int
  /-- The epoch this sample began in. -/
  seen : Nat

/-- What admitting a demand would decide now. -/
structure AdmissionPreview where
  requestedBytes : Int
  reserveBytes : Int
  /-- What the releasing runtimes would free counts, less the pending
  reservations; -1 when memory cannot be measured. -/
  availableBytes : Int
  /-- The pool a refusal was decided on. -/
  poolID : Pool
  err : Option AdmissionError

namespace Controller

/-- The footprints of the wanted runtimes that are loaded. Only a unified host
samples them, and `sampler` may have none for a process. -/
def footprints (c : Controller) (sampler : Nat → Option Nat) (wanted : String → Bool)
    (id : String) : Option Int :=
  if c.topology.unified ∧ wanted id then
    (c.reservations.lookup id).bind fun r =>
      if r.resident ∧ 0 < r.pid then (sampler r.pid).map Int.ofNat else none
  else none

/-- `CheckAdmission`'s section under the lock, on the footprints, the epoch and
the reading its first steps took. -/
def checkAdmission (c : Controller) (d : Demand) (releasing : List String)
    (measured : String → Option Int) (snap : Snapshot) (seen : Nat) :
    Except AdmissionError Unit :=
  if c.bypass then .ok () else c.evaluate d snap releasing measured seen

/-- The footprints `CheckAdmission` takes: those of the releasing runtimes. -/
def releasingFootprints (c : Controller) (sampler : Nat → Option Nat)
    (releasing : List String) : String → Option Int :=
  c.footprints sampler fun id => decide (id ∈ releasing)

/-- A reading for display samples every runtime. -/
def reading (c : Controller) (sampler : Nat → Option Nat) (snap : Snapshot) (seen : Nat) :
    View where
  snap := snap
  measured := c.footprints sampler fun _ => true
  seen := seen

def preview (c : Controller) (d : Demand) (releasing : List String) (v : View) :
    AdmissionPreview :=
  let l := c.ledger releasing v.measured v.seen
  let p : AdmissionPreview :=
    { requestedBytes := c.projected d
      reserveBytes := c.reserveBytes
      availableBytes :=
        if 0 ≤ v.snap.available then max 0 (v.snap.available + l.freed - l.pending) else -1
      poolID := .system
      err := none }
  if c.bypass then p
  else
    match c.evaluate d v.snap releasing v.measured v.seen with
    | .ok () => p
    | .error e =>
      -- A refusal's own figures: a GPU refusal counts accelerator bytes.
      { p with
        err := some e, requestedBytes := e.requestedBytes, poolID := e.poolID
        availableBytes :=
          if e.permanent ∨ 0 < e.availableBytes then e.availableBytes else p.availableBytes }

/-- The state with those reservations removed. -/
def without (c : Controller) (ids : List String) : Controller :=
  { c with reservations := Tally.without c.reservations ids }

/-- What the releasing runtimes are credited with: those in the sample, at the
projection or what was measured if that is less. -/
def credit (c : Controller) (releasing : List String) (measured : String → Option Int)
    (seen : Nat) : Int :=
  Tally.total (fun id r =>
    if id ∈ releasing ∧ r.inSample seen = true then r.credit (measured id) else 0)
    c.reservations

/-- What the other runtimes still have to load. -/
def pending (c : Controller) (releasing : List String) (seen : Nat) : Int :=
  Tally.total (fun id r =>
    if id ∉ releasing ∧ r.inSample seen = false then r.projected else 0)
    c.reservations

/-- The GPU working set has no room for the demand beside the runtimes that stay. -/
def WorkingSetShort (c : Controller) (d : Demand) (releasing : List String) : Prop :=
  c.topology.unified = true ∧ 0 < c.topology.gpuWorkingSetBytes ∧ 0 < d.acceleratorBytes ∧
    c.topology.gpuWorkingSetBytes <
      Tally.total (fun id r => if id ∈ releasing then 0 else r.accelerator) c.reservations +
        d.acceleratorBytes

/-- The reading with the credit is over the warning level, and what it leaves
beside the pending demands is enough for the demand and the reserve. -/
def HasRoom (c : Controller) (d : Demand) (snap : Snapshot) (credit pending : Int) : Prop :=
  (c.reserveBytes : ℚ) * warningReserveMultiplier ≤ (snap.available + credit : Int) ∧
    c.reserveBytes ≤ max 0 (snap.available + credit - pending) - c.projected d

/-- Every reservation is for a number of bytes, and none became resident later
than now. -/
structure Recorded (c : Controller) : Prop where
  bytes : ∀ id r, c.reservations.lookup id = some r → 0 ≤ r.projected
  past : ∀ id r, c.reservations.lookup id = some r → r.residentAt ≤ c.epoch

end Controller

/-! ## The reservation states -/

variable {seen : Nat} {id : String} {snap : Snapshot} {d : Demand}

section Recorded

variable {c : Controller}

theorem recorded_empty (h : c.reservations = ∅) : c.Recorded where
  bytes id r hlook := by
    rw [h, AList.lookup_empty] at hlook
    cases hlook
  past id r hlook := by
    rw [h, AList.lookup_empty] at hlook
    cases hlook

theorem Controller.Recorded.record (h : c.Recorded)
    (hd : 0 ≤ c.projected d) : (c.record id d).Recorded := by
  have hentry : ∀ id' r, (c.record id d).reservations.lookup id' = some r →
      0 ≤ r.projected ∧ r.residentAt ≤ c.epoch := by
    intro id' r hlook
    rw [Controller.record] at hlook
    by_cases hid : id' = id
    · subst hid
      rw [AList.lookup_insert] at hlook
      cases hlook
      exact ⟨hd, Nat.zero_le _⟩
    · rw [AList.lookup_insert_ne hid] at hlook
      exact ⟨h.bytes id' r hlook, h.past id' r hlook⟩
  exact ⟨fun id' r hlook => (hentry id' r hlook).1, fun id' r hlook => (hentry id' r hlook).2⟩

theorem Controller.Recorded.reserve {c' : Controller} (h : c.Recorded) {g : Reservation}
    (hd : 0 ≤ c.projected d) (hr : c.reserve id d snap seen = .ok (g, c')) : c'.Recorded := by
  unfold Controller.reserve at hr
  split at hr
  · cases hr
  · split at hr
    · cases hr
      exact h.record hd
    · split at hr
      · cases hr
      · cases hr
        exact h.record hd

theorem Controller.Recorded.materialize (h : c.Recorded) (g : Reservation) (pid : Nat) :
    (c.materialize g pid).Recorded := by
  unfold Controller.materialize
  cases hs : c.shared g with
  | none => exact h
  | some r =>
    have hheld := (shared_eq_some.mp hs).1
    have hentry : ∀ id r', (c.reservations.insert g.id
        { r with resident := true, pid := pid, residentAt := c.epoch + 1 }).lookup id = some r' →
        0 ≤ r'.projected ∧ r'.residentAt ≤ c.epoch + 1 := by
      intro id r' hlook
      by_cases hid : id = g.id
      · subst hid
        rw [AList.lookup_insert] at hlook
        cases hlook
        exact ⟨h.bytes g.id r hheld, Nat.le_refl _⟩
      · rw [AList.lookup_insert_ne hid] at hlook
        exact ⟨h.bytes id r' hlook, Nat.le_succ_of_le (h.past id r' hlook)⟩
    exact ⟨fun id r' hlook => (hentry id r' hlook).1, fun id r' hlook => (hentry id r' hlook).2⟩

theorem Controller.Recorded.release (h : c.Recorded) (g : Reservation) :
    (c.release g).Recorded := by
  unfold Controller.release
  cases hs : c.shared g with
  | none => exact h
  | some r =>
    have hentry : ∀ id r', (c.reservations.erase g.id).lookup id = some r' →
        c.reservations.lookup id = some r' := by
      intro id r' hlook
      by_cases hid : id = g.id
      · subst hid
        rw [AList.lookup_erase] at hlook
        cases hlook
      · rwa [AList.lookup_erase_ne hid] at hlook
    exact ⟨fun id r' hlook => h.bytes id r' (hentry id r' hlook),
      fun id r' hlook => h.past id r' (hentry id r' hlook)⟩

theorem Controller.Recorded.poll (h : c.Recorded) (snap : Snapshot) : (c.poll snap).Recorded := by
  obtain ⟨state, normalRun, hpoll⟩ := poll_eq c snap
  rw [hpoll]
  exact ⟨h.bytes, h.past⟩

/-- The states the calls leave, whatever they are asked. -/
inductive Recording : Controller → Prop
  | start {c : Controller} (h : c.reservations = ∅) : Recording c
  | reserve {c c' : Controller} {id : String} {d : Demand} {snap : Snapshot} {seen : Nat}
      {g : Reservation} (h : Recording c) (hd : 0 ≤ c.projected d)
      (hr : c.reserve id d snap seen = .ok (g, c')) : Recording c'
  | materialize {c : Controller} (h : Recording c) (g : Reservation) (pid : Nat) :
      Recording (c.materialize g pid)
  | release {c : Controller} (h : Recording c) (g : Reservation) : Recording (c.release g)
  | poll {c : Controller} (h : Recording c) (snap : Snapshot) : Recording (c.poll snap)

theorem Recording.recorded (h : Recording c) : c.Recorded := by
  induction h with
  | start h => exact recorded_empty h
  | reserve _ hd hr ih => exact ih.reserve hd hr
  | materialize _ g pid ih => exact ih.materialize g pid
  | release _ g ih => exact ih.release g
  | poll _ snap ih => exact ih.poll snap

end Recorded

/-! ## The credit -/

section Credit

variable {c : Controller} {releasing : List String} {measured : String → Option Int} {seen : Nat}

theorem ledger_freed :
    (c.ledger releasing measured seen).freed = c.credit releasing measured seen := by
  rw [ledger_eq]
  refine Tally.total_congr fun id r _ => ?_
  unfold freedOf
  by_cases hid : id ∈ releasing <;> by_cases hin : r.inSample seen = true <;> simp [hid, hin]

theorem ledger_pending : (c.ledger releasing measured seen).pending = c.pending releasing seen := by
  rw [ledger_eq]
  refine Tally.total_congr fun id r _ => ?_
  unfold pendingOf
  by_cases hid : id ∈ releasing <;> by_cases hin : r.inSample seen = true <;> simp [hid, hin]

/-- The ledger without the releasing runtimes: the totals they were left out of
are the same, and nothing is freed. -/
theorem ledger_without : (c.without releasing).ledger [] (fun _ => none) seen =
    { c.ledger releasing measured seen with freed := 0 } := by
  have hpending : Tally.total (pendingOf [] seen) (Tally.without c.reservations releasing) =
      Tally.total (pendingOf releasing seen) c.reservations := by
    rw [Tally.total_without]
    refine Tally.total_congr fun id r _ => ?_
    simp [pendingOf]
  have hfreed : Tally.total (freedOf [] (fun _ => none) seen)
      (Tally.without c.reservations releasing) = 0 := by
    simp [Tally.total, freedOf]
  have hresident : Tally.total (residentOf []) (Tally.without c.reservations releasing) =
      Tally.total (residentOf releasing) c.reservations := by
    rw [Tally.total_without]
    refine Tally.total_congr fun id r _ => ?_
    simp [residentOf]
  rw [ledger_eq, ledger_eq, Controller.without]
  simp only [hpending, hfreed, hresident]

theorem reserved_without :
    (c.without releasing).reservations.foldl
        (fun acc id r => if id ∈ ([] : List String) then acc else acc + r.projected) 0 =
      c.reservations.foldl
        (fun acc id r => if id ∈ releasing then acc else acc + r.projected) 0 := by
  have hall : ∀ (ids : List String) (s : AList fun _ : String => ReservationEntry),
      s.foldl (fun acc id r => if id ∈ ids then acc else acc + r.projected) 0 =
        Tally.total (fun id r => if id ∈ ids then 0 else r.projected) s := by
    intro ids s
    refine Tally.foldl_total (fun acc id r => ?_) s
    split <;> simp
  rw [hall, hall, Controller.without, Tally.total_without]
  refine Tally.total_congr fun id r _ => ?_
  simp

theorem Controller.Recorded.credit_nonneg (h : c.Recorded)
    (hm : ∀ id m, measured id = some m → 0 ≤ m) : 0 ≤ c.credit releasing measured seen := by
  have hzero : Tally.total (fun (_ : String) (_ : ReservationEntry) => 0) c.reservations = 0 := by
    simp [Tally.total]
  rw [← hzero]
  refine Tally.total_le_total fun id r hlook => ?_
  have hr := h.bytes id r hlook
  split
  · unfold ReservationEntry.credit
    cases hmeasured : measured id with
    | none => exact hr
    | some m => exact Int.le_min.mpr ⟨hr, hm id m hmeasured⟩
  · exact Int.le_refl 0

theorem footprints_nonneg {sampler : Nat → Option Nat} {wanted : String → Bool} {m : Int}
    (h : c.footprints sampler wanted id = some m) : 0 ≤ m := by
  unfold Controller.footprints at h
  split at h
  · obtain ⟨r, _, hr⟩ := Option.bind_eq_some_iff.mp h
    split at hr
    · obtain ⟨n, _, rfl⟩ := Option.map_eq_some_iff.mp hr
      exact Int.natCast_nonneg n
    · cases hr
  · cases h

end Credit

/-! ## The three verdicts -/

variable {releasing : List String} {c : Controller} {measured : String → Option Int}

/-- The preflight on a state is the admission on the state without the
releasing runtimes, at a reading raised by their credit. -/
theorem evaluate_without (hA : 0 ≤ snap.available)
    (hcredit : 0 ≤ c.credit releasing measured seen) :
    (c.without releasing).evaluate d (snap.raised (c.credit releasing measured seen)) []
        (fun _ => none) seen =
      c.evaluate d snap releasing measured seen := by
  have hraised : 0 ≤ snap.available + c.credit releasing measured seen := by omega
  have hlow : ¬ snap.available < 0 := by omega
  have hlow' : ¬ snap.available + c.credit releasing measured seen < 0 := by omega
  have hledger : (c.without releasing).ledger [] (fun _ => none) seen =
      { c.ledger releasing measured seen with freed := 0 } := ledger_without
  have hfreed : (c.ledger releasing measured seen).freed = c.credit releasing measured seen :=
    ledger_freed
  unfold Controller.evaluate
  rw [hledger]
  simp only [reserved_without, hfreed, Snapshot.raised, Int.add_zero, Controller.diagnose, hA,
    hraised, hlow, hlow', if_true]
  rfl

/-- What one releasing runtime was measured at does not depend on which others
were sampled. -/
theorem releasingFootprints_eq {sampler : Nat → Option Nat} (hid : id ∈ releasing) :
    c.releasingFootprints sampler releasing id = c.footprints sampler (fun _ => true) id := by
  unfold Controller.releasingFootprints Controller.footprints
  simp only [hid, decide_true]

theorem evaluate_congr {measured' : String → Option Int}
    (h : ∀ id ∈ releasing, measured id = measured' id) :
    c.evaluate d snap releasing measured seen = c.evaluate d snap releasing measured' seen := by
  have hfreed : Tally.total (freedOf releasing measured seen) c.reservations =
      Tally.total (freedOf releasing measured' seen) c.reservations := by
    refine Tally.total_congr fun id r _ => ?_
    unfold freedOf
    by_cases hid : id ∈ releasing
    · rw [h id hid]
    · simp only [if_neg hid]
  have hledger : c.ledger releasing measured seen = c.ledger releasing measured' seen := by
    rw [ledger_eq, ledger_eq, hfreed]
  unfold Controller.evaluate
  rw [hledger]

theorem preview_err {v : View} :
    (c.preview d releasing v).err = none ∧
        c.checkAdmission d releasing v.measured v.snap v.seen = .ok () ∨
      ∃ e, (c.preview d releasing v).err = some e ∧
        c.checkAdmission d releasing v.measured v.snap v.seen = .error e := by
  unfold Controller.preview Controller.checkAdmission
  simp only []
  cases hb : c.bypass with
  | true => exact .inl ⟨rfl, rfl⟩
  | false =>
    cases hev : c.evaluate d v.snap releasing v.measured v.seen with
    | ok u => exact .inl ⟨rfl, rfl⟩
    | error e => exact .inr ⟨e, rfl, rfl⟩

theorem reserve_answers (hid : id ∉ c.reservations) :
    (∃ h c', c.reserve id d snap seen = .ok (h, c')) ∧
        c.checkAdmission d [] (fun _ => none) snap seen = .ok () ∨
      ∃ e, c.reserve id d snap seen = .error (.refused e) ∧
        c.checkAdmission d [] (fun _ => none) snap seen = .error e := by
  unfold Controller.reserve Controller.checkAdmission
  rw [if_neg hid]
  cases hb : c.bypass with
  | true => exact .inl ⟨⟨_, _, rfl⟩, rfl⟩
  | false =>
    cases hev : c.evaluate d snap [] (fun _ => none) seen with
    | ok u => exact .inl ⟨⟨_, _, rfl⟩, rfl⟩
    | error e => exact .inr ⟨e, rfl, rfl⟩

theorem checkAdmission_without (hA : 0 ≤ snap.available)
    (hcredit : 0 ≤ c.credit releasing measured seen) :
    (c.without releasing).checkAdmission d [] (fun _ => none)
        (snap.raised (c.credit releasing measured seen)) seen =
      c.checkAdmission d releasing measured snap seen := by
  unfold Controller.checkAdmission
  rw [evaluate_without hA hcredit]
  rfl

theorem checkAdmission_ok_iff (hA : 0 ≤ snap.available) (hb : c.bypass = false)
    (hhealthy : c.state = .healthy) (hnormal : snap.pressure = .normal) (hgpu : ¬ c.GpuShort d)
    (hcap : ¬ c.CapacityShort d) (hset : ¬ c.WorkingSetShort d releasing) :
    c.checkAdmission d releasing measured snap seen = .ok () ↔
      c.HasRoom d snap (c.credit releasing measured seen) (c.pending releasing seen) := by
  have hresident : (c.ledger releasing measured seen).resident =
      Tally.total (fun id r => if id ∈ releasing then 0 else r.accelerator) c.reservations := by
    rw [ledger_eq]
    rfl
  have hfreed : (c.ledger releasing measured seen).freed = c.credit releasing measured seen :=
    ledger_freed
  have hpending : (c.ledger releasing measured seen).pending = c.pending releasing seen :=
    ledger_pending
  unfold Controller.checkAdmission
  rw [hb, if_neg Bool.false_ne_true, evaluate_ok_iff]
  constructor
  · intro h
    have hwarning := h.above_warning
    have hfits := h.fits
    rw [hfreed] at hwarning
    rw [hfreed, hpending] at hfits
    exact ⟨hwarning, hfits⟩
  · rintro ⟨hwarning, hfits⟩
    rw [← hfreed] at hwarning
    rw [← hfreed, ← hpending] at hfits
    refine ⟨hgpu, hcap, fun hsum => hset ?_, hhealthy, hA, hnormal, hwarning, hfits⟩
    rw [hresident] at hsum
    exact hsum

/-- The preflight, the preview and the admission on the state without the
releasing runtimes give one answer, a refusal with the same figures; and past
the other tests it is decided by what the reading and the credit leave. The
footprints may have been taken in another state than the decision. -/
theorem preflight_agrees {c c₀ : Controller} {d : Demand} {snap : Snapshot}
    {releasing : List String} {sampler : Nat → Option Nat} {seen : Nat} {id : String}
    (hc : c.Recorded) (hA : 0 ≤ snap.available) (hid : id ∉ (c.without releasing).reservations) :
    let measured := c₀.releasingFootprints sampler releasing
    let credit := c.credit releasing measured seen
    let check := c.checkAdmission d releasing measured snap seen
    let shown := (c.preview d releasing (c₀.reading sampler snap seen)).err
    let admission := (c.without releasing).reserve id d (snap.raised credit) seen
    ((check = .ok () ∧ shown = none ∧ ∃ h c', admission = .ok (h, c')) ∨
        ∃ e, check = .error e ∧ shown = some e ∧ admission = .error (.refused e)) ∧
      (c.bypass = false → c.state = .healthy → snap.pressure = .normal → ¬ c.GpuShort d →
        ¬ c.CapacityShort d → ¬ c.WorkingSetShort d releasing →
        (check = .ok () ↔ c.HasRoom d snap credit (c.pending releasing seen)) ∧
          (shown = none ↔ c.HasRoom d snap credit (c.pending releasing seen)) ∧
          ((∃ h c', admission = .ok (h, c')) ↔
            c.HasRoom d snap credit (c.pending releasing seen))) := by
  intro measured credit check shown admission
  have hcredit : 0 ≤ credit := hc.credit_nonneg fun _ _ => footprints_nonneg
  -- A preview's reading has every footprint the preflight has.
  have hreading : c.checkAdmission d releasing (c₀.reading sampler snap seen).measured snap seen =
      check := by
    show c.checkAdmission d releasing (c₀.footprints sampler fun _ => true) snap seen = check
    unfold check Controller.checkAdmission
    rw [evaluate_congr fun id hin => releasingFootprints_eq hin]
  have hone : (check = .ok () ∧ shown = none ∧ ∃ h c', admission = .ok (h, c')) ∨
      ∃ e, check = .error e ∧ shown = some e ∧ admission = .error (.refused e) := by
    have hremoved := checkAdmission_without (d := d) hA hcredit
    rcases reserve_answers hid with ⟨hadmitted, hok⟩ | ⟨e, hrefused, herr⟩
    · have hcheck : check = .ok () := hremoved.symm.trans hok
      rcases preview_err (v := c₀.reading sampler snap seen) with ⟨hnone, _⟩ | ⟨e, _, herr⟩
      · exact .inl ⟨hcheck, hnone, hadmitted⟩
      · cases hcheck.symm.trans (hreading.symm.trans herr)
    · have hcheck : check = .error e := hremoved.symm.trans herr
      rcases preview_err (v := c₀.reading sampler snap seen) with ⟨_, hok⟩ | ⟨e', hsome, herr'⟩
      · cases hcheck.symm.trans (hreading.symm.trans hok)
      · cases hcheck.symm.trans (hreading.symm.trans herr')
        exact .inr ⟨e, hcheck, hsome, hrefused⟩
  refine ⟨hone, fun hb hhealthy hnormal hgpu hcap hset => ?_⟩
  have hroom : check = .ok () ↔ c.HasRoom d snap credit (c.pending releasing seen) :=
    checkAdmission_ok_iff hA hb hhealthy hnormal hgpu hcap hset
  rcases hone with ⟨hcheck, hshown, hadmitted⟩ | ⟨e, hcheck, hshown, hrefused⟩
  · have hyes := hroom.mp hcheck
    exact ⟨hroom, iff_of_true hshown hyes, iff_of_true hadmitted hyes⟩
  · have hno : ¬ c.HasRoom d snap credit (c.pending releasing seen) := by
      intro hyes
      cases hcheck.symm.trans (hroom.mpr hyes)
    refine ⟨hroom, iff_of_false ?_ hno, iff_of_false ?_ hno⟩
    · rw [hshown]
      exact Option.some_ne_none e
    · rintro ⟨h, c', hok⟩
      cases hrefused.symm.trans hok

theorem nothing_nonneg : (0 : ℚ) ≤ 0 := le_refl 0

theorem nothing_le_hundred : (0 : ℚ) ≤ 100 := by decide

/-- A host that keeps nothing for itself. -/
def bareHost : Controller where
  topology := { unified := true, systemCapacity := 100, gpuWorkingSetBytes := 0 }
  system :=
    { percent := 0, minimumGB := 0, percent_nonneg := nothing_nonneg
      percent_le := nothing_le_hundred, minimumGB_nonneg := nothing_nonneg }
  bypass := false

def fortyBytes : Demand := ⟨40, 40, 40, "measured"⟩

def noBytes : Demand := ⟨0, 0, 0, "measured"⟩

theorem bareHost_recorded : (bareHost.record "llm" fortyBytes).Recorded :=
  (recorded_empty rfl).record (by decide)

/-- What the reading leaves is not let go below nothing: an empty demand is
admitted beside a runtime that has yet to load more than is free. -/
theorem empty_demand_admitted :
    ¬ ∀ (c : Controller) (d : Demand) (snap : Snapshot) (releasing : List String)
        (sampler : Nat → Option Nat), c.Recorded → 0 ≤ snap.available → c.bypass = false →
      c.state = .healthy → snap.pressure = .normal → ¬ c.GpuShort d → ¬ c.CapacityShort d →
      ¬ c.WorkingSetShort d releasing →
      (c.checkAdmission d releasing (c.releasingFootprints sampler releasing) snap c.sampleEpoch =
          .ok () ↔
        (c.reserveBytes : ℚ) * warningReserveMultiplier ≤ (snap.available + c.credit releasing
            (c.releasingFootprints sampler releasing) c.sampleEpoch : Int) ∧
          c.reserveBytes ≤ snap.available + c.credit releasing
              (c.releasingFootprints sampler releasing) c.sampleEpoch -
            c.pending releasing c.sampleEpoch - c.projected d) := by
  intro h
  have hgpu : ¬ (bareHost.record "llm" fortyBytes).GpuShort noBytes := fun hs =>
    absurd hs.2.1 (by decide)
  have hcap : ¬ (bareHost.record "llm" fortyBytes).CapacityShort noBytes := by
    unfold Controller.CapacityShort
    decide +kernel
  have hset : ¬ (bareHost.record "llm" fortyBytes).WorkingSetShort noBytes [] := fun hs =>
    absurd hs.2.1 (by decide)
  have hyes : (bareHost.record "llm" fortyBytes).checkAdmission noBytes []
      ((bareHost.record "llm" fortyBytes).releasingFootprints (fun _ => none) []) ⟨30, .normal⟩
      (bareHost.record "llm" fortyBytes).sampleEpoch = .ok () :=
    (checkAdmission_ok_iff (by decide) rfl rfl rfl hgpu hcap hset).mpr
      ⟨by decide +kernel, by decide +kernel⟩
  have hno := (h (bareHost.record "llm" fortyBytes) noBytes ⟨30, .normal⟩ [] (fun _ => none)
    bareHost_recorded (by decide) rfl rfl rfl hgpu hcap hset).mp hyes
  exact absurd hno.2 (by decide +kernel)

/-- The language model has loaded, and is measured at less than was reserved. -/
def loadedHost : Controller :=
  (bareHost.record "llm" fortyBytes).materialize ⟨"llm", 0⟩ 7

theorem loaded_host_switches :
    loadedHost.checkAdmission fortyBytes ["llm"]
        (loadedHost.releasingFootprints (fun _ => some 25) ["llm"]) ⟨20, .normal⟩ 1 = .ok () ∧
      ∃ h c', (loadedHost.without ["llm"]).reserve "llm" fortyBytes
        (Snapshot.raised ⟨20, .normal⟩ (loadedHost.credit ["llm"]
          (loadedHost.releasingFootprints (fun _ => some 25) ["llm"]) 1)) 1 = .ok (h, c') := by
  have hc : loadedHost.Recorded := bareHost_recorded.materialize _ _
  have hA : 0 ≤ (⟨20, .normal⟩ : Snapshot).available := by decide
  have hid : "llm" ∉ (loadedHost.without ["llm"]).reservations := by decide
  have hgpu : ¬ loadedHost.GpuShort fortyBytes := fun hs => absurd hs.2.1 (by decide)
  have hcap : ¬ loadedHost.CapacityShort fortyBytes := by
    unfold Controller.CapacityShort
    decide +kernel
  have hset : ¬ loadedHost.WorkingSetShort fortyBytes ["llm"] := fun hs =>
    absurd hs.2.1 (by decide)
  have hroom : loadedHost.HasRoom fortyBytes ⟨20, .normal⟩
      (loadedHost.credit ["llm"] (loadedHost.releasingFootprints (fun _ => some 25) ["llm"]) 1)
      (loadedHost.pending ["llm"] 1) := ⟨by decide +kernel, by decide +kernel⟩
  obtain ⟨hcheck, _, hadmission⟩ := (preflight_agrees hc hA hid).2 rfl rfl rfl hgpu hcap hset
  exact ⟨hcheck.mpr hroom, hadmission.mpr hroom⟩

end LocalBase.Memory
