import LocalBase.Lib.Machine
import LocalBase.Runtime.Llm

/-!
# A service

`Service` supervises one speech, image or video backend, which serves one
request at a time. It is laid out like the LLM, with the same queue, the same
kinds of callers and a switch goroutine, and differs where it can afford to:
`busy` stands for the one lease and for the switch alike, a backend is taken
out of `cur` in the section that decides to stop it, and the watcher releases
the memory of a crashed backend in the section that clears it. A switch whose
memory does not settle reinstates the previous model, and reloads it in a
goroutine of its own.

The events are again the sections that hold `mu`, with the stops, reservations
and answers between them.
-/

namespace LocalBase.Runtime

structure SvcBackend where
  modelID : String
  key : String := ""
  emergency : Bool := false
  /-- Its watcher waits for the process to exit. -/
  watched : Bool := false

inductive SvcSwitchPc
  /-- Before the section that takes `cur`: gate, admission, install. -/
  | prepare
  | take
  | stopPrev
  | settle
  /-- `rollBack`'s section is next. -/
  | rollBack (err : Err)
  | start
  | reserve
  | load (b : Nat)
  | install (b : Nat)
  | stopNew (b : Nat) (err : Err)
  | finish (err : Option Err)
  deriving DecidableEq

structure SvcSwitch where
  model : String
  key : String
  cancelled : Option Err := none
  first : Option Err := none
  prev : Option Nat := none
  pc : SvcSwitchPc := .prepare

/-- A numbered caller. Where it names a backend it stops that one next. -/
inductive SvcProc
  | idle
  | emergency (b : Nat)
  | draining (b : Nat)
  | unloading (b : Nat)
  | unloaded
  | claimed
  | stopClaimed (b : Nat)
  | closing
  | closeStop (b : Nat)
  /-- `reloadRestored`, before its look at the service and after it. -/
  | reloading (model : String)
  | reloadIdle (model : String)
  deriving DecidableEq

/-- What a service lease says about the backend it was granted on. -/
structure SvcLease where
  b : Nat
  modelID : String

structure Service where
  capacity : Nat
  cur : Option Nat := none
  /-- A request holds the backend, or a switch does. -/
  busy : Bool := false
  switching : Bool := false
  stopping : Bool := false
  wq : WaitQueue SvcLease := {}
  closed : Bool := false
  failed : Bool := false
  claimed : Bool := false
  unloading : String := ""
  unloaders : Int := 0
  switch : Option SvcSwitch := none
  backends : Nat → SvcBackend := fun _ => { modelID := "" }
  made : Nat := 0
  /-- Whose reservation is held under the service's modality. -/
  reservation : Option Nat := none
  procs : Nat → SvcProc := fun _ => .idle

namespace Service

/-! ## The queue -/

def grant (s : Service) (w b : Nat) : Service :=
  { s with
    busy := true
    wq := s.wq.grant w { b := b, modelID := (s.backends b).modelID } }

def fail (s : Service) (w : Nat) (err : Err) : Service :=
  { s with wq := s.wq.fail w err }

def serves (s : Service) (b w : Nat) : Bool :=
  (s.backends b).modelID == (s.wq.waiters w).model &&
    (s.backends b).key == (s.wq.waiters w).key

/-- The head's switch begins; it holds the backend. -/
def startSwitch (s : Service) (w : Nat) : Service :=
  { s with
    busy := true
    switching := true
    wq := s.wq.dispatch w
    switch := some
      { model := (s.wq.waiters w).model, key := (s.wq.waiters w).key } }

def mayPump (s : Service) : Bool :=
  !s.busy && !s.claimed && !s.closed && s.unloading == ""

/-- `pump`, which calls itself again only past a request it refused. -/
def pumpLoop : Nat → Service → Service
  | 0, s => s
  | n + 1, s =>
    if s.mayPump then
      match s.wq.queue with
      | [] => s
      | head :: _ =>
        match s.cur.filter (s.serves · head) with
        | some b => s.grant head b
        | none =>
          if s.stopping then pumpLoop n (s.fail head .unavailable)
          else s.startSwitch head
    else s

def pump (s : Service) : Service := pumpLoop s.wq.queue.length s

def acquire (s : Service) (model key : String) : Service :=
  if s.closed then s
  else if s.unloading = model then s
  else if s.capacity ≤ s.wq.queue.length then s
  else pump { s with wq := s.wq.push model key }

/-- `ServiceLease.Release`, which acts once. -/
def release (s : Service) (w : Nat) : Service :=
  if (s.wq.waiters w).released then s
  else pump { s with wq := s.wq.release w, busy := false }

/-! ## Backends and the switch -/

def setBackend (s : Service) (b : Nat) (f : SvcBackend → SvcBackend) : Service :=
  { s with backends := Function.update s.backends b (f (s.backends b)) }

/-- `stop(b)`, or the watcher's half of it. -/
def releaseMemory (s : Service) (b : Nat) : Service :=
  { s with reservation := if s.reservation = some b then none else s.reservation }

def setSwitch (s : Service) (w : SvcSwitch) : Service := { s with switch := some w }

def setProc (s : Service) (t : Nat) (p : SvcProc) : Service :=
  { s with procs := Function.update s.procs t p }

def cancelSwitch (s : Service) (cause : Err) : Service :=
  { s with switch := s.switch.map fun w =>
      { w with cancelled := some (w.cancelled.getD cause) } }

/-- The error of a start that failed: its context's cause, if that ended. -/
def startFailed (s : Service) (w : SvcSwitch) (err : Err) : Service :=
  s.setSwitch { w with pc := .finish (some (w.cancelled.getD err)) }

def install (s : Service) (w : SvcSwitch) (b : Nat) : Service :=
  if s.closed then s.setSwitch { w with pc := .stopNew b .unavailable }
  else
    match w.cancelled with
    | some cause =>
      (s.setBackend b ({ · with emergency := true })).setSwitch
        { w with pc := .stopNew b cause }
    | none =>
      ({ s with cur := some b }.setBackend b
        ({ · with watched := true })).setSwitch { w with pc := .finish none }

/-- `rollBack`'s section: the previous model's reload begins, unless the
service closed. -/
def rollBack (s : Service) (w : SvcSwitch) (err : Err) (t : Nat)
    (previous : String) : Service :=
  if s.closed then s.setSwitch { w with pc := .finish (some err) }
  else (s.setProc t (.reloading previous)).setSwitch
    { w with pc := .finish (some err) }

/-- An emergency says so on the backend before it stops it. -/
def markEmergency (s : Service) (t b : Nat) : Service :=
  match s.procs t with
  | .emergency _ => s.setBackend b ({ · with emergency := true })
  | _ => s

/-- What `retryAfterRecovery` answers once its attempts are over. -/
def finalError (w : SvcSwitch) (err : Option Err) : Option Err :=
  match w.first with
  | some e => if Llm.recoverable err then some e else err
  | none => err

/-- The section that ends a switch. -/
def endSwitch (s : Service) (w : SvcSwitch) (err : Option Err) : Service :=
  let s := { s with
    busy := false, switching := false, switch := none
    failed := err.isSome && s.cur.isNone && w.cancelled.isNone }
  match err with
  | none => pump s
  | some e => pump { s with
      wq := s.wq.failWhile (fun r => r.model == w.model && r.key == w.key) e
        s.wq.queue.length }

/-! ## The other callers -/

/-- `EmergencyStop`'s section, which also takes the backend. -/
def emergencyStop (s : Service) (t : Nat) (reason : Err) : Service :=
  let s' := { s with wq := s.wq.failAll reason, cur := none }.cancelSwitch reason
  match s.cur with
  | none => s'
  | some b => s'.setProc t (.emergency b)

def stopLoads (s : Service) : Service :=
  pump ({ s with stopping := true }.cancelSwitch .unavailable)

def close (s : Service) (t : Nat) : Service :=
  (({ s with closed := true, wq := s.wq.failAll .unavailable }).cancelSwitch
    .unavailable).setProc t .closing

def unload (s : Service) (t : Nat) (model : String) (now : Bool) : Service :=
  match s.cur.filter fun b => (s.backends b).modelID = model with
  | none => s
  | some b =>
    if (s.switching || (s.unloading != "" && s.unloading != model)) ||
        (now && s.busy) then s
    else
      { s with
        unloading := model
        unloaders := s.unloaders + 1
        wq := s.wq.failMatching (fun r => r.model == model && !r.done)
          .unloading }.setProc t (.draining b)

def endUnload (s : Service) : Service :=
  let unloaders := s.unloaders - 1
  pump { s with
    unloaders := unloaders
    unloading := if unloaders = 0 then "" else s.unloading }

/-- One look of a draining `Unload`; what it unloads it takes at once. -/
def unloadPoll (s : Service) (t b : Nat) (late : Bool) : Service :=
  if s.cur ≠ some b then (s.setProc t .idle).endUnload
  else if s.busy = false ∧ s.switching = false ∧ s.claimed = false then
    { s with cur := none, claimed := true }.setProc t (.unloading b)
  else if late then (s.setProc t .idle).endUnload
  else s

def unloadEnd (s : Service) (t : Nat) : Service :=
  ({ s with claimed := false }.setProc t .idle).endUnload

def claimIdle (s : Service) (t : Nat) : Service :=
  if s.cur = none ∨ s.busy = true ∨ s.claimed = true ∨ s.closed = true ∨
      s.switching = true ∨ s.wq.queue ≠ [] then s
  else { s with claimed := true }.setProc t .claimed

/-- `stopClaimed`'s section. -/
def stopClaimed (s : Service) (t : Nat) : Service :=
  match s.cur with
  | some b => { s with cur := none }.setProc t (.stopClaimed b)
  | none => s

def unclaim (s : Service) (t : Nat) : Service :=
  if s.claimed then pump ({ s with claimed := false }.setProc t .idle)
  else s.setProc t .idle

/-- `reloadRestored`'s look: whether nothing else started meanwhile. -/
def reloadCheck (s : Service) (t : Nat) (model : String) (active : Bool) :
    Service :=
  if s.cur = none ∧ s.switching = false ∧ s.closed = false ∧ s.wq.queue = [] ∧
      active = true then s.setProc t (.reloadIdle model)
  else s.setProc t .idle

end Service

/-- The backend a caller is about to stop, with where that leaves it. -/
def SvcProc.stopping : SvcProc → Option (Nat × SvcProc)
  | .emergency b => some (b, .idle)
  | .unloading b => some (b, .unloaded)
  | .stopClaimed b => some (b, .claimed)
  | .closeStop b => some (b, .idle)
  | _ => none

/-! ## The machine -/

inductive SvcEvent
  | acquire (model key : String)
  | receive (w : Nat)
  | cancel (w : Nat)
  | giveBack (w : Nat)
  | timeout (w : Nat)
  | release (w : Nat)
  | prepare (err : Option Err)
  | take
  | switchStop
  /-- The memory settled, or it did not, and the configuration still names the
  requested model (`back`) or moved on. -/
  | settle (err : Option Err) (back : Bool)
  | rollBack (t : Nat) (previous : String)
  | start (err : Option Err)
  | reserve (err : Option Err)
  | load (err : Option Err)
  | install
  | retry
  | endSwitch
  | crash (b : Nat)
  | emergencyStop (t : Nat) (reason : Err)
  | stopLoads
  | close (t : Nat)
  | closeRead (t : Nat)
  | unload (t : Nat) (model : String) (now : Bool)
  | unloadPoll (t : Nat) (late : Bool)
  | unloadEnd (t : Nat)
  | claimIdle (t : Nat)
  | stopClaimed (t : Nat)
  | unclaim (t : Nat)
  /-- A caller stops the backend it took. -/
  | procStop (t : Nat)
  /-- A reload's look; `settled` is the gate and the memory before it. -/
  | reloadCheck (t : Nat) (settled active : Bool)
  /-- A reload's `Acquire`; its lease is released as soon as it is granted. -/
  | reloadAcquire (t : Nat) (key : String)

namespace Service

def switchStep (s : Service) (w : SvcSwitch) : SvcEvent → Option Service
  | .prepare err =>
    match w.pc, err with
    | .prepare, none => some (s.setSwitch { w with pc := .take })
    | .prepare, some e => some (s.setSwitch { w with pc := .finish (some e) })
    | _, _ => none
  | .take =>
    match w.pc, s.cur with
    | .take, none => some (s.setSwitch { w with prev := none, pc := .start })
    | .take, some b => some
        ({ s with cur := none }.setSwitch { w with prev := some b, pc := .stopPrev })
    | _, _ => none
  | .switchStop =>
    match w.pc, w.prev with
    | .stopPrev, some p =>
      some ((s.releaseMemory p).setSwitch { w with pc := .settle })
    | .stopNew b err, _ =>
      some ((s.releaseMemory b).setSwitch { w with pc := .finish (some err) })
    | _, _ => none
  | .settle err back =>
    match w.pc, err, w.cancelled with
    | .settle, none, _ => some (s.setSwitch { w with pc := .start })
    | .settle, some _, some cause =>
      some (s.setSwitch { w with pc := .finish (some cause) })
    | .settle, some e, none =>
      some (s.setSwitch { w with pc := if back then .rollBack e else .start })
    | _, _, _ => none
  | .rollBack t previous =>
    match w.pc, s.procs t with
    | .rollBack err, .idle => some (s.rollBack w err t previous)
    | _, _ => none
  | .start err =>
    match w.pc, w.cancelled, err with
    | .start, some cause, _ =>
      some (s.setSwitch { w with pc := .finish (some cause) })
    | .start, none, some e => some (s.startFailed w e)
    | .start, none, none => some (s.setSwitch { w with pc := .reserve })
    | _, _, _ => none
  | .reserve err =>
    match w.pc, s.reservation, err with
    | .reserve, some _, _ => some (s.startFailed w .alreadyReserved)
    | .reserve, none, some e => some (s.startFailed w e)
    | .reserve, none, none =>
      some ({ s with
        reservation := some s.made, made := s.made + 1 }.setBackend s.made
          (fun _ => { modelID := w.model, key := w.key }) |>.setSwitch
            { w with pc := .load s.made })
    | _, _, _ => none
  | .load err =>
    match w.pc, err with
    | .load b, some e => some ((s.releaseMemory b).startFailed w e)
    | .load b, none => some (s.setSwitch { w with pc := .install b })
    | _, _ => none
  | .install =>
    match w.pc with
    | .install b => some (s.install w b)
    | _ => none
  | .retry =>
    match w.pc, w.first with
    | .finish (some e), none =>
      if Llm.recoverable (some e) then
        some (s.setSwitch { w with first := some e, prev := none, pc := .prepare })
      else none
    | _, _ => none
  | .endSwitch =>
    match w.pc with
    | .finish err => some (s.endSwitch w (finalError w err))
    | _ => none
  | _ => none

def step (s : Service) : SvcEvent → Option Service
  | .acquire model key => some (s.acquire model key)
  | .receive w => (s.wq.receive w).map fun wq => { s with wq := wq }
  | .cancel w => (s.wq.cancel w).map fun wq => pump { s with wq := wq }
  | .giveBack w =>
    match (s.wq.waiters w).call with
    | .givingBack => some (pump { s with wq := s.wq.giveBack w, busy := false })
    | _ => none
  | .timeout w =>
    match (s.wq.waiters w).call with
    | .waiting =>
      if s.wq.timesOut w then some (pump { s with wq := s.wq.timeout w })
      else some s
    | _ => none
  | .release w =>
    match (s.wq.waiters w).call with
    | .leased => some (s.release w)
    | _ => none
  | .crash b =>
    if (s.backends b).watched then
      let s' := s.setBackend b ({ · with watched := false })
      some (if s.cur = some b then { s' with cur := none }.releaseMemory b else s')
    else none
  | .emergencyStop t reason =>
    match s.procs t with
    | .idle => some (s.emergencyStop t reason)
    | _ => none
  | .stopLoads => some s.stopLoads
  | .close t =>
    match s.procs t with
    | .idle => some (s.close t)
    | _ => none
  | .closeRead t =>
    -- `switchW.Wait()` returned.
    match s.procs t, s.switch, s.cur with
    | .closing, none, none => some (s.setProc t .idle)
    | .closing, none, some b =>
      some ({ s with cur := none }.setProc t (.closeStop b))
    | _, _, _ => none
  | .unload t model now =>
    match s.procs t with
    | .idle => some (s.unload t model now)
    | _ => none
  | .unloadPoll t late =>
    match s.procs t with
    | .draining b => some (s.unloadPoll t b late)
    | _ => none
  | .unloadEnd t =>
    match s.procs t with
    | .unloaded => some (s.unloadEnd t)
    | _ => none
  | .claimIdle t =>
    match s.procs t with
    | .idle => some (s.claimIdle t)
    | _ => none
  | .stopClaimed t =>
    match s.procs t with
    | .claimed => some (s.stopClaimed t)
    | _ => none
  | .unclaim t =>
    match s.procs t with
    | .claimed => some (s.unclaim t)
    | _ => none
  | .procStop t =>
    (s.procs t).stopping.map fun (b, p) =>
      ((s.markEmergency t b).releaseMemory b).setProc t p
  | .reloadCheck t settled active =>
    match s.procs t with
    | .reloading model =>
      some (if settled then s.reloadCheck t model active else s.setProc t .idle)
    | _ => none
  | .reloadAcquire t key =>
    match s.procs t with
    | .reloadIdle model => some ((s.setProc t .idle).acquire model key)
    | _ => none
  | e => s.switch.bind fun w => s.switchStep w e

/-! ## What a step does -/

/-- The outcomes of a step, each with what the step found. -/
inductive Does (s : Service) : SvcEvent → Service → Prop
  | acquire {model key} : Does s (.acquire model key) (s.acquire model key)
  | receive {w q} : s.wq.receive w = some q → Does s (.receive w) { s with wq := q }
  | cancel {w q} : s.wq.cancel w = some q → Does s (.cancel w) (pump { s with wq := q })
  | giveBack {w} : (s.wq.waiters w).call = .givingBack →
      Does s (.giveBack w) (pump { s with wq := s.wq.giveBack w, busy := false })
  | timeout {w} : (s.wq.waiters w).call = .waiting → s.wq.timesOut w = true →
      Does s (.timeout w) (pump { s with wq := s.wq.timeout w })
  | late {w} : Does s (.timeout w) s
  | release {w} : (s.wq.waiters w).call = .leased → Does s (.release w) (s.release w)
  | crashCur {b} : s.cur = some b →
      Does s (.crash b)
        ({ s.setBackend b ({ · with watched := false }) with cur := none }.releaseMemory b)
  | crash {b} : Does s (.crash b) (s.setBackend b ({ · with watched := false }))
  | emergencyStop {t reason} : s.procs t = .idle →
      Does s (.emergencyStop t reason) (s.emergencyStop t reason)
  | stopLoads : Does s .stopLoads s.stopLoads
  | close {t} : s.procs t = .idle → Does s (.close t) (s.close t)
  | closed {t} : s.procs t = .closing → Does s (.closeRead t) (s.setProc t .idle)
  | closeStop {t b} : s.procs t = .closing → s.switch = none → s.cur = some b →
      Does s (.closeRead t) ({ s with cur := none }.setProc t (.closeStop b))
  | unload {t model now} : s.procs t = .idle → Does s (.unload t model now) (s.unload t model now)
  | unloadPoll {t late b} : s.procs t = .draining b →
      Does s (.unloadPoll t late) (s.unloadPoll t b late)
  | unloadEnd {t} : s.procs t = .unloaded → Does s (.unloadEnd t) (s.unloadEnd t)
  | claimIdle {t} : s.procs t = .idle → Does s (.claimIdle t) (s.claimIdle t)
  | stopClaimed {t} : s.procs t = .claimed → Does s (.stopClaimed t) (s.stopClaimed t)
  | unclaim {t} : s.procs t = .claimed → Does s (.unclaim t) (s.unclaim t)
  | procStop {t b p} : (s.procs t).stopping = some (b, p) →
      Does s (.procStop t) (((s.markEmergency t b).releaseMemory b).setProc t p)
  | reloadCheck {t active model} : s.procs t = .reloading model →
      Does s (.reloadCheck t true active) (s.reloadCheck t model active)
  | unsettled {t active model} : s.procs t = .reloading model →
      Does s (.reloadCheck t false active) (s.setProc t .idle)
  | reloadAcquire {t key model} : s.procs t = .reloadIdle model →
      Does s (.reloadAcquire t key) ((s.setProc t .idle).acquire model key)
  | endSwitch {w err} : s.switch = some w → w.pc = .finish err →
      Does s .endSwitch (s.endSwitch w (finalError w err))
  | switch {w e s'} : s.switch = some w → e ≠ .endSwitch → s.switchStep w e = some s' →
      Does s e s'

theorem does_of_step {s s' : Service} {e : SvcEvent} (h : s.step e = some s') : s.Does e s' := by
  cases e with
  | acquire | stopLoads =>
    cases h
    constructor
  | receive w =>
    obtain ⟨q, hq, rfl⟩ := Option.map_eq_some_iff.mp h
    exact .receive hq
  | cancel w =>
    obtain ⟨q, hq, rfl⟩ := Option.map_eq_some_iff.mp h
    exact .cancel hq
  | giveBack | release | emergencyStop | close | unload | unloadPoll | unloadEnd | claimIdle
  | stopClaimed | unclaim | reloadAcquire =>
    simp only [step] at h
    split at h <;> cases h
    next hfound =>
      constructor
      exact hfound
  | timeout w =>
    simp only [step] at h
    split at h
    · next hcall =>
      split at h <;> cases h
      · next ht => exact .timeout hcall ht
      · exact .late
    · cases h
  | crash b =>
    simp only [step] at h
    split at h
    · cases h
      split
      · next hcur => exact .crashCur hcur
      · exact .crash
    · cases h
  | closeRead t =>
    simp only [step] at h
    split at h <;> cases h
    · next ht _ _ => exact .closed ht
    · next ht hsw hcur => exact .closeStop ht hsw hcur
  | procStop t =>
    obtain ⟨⟨b, p⟩, hproc, rfl⟩ := Option.map_eq_some_iff.mp h
    exact .procStop hproc
  | reloadCheck t settled active =>
    simp only [step] at h
    split at h <;> cases h
    next ht =>
      cases settled with
      | true => exact .reloadCheck ht
      | false => exact .unsettled ht
  | endSwitch =>
    obtain ⟨w, hs, h⟩ := Option.bind_eq_some_iff.mp h
    simp only [switchStep] at h
    split at h <;> cases h
    next hpc => exact .endSwitch hs hpc
  | prepare | take | switchStop | settle | rollBack | start | reserve | load | install | retry =>
    obtain ⟨w, hs, h⟩ := Option.bind_eq_some_iff.mp h
    exact .switch hs (by simp) h

end Service

/-- A service as `NewService` makes it, with any queue capacity. -/
def service : Machine.System Service SvcEvent where
  init s := ∃ capacity, s = { capacity := capacity }
  step := Service.step

end LocalBase.Runtime
