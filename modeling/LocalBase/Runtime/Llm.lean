import LocalBase.Lib.Machine
import LocalBase.Runtime.Plan
import LocalBase.Runtime.WaitQueue

/-!
# The LLM manager

`LLM` runs one llama-server behind a FIFO queue. Everything it decides, it
decides in sections that hold `mu`; between two of them any other goroutine
may run one of its own. Those sections are the events of the machine here, in
every order the goroutines can take them, together with the few steps off the
lock that others can see: the answer a request takes from its channel, the
memory reservation a start makes and a stop gives back, and the `stopOnce` that
orders two stops of one backend.

The goroutines are kept as they stand in the source. A switch is one goroutine
with a place in `doSwitch`, `startBackend` and `restore`; its own outcomes (a
missing file, a refused admission, a process that dies while loading) are the
event's to choose. Each backend has a watcher. The other callers (`Unload`, an
idle claim, `EmergencyStop`, `Close`) are numbered, and any number of each may
be under way.

`cancelSwitch` has no field of its own: it is set and cleared in the sections
that set and clear `starting`, and calling it marks the switch in flight.
-/

namespace LocalBase.Runtime

/-- The end of a backend, once whoever gets there first. -/
inductive Once
  | idle | running | done
  deriving DecidableEq

/-- Where a backend's watcher is. -/
inductive Watch
  | off | watching
  /-- It cleared the slot; the once is next. -/
  | crashed
  | releasing
  /-- Its own pump is next. -/
  | pumping
  deriving DecidableEq

structure Backend where
  modelID : String
  key : String := ""
  plan : Parallel
  emergency : Bool := false
  stopOnce : Once := .idle
  watch : Watch := .off

/-- Where a call of `stopBackend` is. -/
inductive Stop
  | clear | once | running
  deriving DecidableEq

inductive SwitchPc
  /-- Before `prev := m.cur`: the install check, the target, the plan. -/
  | prepare
  | read
  /-- `CheckAdmission`, crediting the current model. -/
  | check
  | stopPrev (st : Stop)
  | settle
  /-- `startBackend`, before its reservation. -/
  | start
  | reserve
  /-- Reserved; the process loads. -/
  | load (b : Nat)
  | install (b : Nat)
  | stopNew (b : Nat) (st : Stop) (err : Err)
  /-- `doSwitch` returned. -/
  | finish (err : Option Err)
  deriving DecidableEq

structure Switch where
  model : String
  key : String
  /-- The cause its context was ended with. -/
  cancelled : Option Err := none
  /-- The first attempt's refusal, while the attempt after recovery runs. -/
  first : Option Err := none
  prev : Option Nat := none
  /-- The failure after which the previous model is restored. -/
  undo : Option Err := none
  pc : SwitchPc := .prepare

inductive Proc
  | idle
  | emergency (b : Nat) (st : Stop)
  /-- `Unload` between two looks at its backend. -/
  | draining (b : Nat)
  | unloading (b : Nat) (st : Stop)
  | unloaded
  /-- An idle claim, before, between and after its stops. -/
  | claimed
  | stopClaimed (b : Nat) (st : Stop)
  /-- `Close`, waiting for the switches. -/
  | closing
  | closeStop (b : Nat) (st : Stop)
  deriving DecidableEq

/-- The `stopBackend` a caller is in, with where each of its steps leads. -/
def Proc.stopping : Proc → Option (Nat × Stop × (Option Stop → Proc))
  | .emergency b st => some (b, st, fun next => next.elim .idle (.emergency b))
  | .unloading b st => some (b, st, fun next => next.elim .unloaded (.unloading b))
  | .stopClaimed b st =>
    some (b, st, fun next => next.elim .claimed (.stopClaimed b))
  | .closeStop b st => some (b, st, fun next => next.elim .idle (.closeStop b))
  | _ => none

/-- What a lease says about the backend it was granted on. -/
structure Lease where
  b : Nat
  modelID : String
  active : Int
  slots : Nat
  waiting : Nat

structure Llm where
  /-- `QueueCapacity`. -/
  capacity : Nat
  cur : Option Nat := none
  starting : Bool := false
  /-- The gateway is stopping: no model starts, and what is loaded serves. -/
  stopping : Bool := false
  active : Int := 0
  wq : WaitQueue Lease := {}
  closed : Bool := false
  /-- The last start failed and nothing runs. -/
  failed : Bool := false
  /-- Somebody is stopping the backend: requests are held. -/
  claimed : Bool := false
  /-- The model draining for an explicit unload. -/
  unloading : String := ""
  unloaders : Int := 0
  switch : Option Switch := none
  backends : Nat → Backend := fun _ => { modelID := "", plan := .one 0 }
  made : Nat := 0
  /-- Whose memory reservation is held under the id "llm". -/
  reservation : Option Nat := none
  procs : Nat → Proc := fun _ => .idle

namespace Llm

/-! ## The queue -/

def grant (m : Llm) (w b : Nat) : Llm :=
  let active := m.active + 1
  { m with
    active := active
    wq := m.wq.grant w
      { b := b, modelID := (m.backends b).modelID, active := active
        slots := (m.backends b).plan.slots, waiting := m.wq.queue.tail.length } }

def fail (m : Llm) (w : Nat) (err : Err) : Llm :=
  { m with wq := m.wq.fail w err }

/-- Whether the running backend is the one request `w` asks for. -/
def serves (m : Llm) (b w : Nat) : Bool :=
  (m.backends b).modelID == (m.wq.waiters w).model &&
    (m.backends b).key == (m.wq.waiters w).key

/-- The head's own model switch begins. -/
def startSwitch (m : Llm) (w : Nat) : Llm :=
  { m with
    starting := true
    wq := m.wq.dispatch w
    switch := some
      { model := (m.wq.waiters w).model, key := (m.wq.waiters w).key } }

/-- Whether nothing holds the queue back. -/
def mayPump (m : Llm) : Bool :=
  !m.starting && !m.claimed && !m.closed && m.unloading == ""

/-- `pump`'s loop; each round takes the head off the queue or is the last. -/
def pumpLoop : Nat → Llm → Llm
  | 0, m => m
  | n + 1, m =>
    if m.mayPump then
      match m.wq.queue with
      | [] => m
      | head :: _ =>
        match m.cur.filter (m.serves · head) with
        | some b =>
          if ((m.backends b).plan.slots : Int) ≤ m.active then m
          else pumpLoop n (m.grant head b)
        | none =>
          if m.stopping then pumpLoop n (m.fail head .unavailable)
          else if 0 < m.active then m -- drain the current model first
          else m.startSwitch head
    else m

/-- Dispatches from the head of the queue. Later requests never bypass a
switch the head is waiting for. -/
def pump (m : Llm) : Llm := pumpLoop m.wq.queue.length m

/-- `Acquire`'s section. A refused call leaves no trace. -/
def acquire (m : Llm) (model key : String) : Llm :=
  if m.closed then m
  else if m.unloading = model then m
  else if m.capacity ≤ m.wq.queue.length then m
  else pump { m with wq := m.wq.push model key }

/-- `Lease.Release`, which acts once. -/
def release (m : Llm) (w : Nat) : Llm :=
  if (m.wq.waiters w).released then m
  else pump { m with wq := m.wq.release w, active := m.active - 1 }

/-! ## Backends -/

def setBackend (m : Llm) (b : Nat) (f : Backend → Backend) : Llm :=
  { m with backends := Function.update m.backends b (f (m.backends b)) }

/-- `b.res.Release()`. -/
def releaseMemory (m : Llm) (b : Nat) : Llm :=
  { m with reservation := if m.reservation = some b then none else m.reservation }

/-- One step of `stopBackend(b)`: where it goes next, none when it returned.
`Once.Do` waits while another caller is inside. -/
def stopStep (m : Llm) (b : Nat) : Stop → Option (Llm × Option Stop)
  | .clear =>
    some ({ m with cur := if m.cur = some b then none else m.cur }, some .once)
  | .once =>
    match (m.backends b).stopOnce with
    | .idle => some (m.setBackend b ({ · with stopOnce := .running }), some .running)
    | .running => none
    | .done => some (m, none)
  | .running =>
    some ((m.releaseMemory b).setBackend b ({ · with stopOnce := .done }), none)

/-! ## The switch -/

def setSwitch (m : Llm) (s : Switch) : Llm := { m with switch := some s }

/-- `m.cancelSwitch(cause)`, when a switch is in flight; the first cause
stays. -/
def cancelSwitch (m : Llm) (cause : Err) : Llm :=
  { m with switch := m.switch.map fun s =>
      { s with cancelled := some (s.cancelled.getD cause) } }

/-- `startBackend` failed. -/
def startFailed (m : Llm) (s : Switch) (err : Err) : Llm :=
  match s.undo with
  | some e => m.setSwitch { s with pc := .finish (some e) }
  | none =>
    match s.cancelled with
    | some cause => m.setSwitch { s with pc := .finish (some cause) }
    | none =>
      -- A changed backend for the same model is not rolled back.
      match s.prev.filter fun p => (m.backends p).modelID ≠ s.model with
      | some _ => m.setSwitch { s with undo := some err, pc := .start }
      | none => m.setSwitch { s with pc := .finish (some err) }

/-- What a start launches: the requested model on a plan, or the previous
backend's own. -/
def launch (m : Llm) (s : Switch) (plan : Parallel) : Backend :=
  match s.undo, s.prev with
  | some _, some p =>
    { modelID := (m.backends p).modelID, key := (m.backends p).key
      plan := (m.backends p).plan }
  | _, _ => { modelID := s.model, key := s.key, plan := plan }

/-- `install`'s section: a started backend becomes current, unless its switch
was ended meanwhile. -/
def install (m : Llm) (s : Switch) (b : Nat) : Llm :=
  if m.closed then
    m.setSwitch { s with pc := .stopNew b .clear .unavailable }
  else
    match s.cancelled with
    | some cause =>
      (m.setBackend b ({ · with emergency := true })).setSwitch
        { s with pc := .stopNew b .clear cause }
    | none =>
      ({ m with cur := some b }.setBackend b
        ({ · with watch := .watching })).setSwitch
          { s with pc := .finish s.undo }

/-- `recoverable`: a memory refusal that is not permanent. -/
def recoverable : Option Err → Bool
  | some (.refused permanent) => !permanent
  | _ => false

/-- What `retryAfterRecovery` answers once its attempts are over. -/
def finalError (s : Switch) (err : Option Err) : Option Err :=
  match s.first with
  | some e => if recoverable err then some e else err
  | none => err

/-- The section that ends `switchTo`. -/
def endSwitch (m : Llm) (s : Switch) (err : Option Err) : Llm :=
  let m := { m with
    starting := false, switch := none
    failed := err.isSome && m.cur.isNone && s.cancelled.isNone }
  match err with
  | none => pump m
  | some e => pump { m with
      wq := m.wq.failWhile (fun r => r.model == s.model && r.key == s.key) e
        m.wq.queue.length }

/-! ## The other callers -/

def setProc (m : Llm) (t : Nat) (p : Proc) : Llm :=
  { m with procs := Function.update m.procs t p }

/-- `EmergencyStop`'s section. -/
def emergencyStop (m : Llm) (t : Nat) (reason : Err) : Llm :=
  let m' := { m with wq := m.wq.failAll reason }.cancelSwitch reason
  match m.cur with
  | none => m'
  | some b =>
    (m'.setBackend b ({ · with emergency := true })).setProc t
      (.emergency b .clear)

def stopLoads (m : Llm) : Llm :=
  pump ({ m with stopping := true }.cancelSwitch .unavailable)

/-- `Close`'s first section. -/
def close (m : Llm) (t : Nat) : Llm :=
  (({ m with closed := true, wq := m.wq.failAll .unavailable }).cancelSwitch
    .unavailable).setProc t .closing

/-- `Unload`'s first section; a refused unload leaves no trace. `now` is a
wait of zero. -/
def unload (m : Llm) (t : Nat) (model : String) (now : Bool) : Llm :=
  match m.cur.filter fun b => (m.backends b).modelID = model with
  | none => m
  | some b =>
    if m.starting || (m.unloading != "" && m.unloading != model) then m
    else if now && decide (0 < m.active) then m
    else
      { m with
        unloading := model
        unloaders := m.unloaders + 1
        wq := m.wq.failMatching (fun r => r.model == model && !r.dispatching)
          .unloading }.setProc t (.draining b)

/-- One unload of the model finishing. -/
def endUnload (m : Llm) : Llm :=
  let unloaders := m.unloaders - 1
  pump { m with
    unloaders := unloaders
    unloading := if unloaders = 0 then "" else m.unloading }

/-- One look of a draining `Unload` at its backend; `late` is its deadline or
its context. -/
def unloadPoll (m : Llm) (t b : Nat) (late : Bool) : Llm :=
  if m.cur ≠ some b then (m.setProc t .idle).endUnload
  else if m.active = 0 ∧ m.starting = false ∧ m.claimed = false then
    { m with claimed := true }.setProc t (.unloading b .clear)
  else if late then (m.setProc t .idle).endUnload
  else m

/-- `Unload`'s last section, its backend stopped. -/
def unloadEnd (m : Llm) (t : Nat) : Llm :=
  ({ m with claimed := false }.setProc t .idle).endUnload

def claimIdle (m : Llm) (t : Nat) : Llm :=
  if m.cur = none ∨ 0 < m.active ∨ m.starting = true ∨ m.claimed = true ∨
      m.closed = true ∨ m.wq.queue ≠ [] then m
  else { m with claimed := true }.setProc t .claimed

def unclaim (m : Llm) (t : Nat) : Llm :=
  if m.claimed then pump ({ m with claimed := false }.setProc t .idle)
  else m.setProc t .idle

end Llm

/-! ## The machine -/

inductive LlmEvent
  | acquire (model key : String)
  | receive (w : Nat)
  | cancel (w : Nat)
  | giveBack (w : Nat)
  | timeout (w : Nat)
  | release (w : Nat)
  /-- The switch goroutine; an error is that step's failure. -/
  | prepare (err : Option Err)
  | read
  | check (err : Option Err)
  | switchStop
  | settle (err : Option Err)
  | start (err : Option Err)
  | reserve (plan : Parallel) (err : Option Err)
  | load (err : Option Err)
  | install
  /-- Recovery made room: one more attempt. -/
  | retry
  | endSwitch
  /-- Backend `b`'s process exits by itself, and its watcher sees it. -/
  | crash (b : Nat)
  | crashOnce (b : Nat)
  | crashRelease (b : Nat)
  | crashPump (b : Nat)
  | emergencyStop (t : Nat) (reason : Err)
  | stopLoads
  | close (t : Nat)
  | closeRead (t : Nat)
  | unload (t : Nat) (model : String) (now : Bool)
  | unloadPoll (t : Nat) (late : Bool)
  | unloadEnd (t : Nat)
  | claimIdle (t : Nat)
  | stopClaimed (t : Nat)
  | unclaim (t : Nat)
  /-- A caller's `stopBackend` takes a step. -/
  | procStop (t : Nat)

namespace Llm

/-- The switch goroutine's steps. -/
def switchStep (m : Llm) (s : Switch) : LlmEvent → Option Llm
  | .prepare err =>
    match s.pc, err with
    | .prepare, none => some (m.setSwitch { s with pc := .read })
    | .prepare, some e => some (m.setSwitch { s with pc := .finish (some e) })
    | _, _ => none
  | .read =>
    match s.pc with
    | .read => some (m.setSwitch { s with prev := m.cur, pc := .check })
    | _ => none
  | .check err =>
    match s.pc, s.prev, err with
    | .check, none, _ => some (m.setSwitch { s with pc := .start })
    | .check, some _, some e =>
      some (m.setSwitch { s with pc := .finish (some e) })
    | .check, some _, none =>
      some (m.setSwitch { s with pc := .stopPrev .clear })
    | _, _, _ => none
  | .switchStop =>
    match s.pc, s.prev with
    | .stopPrev st, some p =>
      (m.stopStep p st).map fun (m', next) =>
        m'.setSwitch { s with pc := match next with
          | some st => .stopPrev st
          | none => .settle }
    | .stopNew b st err, _ =>
      (m.stopStep b st).map fun (m', next) =>
        m'.setSwitch { s with pc := match next with
          | some st => .stopNew b st err
          | none => .finish (some (s.undo.getD err)) }
    | _, _ => none
  | .settle err =>
    match s.pc, s.prev with
    | .settle, some p =>
      if (m.backends p).modelID ≠ s.model ∧ s.cancelled = none then
        some (m.setSwitch { s with undo := err, pc := .start })
      else some (m.setSwitch { s with pc := .start })
    | _, _ => none
  | .start err =>
    match s.pc, s.cancelled, err with
    | .start, some cause, _ =>
      some (m.setSwitch { s with pc := .finish (some (s.undo.getD cause)) })
    | .start, none, some e => some (m.startFailed s e)
    | .start, none, none => some (m.setSwitch { s with pc := .reserve })
    | _, _, _ => none
  | .reserve plan err =>
    match s.pc, m.reservation, err with
    | .reserve, some _, _ => some (m.startFailed s .alreadyReserved)
    | .reserve, none, some e => some (m.startFailed s e)
    | .reserve, none, none =>
      some ({ m with
        reservation := some m.made, made := m.made + 1 }.setBackend m.made
          (fun _ => m.launch s plan) |>.setSwitch
            { s with pc := .load m.made })
    | _, _, _ => none
  | .load err =>
    match s.pc, err with
    | .load b, some e => some ((m.releaseMemory b).startFailed s e)
    | .load b, none => some (m.setSwitch { s with pc := .install b })
    | _, _ => none
  | .install =>
    match s.pc with
    | .install b => some (m.install s b)
    | _ => none
  | .retry =>
    match s.pc, s.first with
    | .finish (some e), none =>
      if recoverable (some e) then
        some (m.setSwitch { s with
          first := some e, prev := none, undo := none, pc := .prepare })
      else none
    | _, _ => none
  | .endSwitch =>
    match s.pc with
    | .finish err => some (m.endSwitch s (finalError s err))
    | _ => none
  | _ => none

/-- The watcher of backend `b`. -/
def watchStep (m : Llm) (b : Nat) : LlmEvent → Option Llm
  | .crash _ =>
    match (m.backends b).watch with
    | .watching =>
      if m.cur = some b then
        some ({ m with cur := none }.setBackend b ({ · with watch := .crashed }))
      else some (m.setBackend b ({ · with watch := .off }))
    | _ => none
  | .crashOnce _ =>
    match (m.backends b).watch, (m.backends b).stopOnce with
    | .crashed, .idle => some (m.setBackend b
        ({ · with watch := .releasing, stopOnce := .running }))
    | .crashed, .done => some (m.setBackend b ({ · with watch := .pumping }))
    | _, _ => none
  | .crashRelease _ =>
    match (m.backends b).watch with
    | .releasing => some ((m.releaseMemory b).setBackend b
        ({ · with watch := .pumping, stopOnce := .done }))
    | _ => none
  | .crashPump _ =>
    match (m.backends b).watch with
    | .pumping => some (pump (m.setBackend b ({ · with watch := .off })))
    | _ => none
  | _ => none

def step (m : Llm) : LlmEvent → Option Llm
  | .acquire model key => some (m.acquire model key)
  | .receive w => (m.wq.receive w).map fun wq => { m with wq := wq }
  | .cancel w => (m.wq.cancel w).map fun wq => pump { m with wq := wq }
  | .giveBack w =>
    match (m.wq.waiters w).call with
    | .givingBack => some
        (pump { m with wq := m.wq.giveBack w, active := m.active - 1 })
    | _ => none
  | .timeout w =>
    match (m.wq.waiters w).call with
    | .waiting =>
      if m.wq.timesOut w then some (pump { m with wq := m.wq.timeout w })
      else some m
    | _ => none
  | .release w =>
    match (m.wq.waiters w).call with
    | .leased => some (m.release w)
    | _ => none
  | .crash b => m.watchStep b (.crash b)
  | .crashOnce b => m.watchStep b (.crashOnce b)
  | .crashRelease b => m.watchStep b (.crashRelease b)
  | .crashPump b => m.watchStep b (.crashPump b)
  | .emergencyStop t reason =>
    match m.procs t with
    | .idle => some (m.emergencyStop t reason)
    | _ => none
  | .stopLoads => some m.stopLoads
  | .close t =>
    match m.procs t with
    | .idle => some (m.close t)
    | _ => none
  | .closeRead t =>
    -- `switches.Wait()` returned.
    match m.procs t, m.switch, m.cur with
    | .closing, none, none => some (m.setProc t .idle)
    | .closing, none, some b => some (m.setProc t (.closeStop b .clear))
    | _, _, _ => none
  | .unload t model now =>
    match m.procs t with
    | .idle => some (m.unload t model now)
    | _ => none
  | .unloadPoll t late =>
    match m.procs t with
    | .draining b => some (m.unloadPoll t b late)
    | _ => none
  | .unloadEnd t =>
    match m.procs t with
    | .unloaded => some (m.unloadEnd t)
    | _ => none
  | .claimIdle t =>
    match m.procs t with
    | .idle => some (m.claimIdle t)
    | _ => none
  | .stopClaimed t =>
    match m.procs t, m.cur with
    | .claimed, some b => some (m.setProc t (.stopClaimed b .clear))
    | .claimed, none => some m
    | _, _ => none
  | .unclaim t =>
    match m.procs t with
    | .claimed => some (m.unclaim t)
    | _ => none
  | .procStop t =>
    (m.procs t).stopping.bind fun (b, st, next) =>
      (m.stopStep b st).map fun (m', st') => m'.setProc t (next st')
  | e => m.switch.bind fun s => m.switchStep s e

/-! ## What a step does -/

/-- The outcomes of a step, each with what the step found. -/
inductive Does (m : Llm) : LlmEvent → Llm → Prop
  | acquire {model key} : Does m (.acquire model key) (m.acquire model key)
  | receive {w q} : m.wq.receive w = some q → Does m (.receive w) { m with wq := q }
  | cancel {w q} : m.wq.cancel w = some q → Does m (.cancel w) (pump { m with wq := q })
  | giveBack {w} : (m.wq.waiters w).call = .givingBack →
      Does m (.giveBack w) (pump { m with wq := m.wq.giveBack w, active := m.active - 1 })
  | timeout {w} : (m.wq.waiters w).call = .waiting → m.wq.timesOut w = true →
      Does m (.timeout w) (pump { m with wq := m.wq.timeout w })
  | late {w} : Does m (.timeout w) m
  | release {w} : (m.wq.waiters w).call = .leased → Does m (.release w) (m.release w)
  | crashPump {b} : (m.backends b).watch = .pumping →
      Does m (.crashPump b) (pump (m.setBackend b ({ · with watch := .off })))
  | emergencyStop {t reason} : m.procs t = .idle →
      Does m (.emergencyStop t reason) (m.emergencyStop t reason)
  | stopLoads : Does m .stopLoads m.stopLoads
  | close {t} : m.procs t = .idle → Does m (.close t) (m.close t)
  | closed {t} : m.procs t = .closing → Does m (.closeRead t) (m.setProc t .idle)
  | closeStop {t b} : m.procs t = .closing → m.switch = none →
      Does m (.closeRead t) (m.setProc t (.closeStop b .clear))
  | unload {t model now} : m.procs t = .idle → Does m (.unload t model now) (m.unload t model now)
  | unloadPoll {t late b} : m.procs t = .draining b →
      Does m (.unloadPoll t late) (m.unloadPoll t b late)
  | unloadEnd {t} : m.procs t = .unloaded → Does m (.unloadEnd t) (m.unloadEnd t)
  | claimIdle {t} : m.procs t = .idle → Does m (.claimIdle t) (m.claimIdle t)
  | stopClaimed {t b} : m.procs t = .claimed →
      Does m (.stopClaimed t) (m.setProc t (.stopClaimed b .clear))
  | stopNothing {t} : Does m (.stopClaimed t) m
  | unclaim {t} : m.procs t = .claimed → Does m (.unclaim t) (m.unclaim t)
  | procStop {t b st next m₁ st'} : (m.procs t).stopping = some (b, st, next) →
      m.stopStep b st = some (m₁, st') → Does m (.procStop t) (m₁.setProc t (next st'))
  | endSwitch {s err} : m.switch = some s → s.pc = .finish err →
      Does m .endSwitch (m.endSwitch s (finalError s err))
  | switch {s e m'} : m.switch = some s → e ≠ .endSwitch → m.switchStep s e = some m' →
      Does m e m'
  | watch {b e m'} : (∀ b', e ≠ .crashPump b') → m.watchStep b e = some m' → Does m e m'

theorem does_of_step {m m' : Llm} {e : LlmEvent} (h : m.step e = some m') : m.Does e m' := by
  cases e with
  | acquire | stopLoads =>
    cases h
    constructor
  | receive w =>
    obtain ⟨q, hq, rfl⟩ := Option.map_eq_some_iff.mp h
    exact .receive hq
  | cancel w =>
    obtain ⟨q, hq, rfl⟩ := Option.map_eq_some_iff.mp h
    exact .cancel hq
  | giveBack | release | emergencyStop | close | unload | unloadPoll | unloadEnd | claimIdle
  | unclaim =>
    simp only [step] at h
    split at h <;> cases h
    next hfound =>
      constructor
      exact hfound
  | timeout w =>
    simp only [step] at h
    split at h
    · next hcall =>
      split at h <;> cases h
      · next ht => exact .timeout hcall ht
      · exact .late
    · cases h
  | crash | crashOnce | crashRelease => exact .watch (by simp) h
  | crashPump b =>
    simp only [step, watchStep] at h
    split at h <;> cases h
    next hw => exact .crashPump hw
  | closeRead t =>
    simp only [step] at h
    split at h <;> cases h
    · next ht _ _ => exact .closed ht
    · next ht hsw _ => exact .closeStop ht hsw
  | stopClaimed t =>
    simp only [step] at h
    split at h <;> cases h
    · next ht _ => exact .stopClaimed ht
    · exact .stopNothing
  | procStop t =>
    obtain ⟨⟨b, st, next⟩, hproc, hmap⟩ := Option.bind_eq_some_iff.mp h
    obtain ⟨⟨m₁, st'⟩, hst, rfl⟩ := Option.map_eq_some_iff.mp hmap
    exact .procStop hproc hst
  | endSwitch =>
    obtain ⟨s, hs, h⟩ := Option.bind_eq_some_iff.mp h
    simp only [switchStep] at h
    split at h <;> cases h
    next hpc => exact .endSwitch hs hpc
  | prepare | read | check | switchStop | settle | start | reserve | load | install | retry =>
    obtain ⟨s, hs, h⟩ := Option.bind_eq_some_iff.mp h
    exact .switch hs (by simp) h

end Llm

/-- The manager as `NewLLM` makes it, with any queue capacity. -/
def llm : Machine.System Llm LlmEvent where
  init m := ∃ capacity, m = { capacity := capacity }
  step := Llm.step

end LocalBase.Runtime
