import LocalBase.Lib.Machine
import LocalBase.Runs.Call
import Mathlib.Algebra.BigOperators.Group.Finset.Basic
import Mathlib.Data.Finset.Range

/-!
# The run manager

The manager keeps the runs a page may ask for in a map, and counts in `held`
what all of them hold in memory. Around the runs' own goroutines there are the
requests that delete a run, the sweeps of the expired ones, the trim every new
run makes among its owner's, and the event streams.

One event is a section under a lock, or one addition to the counter, which is
atomic and under no lock of its own. A run's number is that of its `create`.
Any number of deletions, sweeps and streams go on at a time, numbered too.
-/

namespace LocalBase.Runs

open Machine

inductive DeletePc
  | idle
  | found (k : Nat)
  /-- Waits for the run's `done`, or for the time it gives it. -/
  | waiting (k : Nat)
  /-- In `dismiss`, the run is out of the map. -/
  | removed (k : Nat)
  | marked (k : Nat)
  deriving DecidableEq

inductive StreamPc
  | idle
  | looking
  /-- What it has yet to write, and the rest of what it saw. -/
  | writing (pending : List RunEvent) (notify : Nat) (ended : Bool) (total : Nat)
  | waiting (notify : Nat)
  /-- It returned: having found the run ended and written everything, or for
  some other reason. -/
  | returned (ended : Bool)

/-- An event stream of run `run`, from the cursor `start`. -/
structure Stream where
  run : Nat := 0
  start : Nat := 0
  after : Nat := 0
  sent : List RunEvent := []
  pc : StreamPc := .idle

structure Manager where
  /-- What all retained runs hold. -/
  held : Int := 0
  /-- The keys of the map. -/
  runs : List Nat := []
  closing : Bool := false
  /-- The `create`s so far. -/
  count : Nat := 0
  call : Nat → Call := fun _ => {}
  delete : Nat → DeletePc := fun _ => .idle
  /-- The expired runs a sweep has yet to release. -/
  sweep : Nat → List Nat := fun _ => []
  stream : Nat → Stream := fun _ => {}

inductive DeleteEvent
  | find (k : Nat)
  | stop
  /-- The caller left. -/
  | leave
  | dismiss
  | mark
  | release

inductive StreamEvent
  | open (k cursor : Nat)
  | look
  | send
  | sendFails
  | drained
  | wake
  | ping
  /-- The client or the server goes away. -/
  | leave

inductive Event
  | create (owner : String) (target : Target)
  | call (k : Nat) (e : CallEvent)
  | publish (k : Nat)
  /-- A run refused before the queue goes out of the map, then is released. -/
  | forget (k : Nat)
  | forgetRelease (k : Nat)
  | delete (j : Nat) (e : DeleteEvent)
  | sweep (i now : Nat)
  | sweepRelease (i : Nat)
  | close
  | stream (i : Nat) (e : StreamEvent)

namespace Manager

def setCall (w : Manager) (k : Nat) (c : Call) (n : Int) : Manager :=
  { w with call := Function.update w.call k c, held := w.held + n }

/-- Whether an owner may start no more runs. -/
def overActive (w : Manager) (owner : String) : Bool :=
  let active := w.runs.filter fun k => !(w.call k).run.terminal
  let mine := active.filter fun k => (w.call k).run.owner = owner
  decide (runActivePerOwner ≤ mine.length) || decide (runActiveTotal ≤ active.length)

/-- What holds the memory, for a run stopped by the total limit. -/
def memoryFullError (cfg : Config) (w : Manager) : RunError :=
  let finished := w.runs.filter fun k => (w.call k).run.terminal
  .memoryFull
    { heldBytes := w.held
      limitBytes := cfg.maxHeldTotal
      finishedBytes := (finished.map fun k => (w.call k).run.held).sum
      oldestExpiresAt := (finished.filterMap fun k => (w.call k).run.expiresAt).min? }

def release (w : Manager) (k : Nat) : Manager :=
  let c := w.call k
  w.setCall k { c with run := c.run.release } (-(c.run.held + c.run.body))

/-- Out of the map, and what it holds given back. -/
def drop (w : Manager) (k : Nat) : Manager :=
  { w.release k with runs := w.runs.erase k }

/-- `trim`'s loop over the owner's runs, oldest first. -/
def trimLoop : Nat → List Nat → Manager → Manager
  | 0, _, w => w
  | _ + 1, [], w => w
  | n + 1, k :: ks, w =>
    if (w.call k).run.terminal then trimLoop n ks (w.drop k) else trimLoop (n + 1) ks w

/-- Drop the owner's oldest finished runs over the retained limit. -/
def trim (w : Manager) (owner : String) : Manager :=
  let mine := w.runs.filter fun k => (w.call k).run.owner = owner
  let mine := mine.insertionSort fun a b => (w.call a).run.createdAt ≤ (w.call b).run.createdAt
  trimLoop (mine.length - runRetainedPerOwner) mine w

def refusal (w : Manager) (owner : String) : Option Refusal :=
  if w.closing then some .unavailable
  else if w.overActive owner then some .tooManyRuns
  else none

def refuse (w : Manager) (k : Nat) (size : Int) (why : Refusal) : Manager :=
  w.setCall k { w.call k with create := .refusing size why } 0

/-- The run goes into the map, and the owner's oldest may go out of it. -/
def insert (w : Manager) (k : Nat) (c : Call) : Manager :=
  { w.setCall k c 0 with runs := k :: w.runs }.trim c.run.owner

/-- `create`'s section under the manager's lock. -/
def publish (cfg : Config) (w : Manager) (k : Nat) : Option Manager :=
  let c := w.call k
  match c.create with
  | .sized size => some (
      match w.refusal c.run.owner with
      | some why => w.refuse k size why
      | none => w.insert k
          { c with
            create := .waiting, inner := .running
            run := { c.run with body := size, cancel := true } })
  | .ended e => some (
      match w.refusal c.run.owner with
      | some why => w.refuse k 0 why
      | none =>
        let r := { c.run with error := some e }
        w.insert k
          { c with
            create := .answered
            run := r.finishAt .failed (some .memoryLimit) r.createdAt cfg.retention })
  | _ => none

/-- Finished and past its retention. -/
def expired (w : Manager) (now k : Nat) : Bool :=
  let r := (w.call k).run
  r.terminal && r.expiresAt.any fun at_ => decide (at_ ≤ now)

def setDelete (w : Manager) (j : Nat) (pc : DeletePc) : Manager :=
  { w with delete := Function.update w.delete j pc }

def setStream (w : Manager) (i : Nat) (s : Stream) : Manager :=
  { w with stream := Function.update w.stream i s }

def stepDelete (w : Manager) (j : Nat) : DeleteEvent → Option Manager
  | .find k =>
    match w.delete j with
    | .idle => if k ∈ w.runs then some (w.setDelete j (.found k)) else none
    | _ => none
  | .stop =>
    match w.delete j with
    | .found k =>
      let c := w.call k
      if c.locked then none
      else
        let r := c.run.stop StopCause.stopped.status StopCause.stopped.reason
        some ((w.setCall k { c with run := r } 0).setDelete j (.waiting k))
    | _ => none
  | .leave =>
    match w.delete j with
    | .waiting _ => some (w.setDelete j .idle)
    | _ => none
  | .dismiss =>
    match w.delete j with
    | .waiting k => some ({ w with runs := w.runs.erase k }.setDelete j (.removed k))
    | _ => none
  | .mark =>
    match w.delete j with
    | .removed k =>
      let c := w.call k
      if c.locked then none
      else some ((w.setCall k { c with run := { c.run with dismissed := true } } 0).setDelete j
        (.marked k))
    | _ => none
  | .release =>
    match w.delete j with
    | .marked k => if (w.call k).locked then none else some ((w.release k).setDelete j .idle)
    | _ => none

/-- An event stream's next section, write or wait. -/
def stepStream (w : Manager) (i : Nat) : StreamEvent → Option Manager
  | .open k cursor =>
    match (w.stream i).pc with
    | .idle =>
      if k ∈ w.runs ∧ (w.call k).run.restored = false then
        some (w.setStream i { run := k, start := cursor, after := cursor, pc := .looking })
      else none
    | _ => none
  | .look =>
    let s := w.stream i
    match s.pc with
    | .looking =>
      if (w.call s.run).locked then none
      else
        let (pending, notify, ended, total) := (w.call s.run).run.eventsAfter s.after
        some (w.setStream i { s with pc := .writing pending notify ended total })
    | _ => none
  | .send =>
    let s := w.stream i
    match s.pc with
    | .writing (e :: rest) notify ended total =>
      some (w.setStream i
        { s with sent := s.sent ++ [e], after := e.id, pc := .writing rest notify ended total })
    | _ => none
  | .sendFails =>
    let s := w.stream i
    match s.pc with
    | .writing (_ :: _) _ _ _ => some (w.setStream i { s with pc := .returned false })
    | _ => none
  | .drained =>
    let s := w.stream i
    match s.pc with
    | .writing [] notify ended total =>
      some (w.setStream i { s with
        pc := if ended = true ∧ total ≤ s.after then .returned true else .waiting notify })
    | _ => none
  | .wake =>
    let s := w.stream i
    match s.pc with
    | .waiting notify =>
      if notify < (w.call s.run).run.notify then some (w.setStream i { s with pc := .looking })
      else none
    | _ => none
  | .ping =>
    let s := w.stream i
    match s.pc with
    | .waiting _ => some (w.setStream i { s with pc := .looking })
    | _ => none
  | .leave =>
    let s := w.stream i
    match s.pc with
    | .waiting _ => some (w.setStream i { s with pc := .returned false })
    | _ => none

def step (cfg : Config) (w : Manager) : Event → Option Manager
  | .create owner target =>
    let refused := w.overActive owner
    some
      { w.setCall w.count
          { create := if refused then .refused .tooManyRuns else .reading
            run := { owner := owner, target := target } } 0 with
        count := w.count + 1 }
  | .call k e =>
    if k < w.count then
      ((w.call k).step cfg w.held (w.memoryFullError cfg) e).map fun r => w.setCall k r.1 r.2
    else none
  | .publish k => if k < w.count then w.publish cfg k else none
  | .forget k =>
    let c := w.call k
    match c.create with
    | .forgetting => some
        { w.setCall k { c with create := .releasing } 0 with runs := w.runs.erase k }
    | _ => none
  | .forgetRelease k =>
    let c := w.call k
    match c.create with
    | .releasing =>
      if c.locked then none
      else some
        (w.setCall k { c with create := .forgotten, run := c.run.release }
          (-(c.run.held + c.run.body)))
    | _ => none
  | .sweep i now =>
    if w.sweep i = [] then some
      { w with
        runs := w.runs.filter fun k => !w.expired now k
        sweep := Function.update w.sweep i (w.runs.filter (w.expired now)) }
    else none
  | .sweepRelease i =>
    match w.sweep i with
    | k :: ks =>
      if (w.call k).locked then none
      else some { w.release k with sweep := Function.update w.sweep i ks }
    | [] => none
  | .close => some { w with closing := true }
  | .delete j e => w.stepDelete j e
  | .stream i e => w.stepStream i e

end Manager

/-- A run read back from its checkpoint: over, with no events of its own. -/
structure Call.Restored (c : Call) : Prop where
  restored : c.run.restored = true
  create : c.create = .answered
  inner : c.inner = .none
  writer : c.writer = {}
  terminal : c.run.terminal = true
  endedAt : c.run.endedAt.isSome = true
  done : c.run.done = 1
  body : c.run.body = 0
  events : c.run.events = []
  notify : c.run.notify = 0
  stopStatus : c.run.stopStatus = none

/-- A manager just started, with whatever the checkpoints gave it. -/
structure Manager.Started (w : Manager) : Prop where
  restored : ∀ k, k < w.count → (w.call k).Restored
  fresh : ∀ k, w.count ≤ k → w.call k = {}
  runs : ∀ k, k ∈ w.runs ↔ k < w.count
  nodup : w.runs.Nodup
  held : w.held = ∑ k ∈ Finset.range w.count, (w.call k).run.held
  delete : ∀ j, w.delete j = .idle
  sweep : ∀ i, w.sweep i = []
  stream : ∀ i, w.stream i = {}

def manager (cfg : Config) : System Manager Event where
  init := Manager.Started
  step := Manager.step cfg

/-- The default limits, and a decoder that takes every payload for an empty object. -/
def plainConfig : Config where
  unmarshal _ := some []
  envelope _ := none

theorem started_empty : Manager.Started {} where
  restored k hk := absurd hk (Nat.not_lt_zero k)
  fresh _ _ := rfl
  runs k := ⟨fun hk => (List.not_mem_nil hk).elim, fun hk => absurd hk (Nat.not_lt_zero k)⟩
  nodup := List.nodup_nil
  held := rfl
  delete _ := rfl
  sweep _ := rfl
  stream _ := rfl

end LocalBase.Runs
