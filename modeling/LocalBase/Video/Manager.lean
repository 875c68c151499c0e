import LocalBase.Lib.Machine
import LocalBase.Video.Job

/-!
# The video job manager

Every function of `Manager` here is called with its lock held, and every event
of the machine is one section under that lock, or one wait or call outside of
it. A `terminate` is a caller of its own: any number of them, from `Cancel`,
`Shutdown`, `CancelActive`, memory pressure, the deadline and the runner, stand
anywhere in it at once. A termination goes by the number of the caller that
does it.

`terminalJobs` walks a map and its sort is not stable, so which of two jobs with
one terminal time comes first is open. The keys are a list here, in an order
that can change at any time (`reorder`).
-/

namespace LocalBase.Video

open Machine

structure Manager where
  /-- The keys of the map. -/
  jobs : List Nat := []
  active : Option Nat := none
  stopping : Bool := false
  /-- The jobs so far. -/
  count : Nat := 0
  job : Nat → Job := fun _ => {}

namespace Manager

def setJob (m : Manager) (k : Nat) (j : Job) : Manager :=
  { m with job := Function.update m.job k j }

/-- The finished jobs, the oldest first. -/
def terminalJobs (m : Manager) : List Nat :=
  (m.jobs.filter fun k => (m.job k).terminal).insertionSort fun a b =>
    (m.job a).terminalAt.getD 0 ≤ (m.job b).terminalAt.getD 0

def artifactBytes (m : Manager) : Nat :=
  (m.terminalJobs.map fun k => (m.job k).weight).sum

/-- The job's directory goes, and its key. -/
def remove (m : Manager) (k : Nat) : Manager :=
  { m.setJob k { m.job k with file := 0 } with jobs := m.jobs.erase k }

def expired (o : Options) (m : Manager) (now k : Nat) : Bool :=
  decide ((m.job k).terminalAt.getD 0 + o.terminalTTL ≤ now)

/-- `prune`'s first loop, over the jobs past the TTL. -/
def pruneExpired (o : Options) (m : Manager) (now : Nat) : Manager :=
  (m.terminalJobs.filter (m.expired o now)).foldl remove m

/-- `prune`'s second loop. Every round removes a job, so there are at most as
many as there are keys. -/
def pruneLoop (o : Options) : Nat → Manager → Manager
  | 0, m => m
  | n + 1, m =>
    match m.terminalJobs with
    | k :: _ =>
      if o.maxTerminalJobs < m.terminalJobs.length then pruneLoop o n (m.remove k) else m
    | [] => m

/-- Drop finished jobs past the TTL or beyond the count. -/
def prune (o : Options) (m : Manager) (now : Nat) : Manager :=
  let m := m.pruneExpired o now
  m.pruneLoop o m.jobs.length

/-- Every round removes a job here too. -/
def makeRoomLoop (o : Options) (size : Nat) : Nat → Manager → Manager × Option JobError
  | 0, m => (m, some (.artifactLimit "aggregate"))
  | n + 1, m =>
    if m.terminalJobs.length < o.maxTerminalJobs ∧
        m.artifactBytes + size ≤ o.maxArtifactBytesTotal then (m, none)
    else
      match m.terminalJobs with
      | k :: _ => makeRoomLoop o size n (m.remove k)
      | [] => (m, some (.artifactLimit "aggregate"))

/-- Evict the oldest finished jobs for a new artifact. -/
def makeRoom (o : Options) (m : Manager) (size now : Nat) : Manager × Option JobError :=
  if o.maxArtifactBytesTotal < size then (m, some (.artifactLimit "aggregate"))
  else
    let m := m.prune o now
    m.makeRoomLoop o size (m.jobs.length + 1)

/-- Record the terminal time and hand the job back. -/
def finish (o : Options) (m : Manager) (k now now' : Nat) : Manager :=
  if (m.job k).terminal then m
  else
    { m.setJob k ((m.job k).finish now) with
      active := if m.active = some k then none else m.active }.prune o now'

/-- Whether the owner has a job of this number. -/
def has (m : Manager) (owner : String) (k : Nat) : Bool :=
  decide (k ∈ m.jobs) && decide ((m.job k).owner = owner)

/-- A new job, whose directory may fail to be made; `none` is `ErrBusy` or that failure. -/
def start (o : Options) (m : Manager) (owner : String) (now : Nat) (mkdir : Option JobError) :
    Manager :=
  let m := m.prune o now
  if m.stopping || m.active.isSome then m
  else
    match mkdir with
    | some _ => m
    | none =>
      { m.setJob m.count { owner := owner, created := now } with
        jobs := m.count :: m.jobs, active := some m.count, count := m.count + 1 }

def get (o : Options) (m : Manager) (owner : String) (k now : Nat) : Manager × Option Snapshot :=
  let m := m.prune o now
  (m, if m.has owner k then some (m.job k).snapshot else none)

/-- The owner's completed job's artifact. -/
def artifact (o : Options) (m : Manager) (owner : String) (k now : Nat) :
    Manager × Option Artifact :=
  let m := m.prune o now
  (m, if m.has owner k then (m.job k).artifact else none)

/-- Remove the owner's finished job and its files. -/
def delete (o : Options) (m : Manager) (owner : String) (k now : Nat) : Manager × Bool :=
  let m := m.prune o now
  if m.has owner k && (m.job k).terminal then (m.remove k, true) else (m, false)

end Manager

/-! ## The runner -/

inductive RunnerEvent
  /-- `Start` sets the timer and starts `run`. -/
  | launch
  | acquired (admission : Bool) (err : Option JobError)
  /-- `close(admitted)`. -/
  | admits
  /-- The question whether the job is stopped. -/
  | ask
  | ready (err : Option JobError)
  | submit (result : Except JobError BackendJob)
  | accept
  | poll (result : Except JobError BackendJob)
  | apply (now now' : Nat)
  | prepare (result : Except JobError Media)
  | room (now : Nat)
  | write (n : Nat) (err : Option JobError)
  | persisted (now now' : Nat)
  /-- The select: the context's end, or the timer. -/
  | slept (done : Bool)
  | fail

/-- After the question, where `run` goes on. -/
def RunnerPc.afterAsk (j : Job) : RunnerPc → Option RunnerPc
  | .admitted =>
    some (if j.settling then .returned
      else if j.admission then .readying else .failing .unavailable)
  | .ready => some (if j.settling then .returned else .submitting)
  | .looping => some (if j.settling then .returned else .polling)
  | .applied => some (if j.settling then .returned else .sleeping)
  | _ => none

/-- A call's result, or the failure of the work. -/
def RunnerPc.ofResult (result : Except JobError BackendJob) (ok : BackendJob → RunnerPc) :
    RunnerPc :=
  match result with
  | .ok b => ok b
  | .error e => .failing e

/-- `persist` up to its section: what the media is, or why there is none. -/
def persistBefore (o : Options) (cancelled : Bool) (media : Option Media)
    (converted : Except JobError Media) : Except JobError Media :=
  match media with
  | none => .error .noMedia
  | some m =>
    if o.maxArtifactBytes < m.size then .error (.artifactLimit "per job")
    else
      match if o.prepare then converted else .ok m with
      | .error e => .error e
      | .ok prepared =>
        if cancelled then .error .canceled
        else if o.maxArtifactBytes < prepared.size then
          .error (.artifactLimit "prepared, per job")
        else .ok prepared

namespace Manager

def goTo (m : Manager) (k : Nat) (pc : RunnerPc) : Manager :=
  m.setJob k { m.job k with runner := pc }

/-- `apply`'s section. -/
def apply (o : Options) (m : Manager) (k : Nat) (update : BackendJob) (now now' : Nat) : Manager :=
  let j := m.job k
  if j.closed then m.goTo k .applied
  else if update.id ≠ j.backendID then m.goTo k (.failing .mismatchedID)
  else
    match update.status with
    | .queued => m.setJob k { j with state := .queued, runner := .applied }
    | .generating => m.setJob k { j with state := .inProgress, runner := .applied }
    | .completed =>
      m.setJob k
        { j with state := .inProgress, completing := true, runner := .preparing update.media }
    | .failed =>
      (m.setJob k
        { j with failure := some .backendFailed, state := .failed, runner := .applied }).finish
          o k now now'
    | .cancelled =>
      (m.setJob k
        { j with reason := "backend", state := .cancelled, runner := .applied }).finish o k now now'

/-- `apply`'s second section, once the artifact is persisted or is not. -/
def persisted (o : Options) (m : Manager) (k : Nat) (result : Except JobError Artifact)
    (now now' : Nat) : Manager :=
  let j := { m.job k with completing := false }
  match result with
  | .error e => m.setJob k { j with runner := .failing e }
  | .ok a =>
    if j.settling then m.setJob k { j with runner := .applied }
    else
      (m.setJob k { j with artifact := some a, state := .completed, runner := .applied }).finish
        o k now now'

/-- The runner's next section, wait or call. -/
def run (o : Options) (m : Manager) (k : Nat) : RunnerEvent → Option Manager
  | .launch =>
    match (m.job k).runner with
    | .unlaunched =>
      some (m.setJob k { m.job k with runner := .acquiring, deadline := true })
    | _ => none
  | .acquired admission err =>
    match (m.job k).runner with
    | .acquiring =>
      some (m.setJob k { m.job k with admission := admission, runner := .admitting err })
    | _ => none
  | .admits =>
    match (m.job k).runner with
    | .admitting none => some (m.setJob k { m.job k with admitted := true, runner := .admitted })
    | .admitting (some e) =>
      some (m.setJob k { m.job k with admitted := true, runner := .failing e })
    | _ => none
  | .ask => ((m.job k).runner.afterAsk (m.job k)).map (m.goTo k)
  | .ready err =>
    match (m.job k).runner with
    | .readying => some (m.goTo k (match err with
        | none => .ready
        | some e => .failing e))
    | _ => none
  | .submit result =>
    match (m.job k).runner with
    | .submitting => some (m.goTo k (.ofResult result .submitted))
    | _ => none
  | .accept =>
    let j := m.job k
    match j.runner with
    | .submitted sub =>
      if j.closed then some (m.goTo k .returned)
      else some (m.setJob k { j with
        backendID := sub.id
        state := if sub.status = .generating then .inProgress else .queued
        runner := .looping })
    | _ => none
  | .poll result =>
    match (m.job k).runner with
    | .polling => some (m.goTo k (.ofResult result .applying))
    | _ => none
  | .apply now now' =>
    match (m.job k).runner with
    | .applying update => some (m.apply o k update now now')
    | _ => none
  | .prepare converted =>
    match (m.job k).runner with
    | .preparing media =>
      some (m.goTo k (match persistBefore o (m.job k).cancelled media converted with
        | .ok prepared => .rooming prepared
        | .error e => .persisted (.error e)))
    | _ => none
  | .room now =>
    match (m.job k).runner with
    | .rooming media =>
      let (m, err) := m.makeRoom o media.size now
      some (match err with
        | none => m.setJob k { m.job k with pending := media.size, runner := .writing media }
        | some e => m.goTo k (.persisted (.error e)))
    | _ => none
  | .write n err =>
    match (m.job k).runner with
    | .writing media =>
      match err with
      | none =>
        some (m.setJob k { m.job k with
          file := media.size, runner := .persisted (.ok media.artifact) })
      | some e =>
        if n ≤ media.size then
          some (m.setJob k { m.job k with file := n, runner := .persisted (.error e) })
        else none
    | _ => none
  | .persisted now now' =>
    match (m.job k).runner with
    | .persisted result => some (m.persisted o k result now now')
    | _ => none
  | .slept done =>
    match (m.job k).runner with
    | .sleeping =>
      if done then
        if (m.job k).cancelled then some (m.goTo k .returned) else none
      else some (m.goTo k .looping)
    | _ => none
  | .fail =>
    match (m.job k).runner with
    | .failing e => some (m.goTo k (if (m.job k).cancelled then .returned else .blaming e))
    | _ => none

end Manager

/-! ## Terminating a job -/

inductive Source
  | cancel
  | shutdown
  | cancelActive
  | pressure
  | deadline
  | runner
deriving DecidableEq

/-- Where a caller is in `terminate`, or before it. -/
inductive CallerPc
  | idle
  /-- The timer fired; `expire` looks whether the job is done. -/
  | expiring
  | entering
  /-- Another caller's termination is under way. -/
  | waiting (t : Nat)
  | cancelling
  | admitting
  | looking
  | stopping (completing : Bool)
  /-- The stop failed. -/
  | unstopping (err : JobError)
  | joining
  | settling
  | closing (err : Option JobError)
  | returned (err : Option JobError)
deriving DecidableEq

/-- A call of `terminate` for job `job`: cancelled with `reason`, or failed with `failure`. -/
structure Caller where
  job : Nat := 0
  source : Source := .cancel
  reason : String := ""
  failure : Option JobError := none
  pc : CallerPc := .idle

def Caller.cancelled (k : Nat) (source : Source) (reason : String) : Caller :=
  { job := k, source := source, reason := reason, pc := .entering }

def Caller.failed (k : Nat) (source : Source) (failure : JobError) : Caller :=
  { job := k, source := source, failure := some failure, pc := .entering }

structure World where
  m : Manager := {}
  /-- The calls so far. -/
  calls : Nat := 0
  caller : Nat → Caller := fun _ => {}
  /-- What `OnContainmentFailure` was told. -/
  reports : List (Nat × Source × JobError) := []

inductive CallerEvent
  | expire
  | enter
  | wake
  | cancel
  /-- `<-j.admitted`. -/
  | admitted
  | look
  | stop (err : Option JobError)
  | unstop
  /-- `<-completing`. -/
  | join
  | settle (now now' : Nat) (rm : Option JobError)
  | close

inductive Event
  | start (owner : String) (now : Nat) (mkdir : Option JobError)
  | get (owner : String) (k now : Nat)
  | artifact (owner : String) (k now : Nat)
  | delete (owner : String) (k now : Nat)
  | cancel (owner : String) (k now : Nat)
  | shutdown (now : Nat)
  | cancelActive (now : Nat)
  | failActiveForMemoryPressure (now : Nat)
  | run (k : Nat) (e : RunnerEvent)
  /-- The runner's work failed: it terminates the job, unless that is under way. -/
  | blame (k : Nat)
  /-- A job's deadline. -/
  | fire (k : Nat)
  | call (c : Nat) (e : CallerEvent)
  | reorder (ids : List Nat)

def Event.actor : Event → Option Nat
  | .call c _ => some c
  | _ => none

namespace World

def setPc (w : World) (c : Nat) (pc : CallerPc) : World :=
  { w with caller := Function.update w.caller c { w.caller c with pc := pc } }

def addCaller (w : World) (c : Caller) : World :=
  { w with caller := Function.update w.caller w.calls c, calls := w.calls + 1 }

/-- A call for the active job, if there is one. -/
def callActive (w : World) (c : Nat → Caller) : World :=
  match w.m.active with
  | some k => w.addCaller (c k)
  | none => w

/-- `terminate`'s end; the deadline and the runner report a failure. -/
def return_ (w : World) (c : Nat) (err : Option JobError) : World :=
  let w := w.setPc c (.returned err)
  match err, (w.caller c).source with
  | some e, .deadline | some e, .runner =>
    { w with reports := w.reports ++ [((w.caller c).job, (w.caller c).source, e)] }
  | _, _ => w

/-- The job as `terminate` settles it, when its artifact file is gone or could
not be removed. -/
def settled (c : Caller) (j : Job) : Option JobError → Job
  | some e => { j with failure := some e, state := .failed }
  | none =>
    let j := { j with pending := 0, file := 0 }
    match c.failure with
    | some e => { j with failure := some e, state := .failed }
    | none => { j with reason := c.reason, state := .cancelled }

/-- A caller's next section, wait or call. -/
def stepCaller (o : Options) (w : World) (c : Nat) : CallerEvent → Option World
  | .expire =>
    match (w.caller c).pc with
    | .expiring => some (w.setPc c
        (if (w.m.job (w.caller c).job).settling then .returned none else .entering))
    | _ => none
  | .enter =>
    let k := (w.caller c).job
    match (w.caller c).pc with
    | .entering =>
      if (w.m.job k).terminal then some (w.return_ c none)
      else
        match (w.m.job k).terminating with
        | some t => some (w.setPc c (.waiting t))
        | none => some
            { w.setPc c .cancelling with
              m := w.m.setJob k { w.m.job k with terminating := some c } }
    | _ => none
  | .wake =>
    match (w.caller c).pc with
    | .waiting t =>
      match (w.caller t).pc with
      | .returned err => some (w.return_ c err)
      | _ => none
    | _ => none
  | .cancel =>
    let k := (w.caller c).job
    match (w.caller c).pc with
    | .cancelling => some
        { w.setPc c .admitting with m := w.m.setJob k { w.m.job k with cancelled := true } }
    | _ => none
  | .admitted =>
    match (w.caller c).pc with
    | .admitting =>
      if (w.m.job (w.caller c).job).admitted then some (w.setPc c .looking) else none
    | _ => none
  | .look =>
    match (w.caller c).pc with
    | .looking => some (w.setPc c (.stopping (w.m.job (w.caller c).job).completing))
    | _ => none
  | .stop err =>
    let k := (w.caller c).job
    match (w.caller c).pc with
    | .stopping completing =>
      match err with
      | some e => some (w.setPc c (.unstopping e))
      | none => some
          { w.setPc c (if completing then .joining else .settling) with
            m := w.m.setJob k { w.m.job k with stopped := true } }
    | _ => none
  | .unstop =>
    let k := (w.caller c).job
    match (w.caller c).pc with
    | .unstopping e => some
        { w.setPc c (.closing (some e)) with
          m := w.m.setJob k { w.m.job k with terminating := none } }
    | _ => none
  | .join =>
    match (w.caller c).pc with
    | .joining =>
      if (w.m.job (w.caller c).job).completing then none else some (w.setPc c .settling)
    | _ => none
  | .settle now now' rm =>
    let k := (w.caller c).job
    match (w.caller c).pc with
    | .settling =>
      if (w.m.job k).terminal then some (w.setPc c (.closing none))
      else some
        { w.setPc c (.closing none) with
          m := (w.m.setJob k (settled (w.caller c) (w.m.job k) rm)).finish o k now now' }
    | _ => none
  | .close =>
    match (w.caller c).pc with
    | .closing err => some (w.return_ c err)
    | _ => none

def step (o : Options) (w : World) : Event → Option World
  | .start owner now mkdir => some { w with m := w.m.start o owner now mkdir }
  | .get owner k now => some { w with m := (w.m.get o owner k now).1 }
  | .artifact owner k now => some { w with m := (w.m.artifact o owner k now).1 }
  | .delete owner k now => some { w with m := (w.m.delete o owner k now).1 }
  | .cancel owner k now =>
    let w := { w with m := w.m.prune o now }
    some (if w.m.has owner k then w.addCaller (.cancelled k .cancel "cancelled") else w)
  | .shutdown now =>
    let w := { w with m := { w.m.prune o now with stopping := true } }
    some (w.callActive fun k => .cancelled k .shutdown "shutdown")
  | .cancelActive now =>
    let w := { w with m := w.m.prune o now }
    some (w.callActive fun k => .cancelled k .cancelActive "cancelled")
  | .failActiveForMemoryPressure now =>
    let w := { w with m := w.m.prune o now }
    some (w.callActive fun k => .failed k .pressure (.admission "memory-pressure" "system"))
  | .run k e =>
    if k < w.m.count then (w.m.run o k e).map fun m => { w with m := m } else none
  | .blame k =>
    if k < w.m.count then
      match (w.m.job k).runner with
      | .blaming e =>
        let w' := { w with m := w.m.goTo k .returned }
        some (if (w.m.job k).terminating.isSome then w' else w'.addCaller (.failed k .runner e))
      | _ => none
    else none
  | .fire k =>
    let j := w.m.job k
    if k < w.m.count ∧ j.deadline = true then some
      ({ w with m := w.m.setJob k { j with deadline := false } }.addCaller
        { Caller.cancelled k .deadline "deadline" with pc := .expiring })
    else none
  | .call c e => w.stepCaller o c e
  | .reorder ids =>
    if ids.Perm w.m.jobs then some { w with m := { w.m with jobs := ids } } else none

end World

/-- From a manager just made, with no job and no call. -/
def manager (o : Options) : System World Event where
  init w := w = {}
  step := World.step o

end LocalBase.Video
