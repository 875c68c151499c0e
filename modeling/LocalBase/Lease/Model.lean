import Mathlib.Logic.Function.Basic
import LocalBase.Lib.Machine

/-!
# Root operations

A command that changes a root holds its operation lease, the directory
`<rootHash>.operation.lock` with an owner record in it. A second directory,
`<lease>.mutation`, serializes edits of that record: `withMutation` takes it by
renaming a candidate into place and removes it when its body is done. Both are
reclaimed from a dead owner the same way, by renaming the directory aside and
reading again what was moved.

The machine here is every process's file steps, one at a time, in any order. A
call is a place in the source, and one step is what it does there next, working
(`ok`) or not: a file operation that fails, a deadline that has passed, a
presence that cannot be told. Processes die between any two steps and are not
replaced under their pid, and the clock says what it likes.

A directory is modelled by its owner record, so it has three states: none,
there with its record, and there without one. The last is not an exotic state.
`AcquireOperation` makes the directory before it writes the record, and
`RemoveAll` deletes the record before the directory.

Tokens and ids are drawn at the step that first puts them in a file. A
candidate directory is seen by nobody else, so it has no place in the state.
-/

namespace LocalBase.Lease

def handoffTTL : Nat := 10000

structure Handoff where
  token : Nat
  expiresAt : Nat
  deriving DecidableEq

/-- The owner record of a lease; a handoff's token and time come together. -/
structure OperationOwner where
  operationID : Nat
  pid : Nat
  handoff : Option Handoff := none
  deriving DecidableEq

structure MutationOwner where
  token : Nat
  pid : Nat
  deriving DecidableEq

/-- A directory: none, or one with or without its owner record. -/
abbrev Dir (ρ : Type) := Option (Option ρ)

/-- `os.RemoveAll`, one entry at a time: what is left, and whether it is
done. -/
def removeStep {ρ : Type} : Dir ρ → Dir ρ × Bool
  | some (some _) => (some none, false)
  | some none => (none, true)
  | none => (none, true)

/-- Where a call is outside `withMutation`. -/
inductive Place
  | idle
  /-- At the head of `AcquireOperation`'s loop. -/
  | acquiring
  /-- At the head of `ServeInitialization`'s. -/
  | claiming (token : Nat)
  /-- It made the lock directory and has not written its record. -/
  | made
  /-- It could not, and removes the directory again. -/
  | undo
  /-- A `Lease`, between its calls. -/
  | held (id : Nat) (claimed : Bool)
  /-- `Release` without the mutation lock, before its look at the record and
  after it. -/
  | fallback (id : Nat) (mine : Bool)
  /-- `Release` could not read the record, and returned with nothing removed. -/
  | returned (id : Nat)
  deriving DecidableEq

/-- What a `withMutation` is for. -/
inductive Job
  | reclaim
  | handoff (id token : Nat)
  | release (id : Nat)
  | claim (token : Nat)
  deriving DecidableEq

/-- `withMutation`, before it runs its body. -/
inductive Taking
  | candidate
  | rename
  | look
  | presence (o : MutationOwner)
  /-- The rename of the mutation directory aside. -/
  | aside (token : Nat)
  | moved (token : Nat)
  | clear (token : Nat)
  | sleep
  deriving DecidableEq

/-- A body run under `withMutation`. -/
inductive Body
  | reclaim
  /-- `removeAbandonedLocked`: it reads the record itself, checks its owner,
  renames the lock directory aside, reads what it moved and removes it. -/
  | reread (id : Nat)
  | check (o : OperationOwner)
  | aside (id : Nat)
  | moved (id : Nat)
  | clear (id : Nat)
  | handoff (id token : Nat)
  /-- `Handoff` writes the record it read, with the token. -/
  | pass (token : Nat) (o : OperationOwner)
  | release (id : Nat)
  | remove (id : Nat)
  | claim (token : Nat)
  /-- `claimHandoff` writes a record of its own. -/
  | take
  deriving DecidableEq

inductive Pc
  | at (p : Place)
  | taking (job : Job) (ph : Taking)
  | inside (token : Nat) (b : Body)
  /-- The body returned; the deferred removal reads the record, then removes. -/
  | leaving (token : Nat) (removing : Bool) (next : Place)
  deriving DecidableEq

inductive Call
  | acquire
  | serve (token : Nat)
  | handoff (token : Nat)
  | release
  deriving DecidableEq

/-- The coordination directory and the calls at work in it. -/
structure Coordination where
  now : Nat := 0
  alive : Nat → Bool := fun _ => true
  /-- The process a call runs in. -/
  pid : Nat → Nat
  /-- The next token or id. -/
  minted : Nat := 0
  mutation : Dir MutationOwner := none
  /-- `<mutation>.<token>.abandoned`. -/
  mutationAside : Nat → Dir MutationOwner := fun _ => none
  lock : Dir OperationOwner := none
  /-- `<lock>.<operation id>.abandoned`. -/
  lockAside : Nat → Dir OperationOwner := fun _ => none
  pc : Nat → Pc := fun _ => .at .idle

def Job.body : Job → Body
  | .reclaim => .reclaim
  | .handoff id token => .handoff id token
  | .release id => .release id
  | .claim token => .claim token

/-- Where a call is once its `withMutation` returned an error of its own. -/
def Job.failed : Job → Place
  | .reclaim | .claim _ => .idle
  | .handoff id _ => .held id false
  | .release id => .fallback id false

namespace Coordination

def goto (s : Coordination) (c : Nat) (pc : Pc) : Coordination :=
  { s with pc := Function.update s.pc c pc }

/-! ## `withMutation` -/

def taking (s : Coordination) (c : Nat) (job : Job) (ok : Bool) :
    Taking → Coordination
  | .candidate =>
    s.goto c (if ok then .taking job .rename else .at job.failed)
  | .rename =>
    -- `os.Rename` refuses a name that is a directory already, empty or not.
    match ok, s.mutation with
    | false, _ => s.goto c (.at job.failed)
    | true, some _ => s.goto c (.taking job .look)
    | true, none =>
      { s with
        mutation := some (some { token := s.minted, pid := s.pid c })
        minted := s.minted + 1 }.goto c (.inside s.minted job.body)
  | .look =>
    match ok, s.mutation with
    | true, some (some o) => s.goto c (.taking job (.presence o))
    | _, _ => s.goto c (.taking job .sleep)
  | .presence o =>
    s.goto c (.taking job
      (if ok && !s.alive o.pid then .aside o.token else .sleep))
  | .aside token =>
    match ok, s.mutation, s.mutationAside token with
    | true, some d, none =>
      { s with
        mutation := none
        mutationAside := Function.update s.mutationAside token (some d) }.goto c
          (.taking job (.moved token))
    | _, _, _ => s.goto c (.taking job .sleep)
  | .moved token =>
    match ok, s.mutationAside token with
    | true, some (some o) =>
      s.goto c (.taking job (if o.token = token then .clear token else .sleep))
    | _, _ => s.goto c (.taking job .sleep)
  | .clear token =>
    let d := removeStep (s.mutationAside token)
    if ok then
      { s with mutationAside := Function.update s.mutationAside token d.1 }.goto c
        (.taking job (if d.2 then .candidate else .clear token))
    else s.goto c (.taking job .candidate)
  | .sleep =>
    s.goto c (if ok then .taking job .candidate else .at job.failed)

/-- The deferred removal of the mutation directory. -/
def leaving (s : Coordination) (c token : Nat) (next : Place) (ok : Bool) :
    Bool → Coordination
  | false =>
    match ok, s.mutation with
    | true, some (some o) =>
      s.goto c (if o.token = token then .leaving token true next else .at next)
    | _, _ => s.goto c (.at next)
  | true =>
    if ok then
      { s with mutation := (removeStep s.mutation).1 }.goto c
        (if (removeStep s.mutation).2 then .at next else .leaving token true next)
    else s.goto c (.at next)

/-! ## The bodies -/

def expired (s : Coordination) (h : Handoff) : Bool := decide (h.expiresAt ≤ s.now)

/-- A body's step. `removeAbandonedLocked` serves an acquire and a claim alike:
its error ends the call, and otherwise the call goes on to acquire. -/
def inside (s : Coordination) (c token : Nat) (ok : Bool) : Body → Coordination
  | .reclaim =>
    match ok, s.lock with
    | true, some (some o) => s.goto c (.inside token (.reread o.operationID))
    | _, _ => s.goto c (.leaving token false .acquiring)
  | .reread id =>
    match ok, s.lock with
    | true, some (some o) =>
      s.goto c (if o.operationID = id then .inside token (.check o)
        else .leaving token false .acquiring)
    | _, _ => s.goto c (.leaving token false .acquiring)
  | .check o =>
    let gone := match o.handoff with
      | some h => s.expired h
      | none => ok && !s.alive o.pid
    s.goto c (if gone then .inside token (.aside o.operationID)
      else .leaving token false .acquiring)
  | .aside id =>
    match ok, s.lock, s.lockAside id with
    | true, some d, none =>
      { s with
        lock := none
        lockAside := Function.update s.lockAside id (some d) }.goto c
          (.inside token (.moved id))
    | true, none, _ => s.goto c (.leaving token false .acquiring)
    | _, _, _ => s.goto c (.leaving token false .idle)
  | .moved id =>
    match ok, s.lockAside id with
    | true, some (some o) =>
      s.goto c (if o.operationID = id then .inside token (.clear id)
        else .leaving token false .idle)
    | _, _ => s.goto c (.leaving token false .idle)
  | .clear id =>
    let d := removeStep (s.lockAside id)
    if ok then
      { s with lockAside := Function.update s.lockAside id d.1 }.goto c
        (if d.2 then .leaving token false .acquiring
        else .inside token (.clear id))
    else s.goto c (.leaving token false .acquiring)
  | .handoff id t =>
    match ok, s.lock with
    | true, some (some o) =>
      s.goto c (if o.operationID = id ∧ o.handoff = none then
          .inside token (.pass t o)
        else .leaving token false (.held id false))
    | _, _ => s.goto c (.leaving token false (.held id false))
  | .pass t o =>
    match ok, s.lock with
    | true, some _ =>
      { s with lock := some (some { o with
          handoff := some { token := t, expiresAt := s.now + handoffTTL } }) }.goto c
            (.leaving token false .idle)
    | _, _ => s.goto c (.leaving token false (.held o.operationID false))
  | .release id =>
    match ok, s.lock with
    | true, some (some o) =>
      s.goto c (if o.operationID = id then .inside token (.remove id)
        else .leaving token false .idle)
    | _, _ => s.goto c (.leaving token false (.returned id))
  | .remove id =>
    if ok then
      { s with lock := (removeStep s.lock).1 }.goto c
        (if (removeStep s.lock).2 then .leaving token false .idle
        else .inside token (.remove id))
    else s.goto c (.leaving token false (.fallback id true))
  | .claim t =>
    match ok, s.lock with
    | true, none => s.goto c (.leaving token false .acquiring)
    | true, some (some o) =>
      match o.handoff with
      | none => s.goto c (.leaving token false (.claiming t))
      | some h =>
        s.goto c (if s.expired h then .inside token (.reread o.operationID)
          else if h.token = t then .inside token .take
          else .leaving token false (.claiming t))
    | _, _ => s.goto c (.leaving token false (.claiming t))
  | .take =>
    match ok, s.lock with
    | true, some _ =>
      { s with
        lock := some (some { operationID := s.minted, pid := s.pid c })
        minted := s.minted + 1 }.goto c
          (.leaving token false (.held s.minted true))
    | _, _ => s.goto c (.leaving token false .idle)

/-! ## Outside it -/

def outside (s : Coordination) (c : Nat) (ok : Bool) : Place → Option Coordination
  | .idle | .held _ _ | .returned _ => none
  | .acquiring =>
    match ok, s.lock with
    | false, _ => some (s.goto c (.at .idle))
    | true, none => some ({ s with lock := some none }.goto c (.at .made))
    | true, some _ => some (s.goto c (.taking .reclaim .candidate))
  | .claiming t =>
    match ok, s.lock with
    | false, _ => some (s.goto c (.at .idle))
    | true, none => some (s.goto c (.at .acquiring))
    | true, some _ => some (s.goto c (.taking (.claim t) .candidate))
  | .made =>
    match ok, s.lock with
    | true, some _ => some
        ({ s with
          lock := some (some { operationID := s.minted, pid := s.pid c })
          minted := s.minted + 1 }.goto c (.at (.held s.minted false)))
    | _, _ => some (s.goto c (.at .undo))
  | .undo =>
    if ok then some
      ({ s with lock := (removeStep s.lock).1 }.goto c
        (.at (if (removeStep s.lock).2 then .idle else .undo)))
    else some (s.goto c (.at .idle))
  | .fallback id false =>
    match ok, s.lock with
    | true, some (some o) => some
        (s.goto c (.at (if o.operationID = id then .fallback id true else .idle)))
    | _, _ => some (s.goto c (.at (.returned id)))
  | .fallback id true =>
    -- It keeps trying.
    if ok then some
      ({ s with lock := (removeStep s.lock).1 }.goto c
        (.at (if (removeStep s.lock).2 then .idle else .fallback id true)))
    else some (s.goto c (.at (.fallback id true)))

end Coordination

/-! ## The machine -/

inductive LeaseEvent
  | crash (p : Nat)
  | clock (now : Nat)
  | begin (c : Nat) (call : Call)
  | step (c : Nat) (ok : Bool)
  deriving DecidableEq

namespace Coordination

/-- A call begins: from nothing, or on a lease. -/
def begin (s : Coordination) (c : Nat) (call : Call) : Option Coordination :=
  match call, s.pc c with
  | .acquire, .at .idle => some (s.goto c (.at .acquiring))
  | .serve t, .at .idle => some (s.goto c (.at (.claiming t)))
  | .handoff _, .at (.held _ true) => some s
  | .handoff t, .at (.held id false) =>
    some (s.goto c (.taking (.handoff id t) .candidate))
  | .release, .at (.held id _) => some (s.goto c (.taking (.release id) .candidate))
  | _, _ => none

/-- What call `c` does next. -/
def act (s : Coordination) (c : Nat) (ok : Bool) : Option Coordination :=
  match s.pc c with
  | .at p => s.outside c ok p
  | .taking job ph => some (s.taking c job ok ph)
  | .inside token b => some (s.inside c token ok b)
  | .leaving token removing next => some (s.leaving c token next ok removing)

def step (s : Coordination) : LeaseEvent → Option Coordination
  | .crash p => some { s with alive := Function.update s.alive p false }
  | .clock now => some { s with now := now }
  | .begin c call => if s.alive (s.pid c) then s.begin c call else none
  | .step c ok => if s.alive (s.pid c) then s.act c ok else none

end Coordination

/-- A root nobody has coordinated yet, with the calls spread over any
processes. A pid that names no process is dead from the start. -/
def lease : Machine.System Coordination LeaseEvent where
  init s := ∃ pid alive, s = { pid := pid, alive := alive }
  step := Coordination.step

/-- What happened in a step: the event, and for a call's step the function of
the source that it is a step of. -/
inductive Happens (s : Coordination) : LeaseEvent → Coordination → Prop
  | crash (p : Nat) :
      Happens s (.crash p) { s with alive := Function.update s.alive p false }
  | clock (now : Nat) : Happens s (.clock now) { s with now := now }
  | begin {c : Nat} {call : Call} {t : Coordination} :
      s.alive (s.pid c) = true → s.begin c call = some t → Happens s (.begin c call) t
  | outside {c : Nat} {ok : Bool} {p : Place} {t : Coordination} :
      s.alive (s.pid c) = true → s.pc c = .at p → s.outside c ok p = some t →
      Happens s (.step c ok) t
  | taking {c : Nat} {ok : Bool} {job : Job} {ph : Taking} :
      s.alive (s.pid c) = true → s.pc c = .taking job ph →
      Happens s (.step c ok) (s.taking c job ok ph)
  | inside {c token : Nat} {ok : Bool} {b : Body} :
      s.alive (s.pid c) = true → s.pc c = .inside token b →
      Happens s (.step c ok) (s.inside c token ok b)
  | leaving {c token : Nat} {ok removing : Bool} {next : Place} :
      s.alive (s.pid c) = true → s.pc c = .leaving token removing next →
      Happens s (.step c ok) (s.leaving c token next ok removing)

theorem happens {s t : Coordination} {e : LeaseEvent}
    (he : lease.step s e = some t) : Happens s e t := by
  cases e with
  | crash p =>
    cases he
    exact .crash p
  | clock now =>
    cases he
    exact .clock now
  | begin c call =>
    simp only [lease, Coordination.step] at he
    split at he
    · next hc => exact .begin hc he
    · cases he
  | step c ok =>
    simp only [lease, Coordination.step] at he
    split at he
    · next hc =>
      unfold Coordination.act at he
      split at he
      · next hpc => exact .outside hc hpc he
      · next hpc =>
        cases he
        exact .taking hc hpc
      · next hpc =>
        cases he
        exact .inside hc hpc
      · next hpc =>
        cases he
        exact .leaving hc hpc
    · cases he

/-! ## What a step leaves alone -/

namespace Coordination

variable {s t : Coordination} {c : Nat}

@[simp] theorem goto_now (pc : Pc) : (s.goto c pc).now = s.now := rfl
@[simp] theorem goto_alive (pc : Pc) : (s.goto c pc).alive = s.alive := rfl
@[simp] theorem goto_pid (pc : Pc) : (s.goto c pc).pid = s.pid := rfl
@[simp] theorem goto_minted (pc : Pc) : (s.goto c pc).minted = s.minted := rfl
@[simp] theorem goto_mutation (pc : Pc) : (s.goto c pc).mutation = s.mutation := rfl
@[simp] theorem goto_mutationAside (pc : Pc) :
    (s.goto c pc).mutationAside = s.mutationAside := rfl
@[simp] theorem goto_lock (pc : Pc) : (s.goto c pc).lock = s.lock := rfl
@[simp] theorem goto_lockAside (pc : Pc) :
    (s.goto c pc).lockAside = s.lockAside := rfl
@[simp] theorem goto_pc (pc : Pc) :
    (s.goto c pc).pc = Function.update s.pc c pc := rfl

/-- One step of call `c`: the world and the other calls are as they were. -/
structure Turn (s t : Coordination) (c : Nat) : Prop where
  now : t.now = s.now
  alive : t.alive = s.alive
  pid : t.pid = s.pid
  minted : s.minted ≤ t.minted
  pc : t.pc = Function.update s.pc c (t.pc c)

theorem goto_turn (pc : Pc) : Turn s (s.goto c pc) c :=
  ⟨rfl, rfl, rfl, Nat.le_refl _, by simp⟩

theorem Turn.of_goto {u : Coordination} {pc : Pc} (h : t = u.goto c pc)
    (hnow : u.now = s.now) (halive : u.alive = s.alive) (hpid : u.pid = s.pid)
    (hminted : s.minted ≤ u.minted) (hpc : u.pc = s.pc) : Turn s t c := by
  subst h
  exact ⟨hnow, halive, hpid, hminted, by simp [hpc]⟩

theorem Turn.other (h : Turn s t c) {d : Nat} (hd : d ≠ c) : t.pc d = s.pc d := by
  rw [h.pc, Function.update_of_ne hd]

theorem taking_turn (job : Job) (ok : Bool) (ph : Taking) :
    Turn s (s.taking c job ok ph) c := by
  cases ph <;> simp only [taking] <;> repeat' split
  all_goals
    first
    | exact goto_turn _
    | exact Turn.of_goto rfl rfl rfl rfl (by simp) rfl

theorem leaving_turn (token : Nat) (next : Place) (ok removing : Bool) :
    Turn s (s.leaving c token next ok removing) c := by
  cases removing <;> simp only [leaving] <;> repeat' split
  all_goals
    first
    | exact goto_turn _
    | exact Turn.of_goto rfl rfl rfl rfl (by simp) rfl

theorem inside_turn (token : Nat) (ok : Bool) (b : Body) :
    Turn s (s.inside c token ok b) c := by
  cases b <;> simp only [inside] <;> repeat' split
  all_goals
    first
    | exact goto_turn _
    | exact Turn.of_goto rfl rfl rfl rfl (by simp) rfl

theorem outside_turn {ok : Bool} {p : Place} (h : s.outside c ok p = some t) :
    Turn s t c := by
  cases p with
  | idle => cases h
  | held _ _ => cases h
  | returned _ => cases h
  | acquiring | claiming | made | undo =>
    simp only [outside] at h
    repeat' split at h
    all_goals
      cases h
      first
      | exact goto_turn _
      | exact Turn.of_goto rfl rfl rfl rfl (by simp) rfl
  | fallback id mine =>
    cases mine <;> simp only [outside] at h <;> repeat' split at h
    all_goals
      cases h
      first
      | exact goto_turn _
      | exact Turn.of_goto rfl rfl rfl rfl (by simp) rfl

theorem begin_eq {call : Call} (h : s.begin c call = some t) :
    ∃ pc, t = s.goto c pc := by
  unfold begin at h
  split at h
  · cases h
    exact ⟨_, rfl⟩
  · cases h
    exact ⟨_, rfl⟩
  · next hpc =>
    cases h
    exact ⟨s.pc c, by simp [goto]⟩
  · cases h
    exact ⟨_, rfl⟩
  · cases h
    exact ⟨_, rfl⟩
  · cases h

theorem begin_pc {call : Call} (h : s.begin c call = some t) :
    (∃ p, t.pc c = .at p) ∨ ∃ job, t.pc c = .taking job .candidate := by
  unfold begin at h
  split at h <;> cases h
  all_goals simp [*]

/-! `withMutation` touches the mutation directory only, its bodies and the
calls outside it the lock only. -/

theorem taking_lock (job : Job) (ok : Bool) (ph : Taking) :
    (s.taking c job ok ph).lock = s.lock ∧
      (s.taking c job ok ph).lockAside = s.lockAside := by
  cases ph <;> simp only [taking] <;> repeat' split
  all_goals exact ⟨rfl, rfl⟩

theorem leaving_lock (token : Nat) (next : Place) (ok removing : Bool) :
    (s.leaving c token next ok removing).lock = s.lock ∧
      (s.leaving c token next ok removing).lockAside = s.lockAside := by
  cases removing <;> simp only [leaving] <;> repeat' split
  all_goals exact ⟨rfl, rfl⟩

theorem inside_mutation (token : Nat) (ok : Bool) (b : Body) :
    (s.inside c token ok b).mutation = s.mutation ∧
      (s.inside c token ok b).mutationAside = s.mutationAside := by
  cases b <;> simp only [inside] <;> repeat' split
  all_goals exact ⟨rfl, rfl⟩

theorem outside_mutation {ok : Bool} {p : Place} (h : s.outside c ok p = some t) :
    t.mutation = s.mutation ∧ t.mutationAside = s.mutationAside := by
  cases p with
  | idle => cases h
  | held _ _ => cases h
  | returned _ => cases h
  | acquiring | claiming | made | undo =>
    simp only [outside] at h
    repeat' split at h
    all_goals
      cases h
      exact ⟨rfl, rfl⟩
  | fallback id mine =>
    cases mine <;> simp only [outside] at h <;> repeat' split at h
    all_goals
      cases h
      exact ⟨rfl, rfl⟩

/-! Where a step of each kind can leave its call. -/

theorem taking_pc (job : Job) (ok : Bool) (ph : Taking) :
    (∃ ph', (s.taking c job ok ph).pc c = .taking job ph') ∨
      (s.taking c job ok ph).pc c = .at job.failed ∨
      ∃ token, (s.taking c job ok ph).pc c = .inside token job.body := by
  cases ph <;> simp only [taking] <;> repeat' split
  all_goals simp

theorem leaving_pc (token : Nat) (next : Place) (ok removing : Bool) :
    (s.leaving c token next ok removing).pc c = .at next ∨
      (s.leaving c token next ok removing).pc c = .leaving token true next := by
  cases removing <;> simp only [leaving] <;> repeat' split
  all_goals simp

theorem inside_pc (token : Nat) (ok : Bool) (b : Body) :
    (∃ b', (s.inside c token ok b).pc c = .inside token b') ∨
      ∃ next, (s.inside c token ok b).pc c = .leaving token false next := by
  cases b <;> simp only [inside] <;> repeat' split
  all_goals simp

theorem outside_pc {ok : Bool} {p : Place} (h : s.outside c ok p = some t) :
    (∃ p', t.pc c = .at p') ∨ ∃ job, t.pc c = .taking job .candidate := by
  cases p with
  | idle => cases h
  | held _ _ => cases h
  | returned _ => cases h
  | acquiring | claiming | made | undo =>
    simp only [outside] at h
    repeat' split at h
    all_goals
      cases h
      simp
  | fallback id mine =>
    cases mine <;> simp only [outside] at h <;> repeat' split at h
    all_goals
      cases h
      simp

end Coordination

end LocalBase.Lease
