import LocalBase.Runs.Run

/-!
# The two goroutines of a run

`create` accounts for the request's body, publishes the run and waits until
the inner request has either reached the queue or returned. The inner request
runs the real `/v1` handler against a `runWriter`, calls the run's hooks, and
is settled by `finish` once it has returned.

A `Call` is a run with both of them: where each stands, between its sections
under the run's lock and its additions to the manager's counter, and the
writer's own state. `step` plays one such section, or one addition, and
answers by how much the counter moves. What the sections under the manager's
lock decide is in `Runs.Manager`.
-/

namespace LocalBase.Runs

open StructuredOutput (Object)

/-- The answer of a `create` that made no run. -/
inductive Refusal
  | unavailable | tooManyRuns
  deriving DecidableEq

inductive CreatePc
  | idle
  /-- Past the first look at how many runs are active; reads the body. -/
  | reading
  /-- The body passed the total limit and is counted. -/
  | exceeding (size : Int)
  /-- It is given back; `memoryFullError` is next. -/
  | full
  /-- Before the section that publishes the run. -/
  | sized (size : Int)
  | ended (e : RunError)
  /-- Refused in that section; the body is still counted. -/
  | refusing (size : Int) (why : Refusal)
  | refused (why : Refusal)
  /-- Published, waits for `ready`. -/
  | waiting
  /-- Refused before the queue: the run is forgotten, then released. -/
  | forgetting
  | releasing
  | forgotten
  | answered

/-- The run has been put into the map. -/
def CreatePc.published : CreatePc → Bool
  | .waiting | .forgetting | .releasing | .forgotten | .answered => true
  | _ => false

inductive InnerPc
  /-- There is no inner request. -/
  | none
  | running
  | returned
  /-- `finish` has given the body back and reads `memoryFullError` next. -/
  | gaveBody
  | settling (fullError : Option RunError)
  /-- Deleted before it ended: what it holds is given back once more. -/
  | releasing
  | settled

inductive WriterPc
  | idle
  /-- In `event`, with the run's lock: a chunk is counted in the total. -/
  | charging (payload : Bytes) (obj : Object) (n : Int) (past : Bool)
  /-- In `Write`: the bytes of a body are counted in the total. -/
  | added (b : Bytes)
  | exceeding (b : Bytes)
  | stopping (reason : Reason)

/-- The `runWriter`. -/
structure Writer where
  /-- The header's media type is `text/event-stream`. -/
  eventStream : Bool := false
  status : Nat := 0
  sse : Bool := false
  buf : Bytes := []
  body : Bytes := []
  pc : WriterPc := .idle

structure Call where
  create : CreatePc := .idle
  inner : InnerPc := .none
  writer : Writer := {}
  run : Run := {}

/-- Who stops a run from outside: its owner, its timer or the shutdown. -/
inductive StopCause
  | stopped | maxDuration | gatewayRestart
  deriving DecidableEq

def StopCause.status : StopCause → Status
  | .stopped => .cancelled
  | .maxDuration | .gatewayRestart => .interrupted

def StopCause.reason : StopCause → Reason
  | .stopped => .stopped
  | .maxDuration => .maxDuration
  | .gatewayRestart => .gatewayRestart

inductive CallEvent
  /-- `create` has read the body. -/
  | charge (size now : Nat)
  | giveBack
  /-- `memoryFullError`, in `create` or in `finish`. -/
  | memoryFullError
  | answer
  | queued
  | admitted (now : Nat)
  | finished (source : String)
  /-- The handler sets its content type. -/
  | header (eventStream : Bool)
  | writeHeader (code : Nat)
  | write (b : Bytes)
  | wrote
  /-- The next complete block of the buffer. -/
  | event
  | charged
  | returned
  | finishBody
  | finish (now : Nat)
  | finishRelease
  | stop (cause : StopCause)

namespace Call

/-- `event` holds the run's lock between its two additions. -/
def locked (c : Call) : Bool :=
  match c.writer.pc with
  | .charging .. => true
  | _ => false

/-- The inner request is in the handler's hands, with no `Write` going on. -/
def handling (c : Call) : Bool :=
  match c.inner, c.writer.pc with
  | .running, .idle => true
  | _, _ => false

/-- `Write` has no complete block left. -/
def drained (c : Call) : Bool := (nextBlock c.writer.buf).isNone

/-- `ready` is closed by the queue, or once `finish` is through. -/
def ready (c : Call) : Bool :=
  c.run.queuedSeen || match c.inner with
    | .settled => true
    | _ => false

def Writer.writeHeader (w : Writer) (target : Target) (code : Nat) : Writer :=
  if w.status ≠ 0 then w
  else
    { w with
      status := code
      sse := target = .chat && decide (200 ≤ code) && decide (code < 300) && w.eventStream }

/-- The header a first `Write` answers with. -/
def Writer.started (w : Writer) (target : Target) : Writer :=
  if w.status = 0 then Writer.writeHeader w target 200 else w

/-- `Write`, up to its first addition to the counter. -/
def write (cfg : Config) (held : Int) (c : Call) (b : Bytes) : Call × Int :=
  let w := Writer.started c.writer c.run.target
  if w.sse then ({ c with writer := { w with buf := w.buf ++ b } }, 0)
  else if cfg.maxResult < w.body.length + b.length then
    ({ c with writer := { w with pc := .stopping .outputLimit } }, 0)
  else if cfg.maxHeldTotal < held + b.length then
    ({ c with writer := { w with pc := .exceeding b } }, b.length)
  else ({ c with writer := { w with pc := .added b } }, b.length)

/-- What a retained chunk counts for: once as an event and once folded into
the output, which can't grow by more than it. -/
def chunkHeld (payload : Bytes) : Int := 2 * payload.length + runEventHeldFor

/-- `event` on one block, up to the addition `charge` makes to the counter. -/
def event (cfg : Config) (held : Int) (c : Call) (block : Bytes) : Call × Int :=
  match cfg.relayed block with
  | .nothing => (c, 0)
  | .error payload e =>
    let r := { c.run with error := some (.relayed e), held := c.run.held + payload.length }
    ({ c with run := r.emit (.error payload) }, payload.length)
  | .chunk payload obj =>
    let r := { c.run with
      relayed := c.run.relayed ++ [payload], bytes := c.run.bytes + payload.length }
    let n := chunkHeld payload
    if cfg.maxOutput < r.bytes then ({ c with run := r.stopChunk .outputLimit }, 0)
    else if cfg.maxHeld < r.held + n then ({ c with run := r.stopChunk .outputLimit }, 0)
    else
      ({ c with
          run := r
          writer := { c.writer with
            pc := .charging payload obj n (decide (cfg.maxHeldTotal < held + n)) } }, n)

structure Outcome where
  status : Status
  reason : Option Reason := none
  error : Option RunError
  result : Option Bytes

def outcome (cfg : Config) (c : Call) (fullError : Option RunError) : Outcome :=
  let r := c.run
  let w := c.writer
  match r.stopStatus with
  | some status =>
    { status := status, reason := r.stopReason, error := fullError.or r.error
      result := r.result }
  | none =>
    if r.source = "memory_emergency" then
      { status := .interrupted, reason := some .memoryPressure, error := r.error
        result := r.result }
    else if r.error.isSome then { status := .failed, error := r.error, result := r.result }
    else if r.target ≠ .chat ∧ 200 ≤ w.status ∧ w.status < 300 then
      { status := .completed, error := r.error
        result := if w.body = [] then none else some w.body }
    else if 400 ≤ w.status ∨ w.sse = false then
      { status := .failed
        error := some (((cfg.envelope w.body).map RunError.relayed).getD .upstream)
        result := r.result }
    else { status := .completed, error := r.error, result := r.result }

/-- The bytes of a body that is not the result: the error was taken from it. -/
def unkept (cfg : Config) (c : Call) (fullError : Option RunError) : Int :=
  if (c.outcome cfg fullError).result = none then c.writer.body.length else 0

/-- The run as `finish` leaves it. -/
def ended (cfg : Config) (c : Call) (fullError : Option RunError) (now : Nat) : Run :=
  let o := c.outcome cfg fullError
  let r := { c.run with
    error := o.error, result := o.result, held := c.run.held - c.unkept cfg fullError }
  r.finishAt o.status o.reason now cfg.retention

/-- The second section of `finish`. -/
def finish (cfg : Config) (c : Call) (fullError : Option RunError) (now : Nat) : Call × Int :=
  if c.run.queuedSeen = false then
    -- `create` forgets it; a DELETE may be waiting for it.
    ({ c with inner := .settled, run := { c.run with done := c.run.done + 1 } }, 0)
  else
    ({ c with
        run := c.ended cfg fullError now
        inner := if c.run.dismissed then .releasing else .settled }, -c.unkept cfg fullError)

/-- One section of the run, and the change of the counter; `full` is what
`memoryFullError` answers now. -/
def step (cfg : Config) (held : Int) (full : RunError) (c : Call) :
    CallEvent → Option (Call × Int)
  | .charge size now =>
    match c.create with
    | .reading => some
        ({ c with
            run := { c.run with createdAt := now }
            create :=
              if cfg.maxHeldTotal < held + size then .exceeding size else .sized size }, size)
    | _ => none
  | .giveBack =>
    match c.create with
    | .exceeding size => some ({ c with create := .full }, -size)
    | .refusing size why => some ({ c with create := .refused why }, -size)
    | _ => none
  | .memoryFullError =>
    match c.create, c.inner with
    | .full, _ => some ({ c with create := .ended full }, 0)
    | _, .gaveBody => some ({ c with inner := .settling (some full) }, 0)
    | _, _ => none
  | .answer =>
    match c.create with
    | .waiting =>
      if c.ready && !c.locked then
        some ({ c with create := if c.run.queuedSeen then .answered else .forgetting }, 0)
      else none
    | _ => none
  | .queued =>
    if c.handling then
      some ({ c with run := { c.run with queuedSeen := true }.setStatus .queued none }, 0)
    else none
  | .admitted now =>
    if c.handling then
      some ({ c with run := { c.run with startedAt := some now }.setStatus .inProgress none }, 0)
    else none
  | .finished source =>
    if c.handling then some ({ c with run := { c.run with source := source } }, 0) else none
  | .header eventStream =>
    if c.handling then some ({ c with writer := { c.writer with eventStream := eventStream } }, 0)
    else none
  | .writeHeader code =>
    if c.handling then
      some ({ c with writer := Writer.writeHeader c.writer c.run.target code }, 0)
    else none
  | .write b =>
    if c.handling && c.drained then some (c.write cfg held b) else none
  | .wrote =>
    match c.writer.pc with
    | .added b => some
        ({ c with
            run := { c.run with held := c.run.held + b.length }
            writer := { c.writer with body := c.writer.body ++ b, pc := .idle } }, 0)
    | .exceeding b => some
        ({ c with writer := { c.writer with pc := .stopping .memoryLimit } }, -b.length)
    | .stopping reason => some
        ({ c with
            run := c.run.stop .failed reason
            writer := { c.writer with pc := .idle } }, 0)
    | _ => none
  | .event =>
    if c.handling then
      match nextBlock c.writer.buf with
      | some (block, rest) =>
        some ({ c with writer := { c.writer with buf := rest } }.event cfg held block)
      | none => none
    else none
  | .charged =>
    match c.writer.pc with
    | .charging payload obj n past =>
      if past then some
        ({ c with
            run := c.run.stopChunk .memoryLimit
            writer := { c.writer with pc := .idle } }, -n)
      else some
        ({ c with
            run := { c.run with
              held := c.run.held + n, output := c.run.output.add obj }.emit (.chunk payload)
            writer := { c.writer with pc := .idle } }, 0)
    | _ => none
  | .returned =>
    if c.handling && c.drained then some ({ c with inner := .returned }, 0) else none
  | .finishBody =>
    match c.inner with
    | .returned => some
        ({ c with
            run := { c.run with body := 0 }
            inner := if c.run.stopReason = some .memoryLimit then .gaveBody
              else .settling none }, -c.run.body)
    | _ => none
  | .finish now =>
    match c.inner with
    | .settling fullError => some (c.finish cfg fullError now)
    | _ => none
  | .finishRelease =>
    match c.inner with
    | .releasing => some
        ({ c with run := c.run.release, inner := .settled }, -(c.run.held + c.run.body))
    | _ => none
  | .stop cause =>
    if c.locked then none
    else some ({ c with run := c.run.stop cause.status cause.reason }, 0)

/-! ## What a section can do -/

/-- The inner request has the writer to itself. -/
structure Handling (c : Call) : Prop where
  inner : c.inner = .running
  pc : c.writer.pc = .idle

theorem handling_iff {c : Call} : c.handling = true ↔ c.Handling := by
  unfold handling
  constructor
  · intro h
    split at h
    · next hi hp => exact ⟨hi, hp⟩
    · cases h
  · rintro ⟨hi, hp⟩
    rw [hi, hp]

/-- Every branch of `step`, with what it asks for, what it makes of the call
and what it adds to the counter. -/
inductive Section (cfg : Config) (held : Int) : CallEvent → Call → Call → Int → Prop
  | charge {c : Call} {size now : Nat} {pc : CreatePc} : c.create = .reading →
      pc = .exceeding size ∨ pc = .sized size →
      Section cfg held (.charge size now) c
        { c with run := { c.run with createdAt := now }, create := pc } size
  | unsized {c : Call} {size : Int} : c.create = .exceeding size →
      Section cfg held .giveBack c { c with create := .full } (-size)
  | refused {c : Call} {size : Int} {why : Refusal} : c.create = .refusing size why →
      Section cfg held .giveBack c { c with create := .refused why } (-size)
  | full {c : Call} {e : RunError} : c.create = .full →
      Section cfg held .memoryFullError c { c with create := .ended e } 0
  | gaveBody {c : Call} {e : RunError} : c.inner = .gaveBody →
      Section cfg held .memoryFullError c { c with inner := .settling (some e) } 0
  | answer {c : Call} : c.create = .waiting → c.run.queuedSeen = true →
      Section cfg held .answer c { c with create := .answered } 0
  | refuse {c : Call} : c.create = .waiting → c.run.queuedSeen = false → c.inner = .settled →
      Section cfg held .answer c { c with create := .forgetting } 0
  | queued {c : Call} : c.Handling →
      Section cfg held .queued c
        { c with run := { c.run with queuedSeen := true }.setStatus .queued none } 0
  | admitted {c : Call} {now : Nat} : c.Handling →
      Section cfg held (.admitted now) c
        { c with run := { c.run with startedAt := some now }.setStatus .inProgress none } 0
  | finished {c : Call} {source : String} : c.Handling →
      Section cfg held (.finished source) c { c with run := { c.run with source := source } } 0
  | writer {c : Call} {e : CallEvent} {w : Writer} : c.Handling →
      w.body = c.writer.body → (w.pc = .idle ∨ w.pc = .stopping .outputLimit) →
      Section cfg held e c { c with writer := w } 0
  | body {c : Call} {b : Bytes} {w : Writer} : c.Handling →
      w.body = c.writer.body → (w.pc = .added b ∨ w.pc = .exceeding b) →
      Section cfg held (.write b) c { c with writer := w } b.length
  | added {c : Call} {b : Bytes} : c.writer.pc = .added b →
      Section cfg held .wrote c
        { c with
          run := { c.run with held := c.run.held + b.length }
          writer := { c.writer with body := c.writer.body ++ b, pc := .idle } } 0
  | exceeding {c : Call} {b : Bytes} : c.writer.pc = .exceeding b →
      Section cfg held .wrote c
        { c with writer := { c.writer with pc := .stopping .memoryLimit } } (-b.length)
  | stopping {c : Call} {reason : Reason} : c.writer.pc = .stopping reason →
      Section cfg held .wrote c
        { c with run := c.run.stop .failed reason, writer := { c.writer with pc := .idle } } 0
  | error {c : Call} {rest payload : Bytes} {e : Object} : c.Handling →
      Section cfg held .event c
        { c with
          writer := { c.writer with buf := rest }
          run := { c.run with
            error := some (.relayed e), held := c.run.held + payload.length }.emit
              (.error payload) } payload.length
  | past {c : Call} {block rest payload : Bytes} {obj : Object} : c.Handling →
      nextBlock c.writer.buf = some (block, rest) → cfg.relayed block = .chunk payload obj →
      cfg.maxOutput < c.run.bytes + payload.length ∨
        cfg.maxHeld < c.run.held + chunkHeld payload →
      Section cfg held .event c
        { c with
          writer := { c.writer with buf := rest }
          run := { c.run with
            relayed := c.run.relayed ++ [payload]
            bytes := c.run.bytes + payload.length }.stopChunk .outputLimit } 0
  | charging {c : Call} {block rest payload : Bytes} {obj : Object} : c.Handling →
      nextBlock c.writer.buf = some (block, rest) → cfg.relayed block = .chunk payload obj →
      ¬ cfg.maxOutput < c.run.bytes + payload.length →
      ¬ cfg.maxHeld < c.run.held + chunkHeld payload →
      Section cfg held .event c
        { c with
          run := { c.run with
            relayed := c.run.relayed ++ [payload]
            bytes := c.run.bytes + payload.length }
          writer := { c.writer with
            buf := rest
            pc := .charging payload obj (chunkHeld payload)
              (decide (cfg.maxHeldTotal < held + chunkHeld payload)) } } (chunkHeld payload)
  | uncharged {c : Call} {payload : Bytes} {obj : Object} {n : Int} :
      c.writer.pc = .charging payload obj n true →
      Section cfg held .charged c
        { c with
          run := c.run.stopChunk .memoryLimit
          writer := { c.writer with pc := .idle } } (-n)
  | charged {c : Call} {payload : Bytes} {obj : Object} {n : Int} :
      c.writer.pc = .charging payload obj n false →
      Section cfg held .charged c
        { c with
          run := { c.run with
            held := c.run.held + n, output := c.run.output.add obj }.emit (.chunk payload)
          writer := { c.writer with pc := .idle } } 0
  | returned {c : Call} : c.Handling → Section cfg held .returned c { c with inner := .returned } 0
  | finishBody {c : Call} {inner : InnerPc} : c.inner = .returned →
      inner = .gaveBody ∨ inner = .settling none →
      Section cfg held .finishBody c
        { c with run := { c.run with body := 0 }, inner := inner } (-c.run.body)
  | unseen {c : Call} {fullError : Option RunError} {now : Nat} :
      c.inner = .settling fullError → c.run.queuedSeen = false →
      Section cfg held (.finish now) c
        { c with inner := .settled, run := { c.run with done := c.run.done + 1 } } 0
  | ended {c : Call} {fullError : Option RunError} {now : Nat} {inner : InnerPc} :
      c.inner = .settling fullError → c.run.queuedSeen = true →
      c.run.dismissed = true ∧ inner = .releasing ∨
        c.run.dismissed = false ∧ inner = .settled →
      Section cfg held (.finish now) c
        { c with run := c.ended cfg fullError now, inner := inner } (-c.unkept cfg fullError)
  | finishRelease {c : Call} : c.inner = .releasing →
      Section cfg held .finishRelease c
        { c with run := c.run.release, inner := .settled } (-(c.run.held + c.run.body))
  | stop {c : Call} {cause : StopCause} :
      Section cfg held (.stop cause) c
        { c with run := c.run.stop cause.status cause.reason } 0

theorem writeHeader_body {w : Writer} {target : Target} {code : Nat} :
    (Writer.writeHeader w target code).body = w.body := by
  unfold Writer.writeHeader
  split <;> rfl

theorem writeHeader_pc {w : Writer} {target : Target} {code : Nat} :
    (Writer.writeHeader w target code).pc = w.pc := by
  unfold Writer.writeHeader
  split <;> rfl

variable {cfg : Config} {held n : Int} {full : RunError} {c c' : Call}

theorem section_write {b : Bytes} (hh : c.Handling) :
    Section cfg held (.write b) c (c.write cfg held b).1 (c.write cfg held b).2 := by
  have hbody : (Writer.started c.writer c.run.target).body = c.writer.body := by
    unfold Writer.started
    split
    · exact writeHeader_body
    · rfl
  have hpc : (Writer.started c.writer c.run.target).pc = .idle := by
    unfold Writer.started
    split
    · exact writeHeader_pc.trans hh.pc
    · exact hh.pc
  unfold write
  simp only []
  split
  · exact .writer hh hbody (Or.inl hpc)
  · split
    · exact .writer hh hbody (Or.inr rfl)
    · split
      · exact .body hh hbody (Or.inr rfl)
      · exact .body hh hbody (Or.inl rfl)

theorem section_event {block rest : Bytes} (hh : c.Handling)
    (hb : nextBlock c.writer.buf = some (block, rest)) :
    Section cfg held .event c
      ({ c with writer := { c.writer with buf := rest } }.event cfg held block).1
      ({ c with writer := { c.writer with buf := rest } }.event cfg held block).2 := by
  unfold event
  split
  · exact .writer hh rfl (Or.inl hh.pc)
  · exact .error hh
  · next payload obj hr =>
    simp only []
    split
    · next hpast => exact .past hh hb hr (Or.inl hpast)
    · next hroom =>
      split
      · next hpast => exact .past hh hb hr (Or.inr hpast)
      · next hroom' => exact .charging hh hb hr hroom hroom'

theorem section_finish {fullError : Option RunError} {now : Nat}
    (hi : c.inner = .settling fullError) :
    Section cfg held (.finish now) c (c.finish cfg fullError now).1
      (c.finish cfg fullError now).2 := by
  unfold finish
  split
  · next hq => exact .unseen hi hq
  · next hq =>
    refine .ended hi (Bool.not_eq_false _ ▸ hq) ?_
    split
    · next hd => exact Or.inl ⟨hd, rfl⟩
    · next hd => exact Or.inr ⟨Bool.not_eq_true _ ▸ hd, rfl⟩

theorem section_of_step {e : CallEvent} (hs : c.step cfg held full e = some (c', n)) :
    Section cfg held e c c' n := by
  cases e with
  | charge size now =>
    simp only [step] at hs
    split at hs
    · next hc =>
      cases hs
      refine .charge hc ?_
      split
      · exact Or.inl rfl
      · exact Or.inr rfl
    · cases hs
  | giveBack =>
    simp only [step] at hs
    split at hs
    · next hc =>
      cases hs
      exact .unsized hc
    · next hc =>
      cases hs
      exact .refused hc
    · cases hs
  | memoryFullError =>
    simp only [step] at hs
    split at hs
    · next hc =>
      cases hs
      exact .full hc
    · next hi _ =>
      cases hs
      exact .gaveBody hi
    · cases hs
  | answer =>
    simp only [step] at hs
    split at hs
    · next hc =>
      split at hs
      · next hready =>
        cases hs
        cases hq : c.run.queuedSeen with
        | true => exact .answer hc hq
        | false =>
          refine .refuse hc hq ?_
          unfold ready at hready
          rw [hq, Bool.false_or, Bool.and_eq_true] at hready
          have hsettled := hready.1
          split at hsettled
          · assumption
          · cases hsettled
      · cases hs
    · cases hs
  | queued =>
    simp only [step] at hs
    split at hs
    · next hh =>
      cases hs
      exact .queued (handling_iff.mp hh)
    · cases hs
  | admitted now =>
    simp only [step] at hs
    split at hs
    · next hh =>
      cases hs
      exact .admitted (handling_iff.mp hh)
    · cases hs
  | finished source =>
    simp only [step] at hs
    split at hs
    · next hh =>
      cases hs
      exact .finished (handling_iff.mp hh)
    · cases hs
  | header eventStream =>
    simp only [step] at hs
    split at hs
    · next hh =>
      cases hs
      exact .writer (handling_iff.mp hh) rfl (Or.inl (handling_iff.mp hh).pc)
    · cases hs
  | writeHeader code =>
    simp only [step] at hs
    split at hs
    · next hh =>
      cases hs
      have hh := handling_iff.mp hh
      exact .writer hh writeHeader_body (Or.inl (writeHeader_pc.trans hh.pc))
    · cases hs
  | write b =>
    simp only [step] at hs
    split at hs
    · next hh =>
      have hsec : Section cfg held (.write b) c _ _ :=
        section_write (handling_iff.mp (Bool.and_eq_true_iff.mp hh).1)
      rw [Option.some.inj hs] at hsec
      exact hsec
    · cases hs
  | wrote =>
    simp only [step] at hs
    split at hs
    · next hp =>
      cases hs
      exact .added hp
    · next hp =>
      cases hs
      exact .exceeding hp
    · next hp =>
      cases hs
      exact .stopping hp
    · cases hs
  | event =>
    simp only [step] at hs
    split at hs
    · next hh =>
      split at hs
      · next hb =>
        have hsec : Section cfg held .event c _ _ := section_event (handling_iff.mp hh) hb
        rw [Option.some.inj hs] at hsec
        exact hsec
      · cases hs
    · cases hs
  | charged =>
    simp only [step] at hs
    split at hs
    · next payload obj n past hp =>
      split at hs
      · next ho =>
        cases hs
        subst ho
        exact .uncharged hp
      · next ho =>
        cases hs
        rw [Bool.not_eq_true] at ho
        subst ho
        exact .charged hp
    · cases hs
  | returned =>
    simp only [step] at hs
    split at hs
    · next hh =>
      cases hs
      exact .returned (handling_iff.mp (Bool.and_eq_true_iff.mp hh).1)
    · cases hs
  | finishBody =>
    simp only [step] at hs
    split at hs
    · next hi =>
      cases hs
      refine .finishBody hi ?_
      split
      · exact Or.inl rfl
      · exact Or.inr rfl
    · cases hs
  | finish now =>
    simp only [step] at hs
    split at hs
    · next hi =>
      have hsec : Section cfg held (.finish now) c _ _ := section_finish hi
      rw [Option.some.inj hs] at hsec
      exact hsec
    · cases hs
  | finishRelease =>
    simp only [step] at hs
    split at hs
    · next hi =>
      cases hs
      exact .finishRelease hi
    · cases hs
  | stop cause =>
    simp only [step] at hs
    split at hs
    · cases hs
    · cases hs
      exact .stop

theorem Section.published {e : CallEvent} (h : Section cfg held e c c' n)
    (hp : c.create.published = true) : c'.create.published = true := by
  cases h with
  | charge hc => rw [hc] at hp; cases hp
  | unsized hc => rw [hc] at hp; cases hp
  | refused hc => rw [hc] at hp; cases hp
  | full hc => rw [hc] at hp; cases hp
  | answer | refuse => rfl
  | _ => exact hp

end Call

end LocalBase.Runs
