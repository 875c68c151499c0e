import LocalBase.StructuredOutput.Json

/-!
# Runs

A run is an inference request that goes on without the browser that asked for
it. What it has said so far is kept twice: as events, numbered from 1, which
pages follow and resume, and as the output those events fold into.

Clock readings are numbers, sizes in memory are integers, and the bytes of a
body or a payload are lists of bytes. A run's `notify` channel is closed and
replaced with every event, so it is written as its number: the channels with
smaller numbers are the closed ones. `done` counts how often the channel of
that name has been closed.
-/

namespace LocalBase.Runs

open StructuredOutput (Json Object)

abbrev Bytes := List UInt8

/-- The `/v1` routes a run may wrap. -/
inductive Target
  | chat | imageGenerations | imageEdits | speech | transcriptions | translations | systemone
  deriving DecidableEq

inductive Status
  | queued | inProgress | completed | failed | cancelled | interrupted
  deriving DecidableEq

def Status.terminal : Status → Bool
  | .completed | .failed | .cancelled | .interrupted => true
  | .queued | .inProgress => false

inductive Reason
  | stopped | gatewayRestart | memoryPressure | maxDuration | outputLimit | memoryLimit
  deriving DecidableEq

def runActivePerOwner : Nat := 4
def runActiveTotal : Nat := 32
def runRetainedPerOwner : Nat := 32
def runMaxToolCalls : Nat := 128
/-- A retained event beyond its payload. -/
def runEventHeldFor : Int := 64

/-- The manager's limits, and the decoders it reads a payload and an error
body with: objects, whose numbers are the `float64` values they decode to. -/
structure Config where
  maxOutput : Int := 8 * 2 ^ 20
  maxResult : Int := 64 * 2 ^ 20
  maxHeld : Int := 32 * 2 ^ 20
  maxHeldTotal : Int := 256 * 2 ^ 20
  retention : Nat := 30 * 60
  unmarshal : Bytes → Option Object
  /-- The `error` object of a body that has one. -/
  envelope : Bytes → Option Object

/-! ## The output a chat run accumulates -/

structure ToolCall where
  id : Option String := none
  name : String := ""
  arguments : String := ""

structure RunOutput where
  content : String := ""
  reasoning : String := ""
  toolCalls : List ToolCall := []
  finishReason : String := ""
  usage : Option Object := none

/-- `v.(float64)`. -/
def float64? : Json → Option ℚ
  | .num n => some n.value
  | _ => none

/-- The slot a tool call delta names; `none` when it does not name a real one. -/
def toolCallSlot (call : Object) : Option Nat :=
  match (call.lookup "index").bind float64? with
  | none => some 0
  | some f =>
    if f < 0 ∨ (runMaxToolCalls : ℚ) ≤ f ∨ f.den ≠ 1 then none
    else some f.num.toNat

def ToolCall.add (dst : ToolCall) (call : Object) : ToolCall :=
  let fn := (call.object? "function").getD []
  { id := match call.string? "id" with
      | some id => if id ≠ "" then some id else dst.id
      | none => dst.id
    name := dst.name ++ (fn.string? "name").getD ""
    arguments := dst.arguments ++ (fn.string? "arguments").getD "" }

def RunOutput.addToolCall (o : RunOutput) (tc : Json) : RunOutput :=
  let call := tc.object?.getD []
  match toolCallSlot call with
  | none => o
  | some i =>
    let calls := o.toolCalls ++ List.replicate (i + 1 - o.toolCalls.length) {}
    { o with toolCalls := calls.modify i (·.add call) }

/-- One choice of a chunk; only the first choice is kept. -/
def RunOutput.addChoice (o : RunOutput) (c : Json) : RunOutput :=
  let ch := c.object?.getD []
  if ((ch.lookup "index").bind float64?).getD 0 ≠ 0 then o
  else
    let o := { o with finishReason := (ch.string? "finish_reason").getD o.finishReason }
    let d := (ch.object? "delta").getD []
    let o := { o with
      content := o.content ++ (d.string? "content").getD ""
      reasoning := o.reasoning ++ (d.string? "reasoning").getD "" }
    ((d.array? "tool_calls").getD []).foldl RunOutput.addToolCall o

/-- Fold one `chat.completion.chunk` into the output. -/
def RunOutput.add (o : RunOutput) (chunk : Object) : RunOutput :=
  let o := { o with usage := (chunk.object? "usage").or o.usage }
  ((chunk.array? "choices").getD []).foldl RunOutput.addChoice o

/-! ## A relayed block -/

def newline : UInt8 := 10
def dataField : Bytes := [100, 97, 116, 97, 58]
def doneMark : Bytes := [91, 68, 79, 78, 69, 93]

/-- The buffer up to its first empty line, and what follows it. -/
def nextBlock : Bytes → Option (Bytes × Bytes)
  | [] => none
  | b :: rest =>
    if b = newline ∧ rest.head? = some newline then some ([], rest.tail)
    else (nextBlock rest).map fun p => (b :: p.1, p.2)

/-- What a line carries when it is a `data:` line. -/
def dataOf (line : Bytes) : Option Bytes :=
  if dataField.isPrefixOf line then
    let d := line.drop dataField.length
    some (if d.head? = some 32 then d.tail else d)
  else none

def payloadOf (block : Bytes) : Bytes :=
  [newline].intercalate ((block.splitOn newline).filterMap dataOf)

/-- What `event` takes a block for. -/
inductive Relayed
  | nothing
  | error (payload : Bytes) (e : Object)
  | chunk (payload : Bytes) (obj : Object)

def Config.relayed (cfg : Config) (block : Bytes) : Relayed :=
  let payload := payloadOf block
  if payload = [] ∨ payload = doneMark then .nothing
  else
    match cfg.unmarshal payload with
    | none => .nothing
    | some obj =>
      match obj.object? "error" with
      | some e => .error payload e
      | none => .chunk payload obj

/-! ## The run -/

/-- What a run stopped by the total limit says: what holds the memory. -/
structure MemoryFull where
  heldBytes : Int
  limitBytes : Int
  finishedBytes : Int
  oldestExpiresAt : Option Nat

inductive RunError
  | relayed (e : Object)
  | memoryFull (f : MemoryFull)
  /-- The run ended without a result. -/
  | upstream

/-- The public run object, without the output. -/
structure View where
  target : Target
  status : Status
  reason : Option Reason
  error : Option RunError
  createdAt : Nat
  startedAt : Option Nat
  endedAt : Option Nat
  expiresAt : Option Nat
  lastEventID : Nat
  resultBytes : Option Nat

inductive EventData
  | status (status : Status) (reason : Option Reason)
  | chunk (payload : Bytes)
  | error (payload : Bytes)
  | end (view : View)

structure RunEvent where
  id : Nat
  data : EventData

structure Run where
  owner : String := ""
  target : Target := .chat
  createdAt : Nat := 0
  startedAt : Option Nat := none
  endedAt : Option Nat := none
  expiresAt : Option Nat := none
  status : Status := .queued
  reason : Option Reason := none
  error : Option RunError := none
  output : RunOutput := {}
  /-- A media run's response body. -/
  result : Option Bytes := none
  events : List RunEvent := []
  /-- The payload bytes of the chunks, kept or not. -/
  bytes : Int := 0
  /-- What it counts towards `held`. -/
  held : Int := 0
  notify : Nat := 0
  done : Nat := 0
  /-- There is a context to cancel. -/
  cancel : Bool := false
  stopStatus : Option Status := none
  stopReason : Option Reason := none
  source : String := ""
  queuedSeen : Bool := false
  /-- Read back from a checkpoint, which counted `checkpointed` events. -/
  restored : Bool := false
  checkpointed : Nat := 0
  /-- The request body, while the inner request holds it. -/
  body : Int := 0
  /-- Deleted before it ended. -/
  dismissed : Bool := false
  /-- Not in the code: every chunk relayed to it, kept or not. -/
  relayed : List Bytes := []

namespace Run

def terminal (r : Run) : Bool := r.status.terminal

def emit (r : Run) (data : EventData) : Run :=
  { r with
    events := r.events ++ [⟨r.events.length + 1, data⟩]
    notify := r.notify + 1 }

def setStatus (r : Run) (status : Status) (reason : Option Reason) : Run :=
  { r with status := status, reason := reason }.emit (.status status reason)

def lastEventID (r : Run) : Nat :=
  if r.restored then r.checkpointed + 2 else r.events.length

def view (r : Run) : View where
  target := r.target
  status := r.status
  reason := r.reason
  error := r.error
  createdAt := r.createdAt
  startedAt := r.startedAt
  endedAt := r.endedAt
  expiresAt := r.expiresAt
  lastEventID := r.lastEventID
  resultBytes := r.result.map List.length

/-- Cancel an active run with a final status. The first stop wins. -/
def stop (r : Run) (status : Status) (reason : Reason) : Run :=
  if r.terminal ∨ r.stopStatus ≠ none ∨ r.cancel = false then r
  else { r with stopStatus := some status, stopReason := some reason }

/-- The stop a chunk past a limit asks for. -/
def stopChunk (r : Run) (reason : Reason) : Run :=
  if r.stopStatus = none then
    { r with stopStatus := some .failed, stopReason := some reason }
  else r

def release (r : Run) : Run := { r with held := 0, body := 0 }

/-- The status is final, and the end of the run is its last event. -/
def finishAt (r : Run) (status : Status) (reason : Option Reason) (now retention : Nat) : Run :=
  let r := { r with endedAt := some now, expiresAt := some (now + retention) }
  let r := r.setStatus status reason
  { r.emit (.end r.view) with done := r.done + 1 }

def kept (r : Run) : List Bytes :=
  r.events.filterMap fun e => match e.data with
    | .chunk payload => some payload
    | _ => none

/-- What a stream has yet to send after a cursor, the channel to wait on,
whether the run has ended and how many events there are. -/
def eventsAfter (r : Run) (after : Nat) : List RunEvent × Nat × Bool × Nat :=
  (if after < r.events.length then r.events.drop after else [], r.notify,
    r.terminal && r.endedAt.isSome, r.events.length)

end Run

end LocalBase.Runs
