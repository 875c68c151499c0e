import Mathlib.Data.List.DropRight
import LocalBase.Lib.Fuel
import LocalBase.Relay.Line
import LocalBase.StructuredOutput.Json

/-!
# Forwarding an event stream

`relaySSE` as the code has it. An event is kept line by line until its empty
line has come and is then written whole, or an error event in its place, which
ends the stream. What an answer notes for telemetry (`observe`) is left out: it
is read off an event and goes nowhere that a client or an outcome sees.
-/

namespace LocalBase.Relay

open Buffered
open Pieces (cut)
open StructuredOutput (Json Object)

inductive Outcome
  | completed
  | cancelled
  | error
  deriving DecidableEq

/-- The source of an outcome. A stream that is completed has none. -/
inductive Terminal
  | none
  | responseEventLimit
  | responseValidation
  | upstreamErrorEvent
  | responseCancelled
  | requestAborted
  | memoryEmergency
  | responseIdle
  | responseStreamError
  deriving DecidableEq

/-! ## Texts -/

def utf8 (s : String) : Bytes := s.toUTF8.toList

/-- An error event of the gateway's own. None of its messages needs an escape. -/
def upstreamErrorEvent (message : String) : Bytes :=
  utf8 ("data: \x7b\"error\":\x7b\"message\":\"" ++ message ++
    "\",\"type\":\"server_error\",\"param\":null,\"code\":\"upstream_error\"\x7d\x7d\n\n")

def upstreamInvalidStream : Bytes :=
  upstreamErrorEvent "The upstream service returned an invalid event stream."

def memoryEmergencyEvent : Bytes :=
  utf8 ("data: \x7b\"error\":\x7b\"message\":\"Inference service is currently restarting or " ++
    "unavailable. Please try again shortly.\",\"type\":\"api_error\",\"param\":null," ++
    "\"code\":\"service_unavailable\"\x7d\x7d\n\n")

def limitEvent (limit : Nat) : Bytes :=
  upstreamErrorEvent ("The upstream sent an event over the " ++ toString (limit / 2 ^ 20) ++
    " MiB limit.")

/-- `streamIdleLimit` is five minutes. -/
def idleEvent : Bytes := upstreamErrorEvent "The model stopped sending output for 5 minutes."

def streamFailedEvent : Bytes := upstreamErrorEvent "The upstream stream failed."

def midEventEvent : Bytes := upstreamErrorEvent "The upstream stream ended mid-event."

/-- The most that one line or event may hold, 16 MiB. -/
def sseEventLimit : Nat := 16 * 2 ^ 20

/-! ## One event -/

/-- What a stream is relayed with, and what happens to it from outside. -/
structure Call where
  modelID : String
  /-- A decoded object. There is none for `null`, or for what does not decode. -/
  decode : Bytes → Option Object
  /-- `json.Marshal` of an object. -/
  marshal : Object → Bytes
  /-- The request is over by the time the stream ends. -/
  aborted : Bool := false
  /-- Its runtime has been stopped by then, because memory turned critical. -/
  interrupted : Bool := false
  /-- Whether the `n`-th write to the client goes through. -/
  goes : Nat → Bool := fun _ => true

/-- The object with another value under a key that it has. -/
def update (f : Json → Json) (key : String) (m : Object) : Object :=
  m.map fun kv => if kv.1 = key then (kv.1, f kv.2) else kv

def normalizeReasoning (m : Object) : Object :=
  match m.lookup "reasoning_content" with
  | none => m
  | some rc =>
    let rest : Object := m.filter fun kv => kv.1 ≠ "reasoning_content"
    match rc with
    | .null => rest
    | rc => if rest.has "reasoning" then rest else rest ++ [("reasoning", rc)]

def normalizeDelta : Json → Json
  | .obj d => .obj (normalizeReasoning d)
  | v => v

def normalizeChoice : Json → Json
  | .obj ch => .obj (update normalizeDelta "delta" ch)
  | v => v

def normalizeChoices : Json → Json
  | .arr choices => .arr (choices.map normalizeChoice)
  | v => v

/-- An object as the client gets it. -/
def publicObject (c : Call) (obj : Object) : Object :=
  update (fun _ => .str c.modelID) "model" (update normalizeChoices "choices" obj)

def dataPrefix : Bytes := utf8 "data:"

def doneMark : Bytes := utf8 "[DONE]"

/-- What a line has after `data:`, less one space. -/
def dataOf (line : Bytes) : Option Bytes :=
  if dataPrefix.isPrefixOf line then
    let data := line.drop dataPrefix.length
    some (if data.head? = some 32 then data.tail else data)
  else none

/-- One line of an event: what is written for it, and whether it says that the
stream is done, or else the error event that ends the stream. -/
def rewriteLine (c : Call) (line : Bytes) : Except (Bytes × Terminal) (Bytes × Bool) :=
  match dataOf line with
  | none => .ok (line ++ [newline], false)
  | some data =>
    if data = doneMark then .ok (utf8 "data: [DONE]\n", true)
    else
      match c.decode data with
      | none => .error (upstreamInvalidStream, .responseValidation)
      | some obj =>
        if obj.has "error" then
          .error (utf8 "data: " ++ data ++ [newline, newline], .upstreamErrorEvent)
        else .ok (utf8 "data: " ++ c.marshal (publicObject c obj) ++ [newline], false)

/-- The lines of an event, up to the first that ends the stream. -/
def rewrite (c : Call) : List Bytes → Except (Bytes × Terminal) (Bytes × Bool)
  | [] => .ok ([newline], false)
  | line :: event => do
      let (out, done) ← rewriteLine c line
      let (out', done') ← rewrite c event
      .ok (out ++ out', done || done')

/-! ## The relay -/

inductive Write
  | event (text : Bytes)
  | error (text : Bytes)
  deriving DecidableEq

structure Answer where
  writes : List Write
  outcome : Outcome
  terminal : Terminal
  peak : Nat

/-- The relay between two lines. `peak` is the most bytes of one event it has
had in hand at once, in lines it keeps and in the line it was reading. -/
structure State where
  event : List Bytes := []
  eventBytes : Nat := 0
  sawDone : Bool := false
  writes : List Write := []
  peak : Nat := 0

/-- `strings.TrimRight(line, "\r\n")`. -/
def trimmed (line : Bytes) : Bytes := line.rdropWhile fun b => b = 13 ∨ b = 10

/-- An empty line, which ends an event. -/
def isBlank (line : Bytes) : Bool := trimmed line = [] ∧ line.getLast? = some newline

namespace State

def stop (s : State) (outcome : Outcome) (terminal : Terminal) : Answer where
  writes := s.writes
  outcome := outcome
  terminal := terminal
  peak := s.peak

def write (s : State) (w : Write) : State := { s with writes := s.writes ++ [w] }

/-- An error event, whether or not it goes through. -/
def fail (s : State) (text : Bytes) (terminal : Terminal) : Answer :=
  (s.write (.error text)).stop .error terminal

/-- `emit`. -/
def emit (c : Call) (s : State) : Except Answer State :=
  if s.event = [] then .ok s
  else
    match rewrite c s.event with
    | .error (text, terminal) => .error (s.fail text terminal)
    | .ok (out, done) =>
      let s' := { s with event := [], sawDone := s.sawDone || done }.write (.event out)
      if c.goes s.writes.length then .ok s' else .error (s'.stop .cancelled .responseCancelled)

/-- A line within the limit: an empty one ends the event. What is left at the
end of the stream is a line of it too. -/
def takeLine (c : Call) (s : State) (line : Bytes) : Except Answer State :=
  if line = [] then .ok s
  else if isBlank line then { s with eventBytes := 0 }.emit c
  else .ok { s with event := s.event ++ [trimmed line] }

/-- A read of the upstream failed. -/
def ending (c : Call) (s : State) (err : ReadError) : Answer :=
  if c.aborted then s.stop .cancelled .requestAborted
  else if c.interrupted then s.fail memoryEmergencyEvent .memoryEmergency
  else
    match err with
    | .idle => s.fail idleEvent .responseIdle
    | .failed => s.fail streamFailedEvent .responseStreamError
    | .eof =>
      if s.event ≠ [] then s.fail midEventEvent .responseStreamError
      else if s.sawDone then s.stop .completed .none
      else s.fail upstreamInvalidStream .responseValidation

def after (c : Call) (err : Option ReadError) (s : State) : Except Answer State :=
  match err with
  | none => .ok s
  | some e => .error (s.ending c e)

/-- One round of the loop, from what `readSSELine` answered. -/
def step (c : Call) (limit : Nat) (s : State) : Read → Except Answer State
  | .tooLong held =>
    .error ({ s with peak := max s.peak (s.eventBytes + held) }.fail (limitEvent limit)
      .responseEventLimit)
  | .line line err =>
    let s := { s with
      eventBytes := s.eventBytes + line.length
      peak := max s.peak (s.eventBytes + line.length) }
    if limit < s.eventBytes then .error (s.fail (limitEvent limit) .responseEventLimit)
    else s.takeLine c line >>= after c err

end State

theorem step_ok {c : Call} {limit : Nat} {s s' : State} {read : Read}
    (h : s.step c limit read = .ok s') : ∃ line, read = .line line none := by
  cases read with
  | tooLong held => cases h
  | line line err =>
    cases err with
    | none => exact ⟨line, rfl⟩
    | some e =>
      rw [State.step] at h
      split at h
      · cases h
      · obtain ⟨_, _, hafter⟩ := Fuel.bind_eq_ok.mp h
        cases hafter

/-- The loop, from a state and what is still to be read. -/
def relayFrom (c : Call) (limit : Nat) (s : State) (rd : LineReader) : Answer :=
  match _ : s.step c limit (readSSELine limit rd).1 with
  | .error a => a
  | .ok s' => relayFrom c limit s' (readSSELine limit rd).2
termination_by (coming rd).1.length
decreasing_by
  rename_i hstep
  obtain ⟨line, hread⟩ := step_ok hstep
  exact coming_shrinks hread

def relaySSE (c : Call) (body : Body) : Answer := relayFrom c sseEventLimit {} { source := body }

end LocalBase.Relay
