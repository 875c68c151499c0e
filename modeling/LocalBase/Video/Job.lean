import Mathlib.Algebra.Ring.Nat
import Mathlib.Data.List.Sort
import Mathlib.Logic.Function.Basic

/-!
# A video job

One job at a time runs on the video runtime. Its record is the manager's: what
the runner, the deadline and every caller that terminates it read and change
under the manager's lock, with the runner's own place in `run` beside it.

Bytes are counted and not kept: of the media only its length decides anything.
-/

namespace LocalBase.Video

inductive JobError
  /-- Of the runtime, the backend, the converter or the file system. -/
  | other (text : String)
  | unavailable
  | mismatchedID
  | backendFailed
  | noMedia
  | artifactLimit (which : String)
  | admission (reason poolID : String)
  /-- The job's context is cancelled. -/
  | canceled
deriving DecidableEq

def JobError.text : JobError → String
  | .other text => text
  | .unavailable => "Video runtime admission is unavailable."
  | .mismatchedID => "Video backend returned a mismatched job ID."
  | .backendFailed => "Video backend job failed."
  | .noMedia => "Video backend returned no media."
  | .artifactLimit which => "video artifact exceeds its limit: " ++ which
  | .admission reason _ => reason
  | .canceled => "context canceled"

inductive State
  | queued
  | inProgress
  | completed
  | failed
  | cancelled
deriving DecidableEq

def State.terminal : State → Bool
  | .completed | .failed | .cancelled => true
  | .queued | .inProgress => false

/-- A completed job's retained file. -/
structure Artifact where
  bytes : Nat
  mimeType : String
  format : String
  fps : Nat
  frames : Nat
deriving DecidableEq

/-- A generated video; `size` is the length of its data. -/
structure Media where
  size : Nat
  mimeType : String := ""
  format : String := ""
  fps : Nat := 0
  frames : Nat := 0
deriving DecidableEq

def Media.artifact (m : Media) : Artifact :=
  { bytes := m.size, mimeType := m.mimeType, format := m.format, fps := m.fps, frames := m.frames }

inductive BackendStatus
  | queued
  | generating
  | completed
  | failed
  /-- Or anything else. -/
  | cancelled
deriving DecidableEq

structure BackendJob where
  id : String
  status : BackendStatus
  media : Option Media := none

structure Snapshot where
  state : State
  createdAt : Nat
  terminalAt : Option Nat
  artifact : Option Artifact
  failure : Option JobError
  reason : String
deriving DecidableEq

/-- Where `run` is with its job. -/
inductive RunnerPc
  /-- `Start` has not got to its `go` yet. -/
  | unlaunched
  | acquiring
  /-- The admission is the job's; `admitted` is not closed yet. -/
  | admitting (err : Option JobError)
  /-- It asks whether the job is stopped before waiting for the runtime. -/
  | admitted
  | readying
  /-- The same before submitting. -/
  | ready
  | submitting
  | submitted (sub : BackendJob)
  /-- The head of the polling loop. -/
  | looping
  | polling
  | applying (update : BackendJob)
  /-- Within `persist`: converting, making room, writing. -/
  | preparing (media : Option Media)
  | rooming (media : Media)
  | writing (media : Media)
  | persisted (result : Except JobError Artifact)
  /-- `apply` returned without an error. -/
  | applied
  | sleeping
  /-- The work failed: it asks for the context first, then for a termination. -/
  | failing (err : JobError)
  | blaming (err : JobError)
  | returned

/-- The four parts of `run`. -/
inductive Phase
  | early
  | going
  | persisting
  | leaving
deriving DecidableEq

def RunnerPc.phase : RunnerPc → Phase
  | .unlaunched | .acquiring | .admitting _ => .early
  | .admitted | .readying | .ready | .submitting | .submitted _ | .looping | .polling | .applying _
  | .applied | .sleeping => .going
  | .preparing _ | .rooming _ | .writing _ | .persisted _ => .persisting
  | .failing _ | .blaming _ | .returned => .leaving

structure Job where
  owner : String := ""
  created : Nat := 0
  state : State := .queued
  terminalAt : Option Nat := none
  artifact : Option Artifact := none
  /-- Artifact bytes being written. -/
  pending : Nat := 0
  failure : Option JobError := none
  reason : String := ""
  backendID : String := ""
  /-- It holds an admission of the runtime. -/
  admission : Bool := false
  /-- The termination under way, by its caller. -/
  terminating : Option Nat := none
  /-- An artifact is being persisted. -/
  completing : Bool := false
  /-- The channel is closed: admission settled. -/
  admitted : Bool := false
  /-- The context is cancelled. -/
  cancelled : Bool := false
  /-- The deadline's timer is set. -/
  deadline : Bool := false
  runner : RunnerPc := .unlaunched
  /-- The bytes in the job's artifact file. -/
  file : Nat := 0
  /-- What was sent to the `terminal` channel. -/
  sent : List Snapshot := []
  /-- How often its admission was released. -/
  released : Nat := 0
  /-- A stop of its runtime has succeeded. -/
  stopped : Bool := false

namespace Job

def terminal (j : Job) : Bool := j.terminalAt.isSome

/-- Whether the job finished or is being stopped. -/
def settling (j : Job) : Bool := j.terminalAt.isSome || j.terminating.isSome

/-- Whether `apply` has to leave the job alone. -/
def closed (j : Job) : Bool := j.terminalAt.isSome || j.terminating.isSome || j.cancelled

def snapshot (j : Job) : Snapshot :=
  { state := j.state, createdAt := j.created, terminalAt := j.terminalAt, artifact := j.artifact
    failure := j.failure, reason := j.reason }

/-- What a finished job counts for in `artifactBytes`. -/
def weight (j : Job) : Nat :=
  match j.artifact with
  | some a => a.bytes
  | none => j.pending

/-- `finish`, of the job: the terminal time, the admission, the snapshot. -/
def finish (j : Job) (now : Nat) : Job :=
  let j := { j with
    terminalAt := some now
    deadline := false
    released := if j.admission then j.released + 1 else j.released }
  { j with sent := j.sent ++ [j.snapshot] }

end Job

/-- The limits, all of them positive. -/
structure Options where
  /-- A converter is configured. -/
  prepare : Bool
  maxArtifactBytes : Nat
  maxArtifactBytesTotal : Nat
  maxTerminalJobs : Nat
  terminalTTL : Nat
  maxArtifactBytes_pos : 0 < maxArtifactBytes
  maxArtifactBytesTotal_pos : 0 < maxArtifactBytesTotal
  maxTerminalJobs_pos : 0 < maxTerminalJobs
  terminalTTL_pos : 0 < terminalTTL

/-- A limit that is not positive takes the default. -/
def orDefault (n : Int) (d : Nat) : Nat :=
  if n ≤ 0 then d else n.toNat

theorem orDefault_pos {n : Int} {d : Nat} (hd : 0 < d) : 0 < orDefault n d := by
  unfold orDefault
  split
  · exact hd
  · omega

def defaultMaxArtifactBytes : Nat := 64 <<< 20
def defaultMaxArtifactBytesTotal : Nat := 256 <<< 20
def defaultMaxTerminalJobs : Nat := 20
def defaultTerminalTTL : Nat := 15 * 60

/-- `NewManager`'s limits. -/
def Options.ofRaw (prepare : Bool) (bytes total jobs ttl : Int) : Options where
  prepare := prepare
  maxArtifactBytes := orDefault bytes defaultMaxArtifactBytes
  maxArtifactBytesTotal := orDefault total defaultMaxArtifactBytesTotal
  maxTerminalJobs := orDefault jobs defaultMaxTerminalJobs
  terminalTTL := orDefault ttl defaultTerminalTTL
  maxArtifactBytes_pos := orDefault_pos (by decide)
  maxArtifactBytesTotal_pos := orDefault_pos (by decide)
  maxTerminalJobs_pos := orDefault_pos (by decide)
  terminalTTL_pos := orDefault_pos (by decide)

end LocalBase.Video
