import LocalBase.Lib.Machine
import LocalBase.Usage.Report

/-!
# The usage recorder

Requests are counted in memory and written to the database now and then, while
others are counted, reports read both, and old rows are removed. Every call is a
sequence of steps: what it does under the memory's lock is one step, and so is a
transaction, a query, and taking or giving back `io`. The steps of different
calls come in any order that the locks allow. The clock goes forward.

`log` and `pruned`, and the numbers a report carries, are history, and no step
depends on them: the calls of `Add` that have finished, in order, each with its row;
up to which hour rows have been removed; and how much of the log there was when the
report was asked for and when it read the memory.
-/

namespace LocalBase.Usage

open Buckets Machine

structure Settings where
  recording : Bool := true
  retentionDays : Int := 30
  bucket : Int → Int

/-- What a call of `Add` counts. -/
def Settings.figure (s : Settings) (e : Event) : Totals :=
  if s.recording && decide (e.route ∈ routes) then Totals.one s.bucket e else 0

inductive FlushPc
  | waiting
  | locked
  | taken (rows : Rows)
  /-- The transaction has failed. -/
  | failed (rows : Rows)
  | leaving

inductive PrunePc
  | waiting
  | locked
  | floored (floor : Int)
  | leaving

inductive ReportPc
  | waiting
  | locked
  | floored (starts : Int)
  | readDatabase (starts : Int) (rows : Rows)
  | readPending (starts : Int) (rows : Rows) (upto : Nat)
  /-- A query has failed. -/
  | failed
  | returned (starts : Int) (rows : Rows) (upto : Nat)

inductive Pc
  | idle
  | adding (k : RowKey) (e : Event)
  | flush (pc : FlushPc)
  | prune (pc : PrunePc)
  | report (q : Query) (began : Nat) (pc : ReportPc)
  | finished

/-- The call has `io` to itself. -/
def Pc.exclusive : Pc → Bool
  | .flush .locked | .flush (.taken _) | .flush (.failed _) | .flush .leaving => true
  | .prune .locked | .prune (.floored _) | .prune .leaving => true
  | _ => false

/-- The call reads under `io`. -/
def Pc.shared : Pc → Bool
  | .report _ _ .locked | .report _ _ (.floored _) | .report _ _ (.readDatabase _ _) => true
  | .report _ _ (.readPending _ _ _) | .report _ _ .failed => true
  | _ => false

/-- What a flush has taken from memory and not brought anywhere. -/
def Pc.taken : Pc → Rows
  | .flush (.taken rows) | .flush (.failed rows) => rows
  | _ => ∅

structure Recorder where
  pending : Rows := ∅
  database : Rows
  clock : Int
  writer : Option Nat := none
  readers : List Nat := []
  call : Nat → Pc := fun _ => .idle
  log : List (RowKey × Event) := []
  pruned : Int

inductive Move
  | tick (t : Int)
  /-- `Add` is called, and settles what it counts. -/
  | add (e : Event)
  | count
  | flush
  | prune
  | report (q : Query)
  | lock
  | take
  | write (succeeds : Bool)
  | mergeBack
  | floor
  | delete (succeeds : Bool)
  | readDatabase (succeeds : Bool)
  | readPending
  | unlock

namespace Recorder

def goto (r : Recorder) (i : Nat) (pc : Pc) : Recorder :=
  { r with call := Function.update r.call i pc }

/-- `Recorder.floor`, in seconds. -/
def floor (s : Settings) (r : Recorder) : Int := unix (floorAt r.clock s.retentionDays)

/-- `io.Lock`. -/
def lock (r : Recorder) (i : Nat) (pc : Pc) : Option Recorder :=
  if r.writer = none ∧ r.readers = [] then some { r.goto i pc with writer := some i } else none

/-- `io.RLock`. -/
def rlock (r : Recorder) (i : Nat) (pc : Pc) : Option Recorder :=
  if r.writer = none then some { r.goto i pc with readers := i :: r.readers } else none

/-- The next step of the call `i`. -/
def stepCall (s : Settings) (r : Recorder) (i : Nat) : Pc → Move → Option Recorder
  -- Add
  | .idle, .add e =>
    if !s.recording || !decide (e.route ∈ routes) then
      some { r.goto i .finished with log := r.log ++ [(rowKey r.clock e, e)] }
    else some (r.goto i (.adding (rowKey r.clock e) e))
  | .adding k e, .count =>
    some { r.goto i .finished with
      pending := Usage.count s.bucket r.pending k e
      log := r.log ++ [(k, e)] }
  -- Flush
  | .idle, .flush => some (r.goto i (.flush .waiting))
  | .flush .waiting, .lock => r.lock i (.flush .locked)
  | .flush .locked, .take =>
    if r.pending.entries = [] then some { r.goto i (.flush .leaving) with pending := ∅ }
    else some { r.goto i (.flush (.taken r.pending)) with pending := ∅ }
  | .flush (.taken rows), .write true =>
    some { r.goto i (.flush .leaving) with database := Usage.write r.database rows }
  | .flush (.taken rows), .write false => some (r.goto i (.flush (.failed rows)))
  | .flush (.failed rows), .mergeBack =>
    some { r.goto i (.flush .leaving) with pending := Usage.mergeBack r.pending rows }
  | .flush .leaving, .unlock => some { r.goto i .finished with writer := none }
  -- Prune
  | .idle, .prune => some (r.goto i (.prune .waiting))
  | .prune .waiting, .lock => r.lock i (.prune .locked)
  | .prune .locked, .floor => some (r.goto i (.prune (.floored (r.floor s))))
  | .prune (.floored f), .delete true =>
    some { r.goto i (.prune .leaving) with
      database := Usage.prune r.database f
      pruned := max r.pruned f }
  | .prune (.floored _), .delete false => some (r.goto i (.prune .leaving))
  | .prune .leaving, .unlock => some { r.goto i .finished with writer := none }
  -- Report
  | .idle, .report q => some (r.goto i (.report q r.log.length .waiting))
  | .report q n .waiting, .lock => r.rlock i (.report q n .locked)
  | .report q n .locked, .floor =>
    let floor := floorAt r.clock s.retentionDays
    some (r.goto i (.report q n (.floored (if q.starts < floor then floor else q.starts))))
  | .report q n (.floored starts), .readDatabase true =>
    some (r.goto i
      (.report q n (.readDatabase starts (Usage.readDatabase r.database starts q.ends))))
  | .report q n (.floored _), .readDatabase false => some (r.goto i (.report q n .failed))
  | .report q n (.readDatabase starts rows), .readPending =>
    some (r.goto i (.report q n (.readPending starts
      (Usage.readPending rows r.pending starts q.ends) r.log.length)))
  | .report q n (.readPending starts rows upto), .unlock =>
    some { r.goto i (.report q n (.returned starts rows upto)) with
      readers := r.readers.erase i }
  | .report _ _ .failed, .unlock =>
    some { r.goto i .finished with readers := r.readers.erase i }
  | _, _ => none

def step (s : Settings) (r : Recorder) : Nat × Move → Option Recorder
  | (_, .tick t) => if r.clock ≤ t then some { r with clock := t } else none
  | (i, m) => r.stepCall s i (r.call i) m

/-- A recorder that has counted nothing, over a database with the rows `base`. -/
structure Started (s : Settings) (base : Rows) (r : Recorder) : Prop where
  pending : r.pending = ∅
  database : r.database = base
  writer : r.writer = none
  readers : r.readers = []
  call : ∀ i, r.call i = .idle
  log : r.log = []
  pruned : r.pruned = r.floor s

end Recorder

end LocalBase.Usage
