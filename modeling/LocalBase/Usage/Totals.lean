import LocalBase.Lib.Buckets
import Mathlib.Algebra.Group.Hom.Defs

/-!
# What usage counts

A finished request is an event. Events are counted hour by hour, for each
principal, route, model and status: how many there were, their tokens, their
times, and how many fell in each bucket of a latency histogram. Which bucket a
duration falls in is floating point, and is left open: `bucket` is any function.

Times and durations are nanoseconds, from the epoch; counts are integers.
-/

namespace LocalBase.Usage

open Buckets

def routes : List String :=
  ["chat", "embeddings", "decision", "speech", "transcription", "translation", "image",
    "image-edit", "video"]

def millisecond : Int := 1000000

def second : Int := 1000 * millisecond

def hour : Int := 3600 * second

def day : Int := 24 * hour

/-- `Time.Truncate`. -/
def truncate (t step : Int) : Int := t / step * step

/-- `Time.Unix`: whole seconds. -/
def unix (t : Int) : Int := t / second

structure Event where
  kind : String
  principal : String
  route : String
  model : String
  status : Int
  duration : Int
  queueWait : Int
  inputTokens : Int
  outputTokens : Int
  hasTokens : Bool
  /-- When it was, or now. -/
  moment : Option Int := none

structure RowKey where
  hour : Int
  kind : String
  principal : String
  route : String
  model : String
  status : Int
deriving DecidableEq

@[ext] structure Totals where
  requests : Int := 0
  withTokens : Int := 0
  input : Int := 0
  output : Int := 0
  durationMs : Int := 0
  queueMs : Int := 0
  /-- How many requests are in each bucket. -/
  latency : Int → Int := fun _ => 0

/-- Totals by row: in memory, taken from it, or in the database. -/
abbrev Rows := AList fun _ : RowKey => Totals

namespace Totals

def merge (t o : Totals) : Totals where
  requests := t.requests + o.requests
  withTokens := t.withTokens + o.withTokens
  input := t.input + o.input
  output := t.output + o.output
  durationMs := t.durationMs + o.durationMs
  queueMs := t.queueMs + o.queueMs
  latency := fun b => t.latency b + o.latency b

theorem merge_assoc (a b c : Totals) : (a.merge b).merge c = a.merge (b.merge c) := by
  ext <;> simp only [merge] <;> omega

theorem merge_comm (a b : Totals) : a.merge b = b.merge a := by
  ext <;> simp only [merge] <;> omega

theorem merge_empty (a : Totals) : a.merge {} = a := by
  ext <;> simp only [merge] <;> omega

instance : Zero Totals := ⟨{}⟩

instance : Add Totals := ⟨merge⟩

instance : AddCommMonoid Totals where
  add_assoc := merge_assoc
  add_comm := merge_comm
  zero_add a := (merge_comm {} a).trans (merge_empty a)
  add_zero := merge_empty
  nsmul := nsmulRec

theorem merge_eq_add (a b : Totals) : a.merge b = a + b := rfl

/-- What `Add` does to the totals of an event's row. -/
def count (bucket : Int → Int) (t : Totals) (e : Event) : Totals :=
  let d := max e.duration 0
  { requests := t.requests + 1
    withTokens := t.withTokens + if e.hasTokens then 1 else 0
    input := t.input + if e.hasTokens then e.inputTokens else 0
    output := t.output + if e.hasTokens then e.outputTokens else 0
    durationMs := t.durationMs + d / millisecond
    queueMs := t.queueMs + max e.queueWait 0 / millisecond
    latency := fun b => t.latency b + if b = bucket d then 1 else 0 }

def one (bucket : Int → Int) (e : Event) : Totals := count bucket {} e

theorem count_eq (bucket : Int → Int) (t : Totals) (e : Event) :
    t.count bucket e = t + one bucket e := by
  show _ = t.merge (one bucket e)
  ext <;> simp only [merge, one, count] <;> omega

end Totals

def rowKey (now : Int) (e : Event) : RowKey where
  hour := unix (truncate (e.moment.getD now) hour)
  kind := e.kind
  principal := e.principal
  route := e.route
  model := e.model
  status := e.status

/-! ## In memory -/

/-- `Add`, once it has the lock. -/
def count (bucket : Int → Int) (pending : Rows) (k : RowKey) (e : Event) : Rows :=
  pending.insert k ((amount pending k).count bucket e)

/-- What a flush that failed does with the rows it took. -/
def mergeBack (pending taken : Rows) : Rows :=
  taken.entries.foldl (fun p r =>
    p.insert r.1 (match p.lookup r.1 with
      | some cur => r.2.merge cur
      | none => r.2)) pending

/-! ## In the database -/

/-- One row of `write`: the insert, or the update of the row that is there. -/
def upsert (db : Rows) (r : Σ _ : RowKey, Totals) : Rows :=
  match db.lookup r.1 with
  | none => db.insert r.1 r.2
  | some old =>
    let merged := r.2.merge { latency := old.latency }
    db.insert r.1
      { requests := old.requests + r.2.requests
        withTokens := old.withTokens + r.2.withTokens
        input := old.input + r.2.input
        output := old.output + r.2.output
        durationMs := old.durationMs + r.2.durationMs
        queueMs := old.queueMs + r.2.queueMs
        latency := merged.latency }

def write (db taken : Rows) : Rows := taken.entries.foldl upsert db

/-- `DELETE FROM usage_hourly WHERE hour < ?`. -/
def prune (db : Rows) (floor : Int) : Rows := select (fun k => !decide (k.hour < floor)) db

/-! ## What they come to -/

theorem amount_count (bucket : Int → Int) (pending : Rows) (k j : RowKey) (e : Event) :
    amount (count bucket pending k e) j =
      amount pending j + if k = j then Totals.one bucket e else 0 := by
  unfold count
  rw [amount_insert, Totals.count_eq]
  split
  · next h => rw [if_pos h.symm, h]
  · next h => rw [if_neg (Ne.symm h), add_zero]

theorem mergeBack_eq (pending taken : Rows) :
    mergeBack pending taken = pour Sigma.fst Sigma.snd pending taken.entries := by
  unfold mergeBack pour
  congr 1
  funext p r
  congr 1
  cases h : p.lookup r.1 with
  | none => rw [amount, h, Option.getD_none, zero_add]
  | some cur =>
    show r.2.merge cur = _
    rw [amount_of_lookup h, Totals.merge_eq_add, add_comm]

theorem write_eq (db taken : Rows) :
    write db taken = pour Sigma.fst Sigma.snd db taken.entries := by
  unfold write pour
  congr 1
  funext p r
  unfold upsert
  cases h : p.lookup r.1 with
  | none =>
    show p.insert r.1 r.2 = _
    rw [amount, h, Option.getD_none, zero_add]
  | some old =>
    rw [amount_of_lookup h]
    show p.insert r.1 _ = p.insert r.1 (old.merge r.2)
    congr 1
    ext
    · rfl
    · rfl
    · rfl
    · rfl
    · rfl
    · rfl
    · exact add_comm ..

theorem amount_mergeBack (pending taken : Rows) (k : RowKey) :
    amount (mergeBack pending taken) k = amount pending k + amount taken k := by
  rw [mergeBack_eq, amount_pour_entries]

theorem amount_write (db taken : Rows) (k : RowKey) :
    amount (write db taken) k = amount db k + amount taken k := by
  rw [write_eq, amount_pour_entries]

theorem amount_prune {db : Rows} {floor : Int} {k : RowKey} (h : floor ≤ k.hour) :
    amount (prune db floor) k = amount db k := by
  unfold prune
  rw [amount_select, if_pos]
  simpa using h

end LocalBase.Usage
