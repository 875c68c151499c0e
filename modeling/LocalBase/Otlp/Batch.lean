import LocalBase.Lib.Machine
import LocalBase.Otlp.Reporter

/-!
# The export queues and their shutdown

Each signal that is exported has a bounded queue and one goroutine that hands it to the
collector in batches, one at a time. `Shutdown` stops both goroutines, each after it has
sent what was queued, and then has the reporter tell what it still holds back.

What is kept for the record: every item a queue took in, in order, and every batch with
its outcome. Then nothing is lost or sent twice between the two, `Batcher.Whole`, and the
reporter's answer for a signal is its failed batches, `Exporter.Told`. What the collector
answers and when, is left open; so is the time, which is an event's.
-/

namespace LocalBase.Otlp

def maxQueue : Nat := 2048

def maxBatch : Nat := 256

/-- Where a batcher's goroutine is. -/
inductive Loop (α : Type)
  | select
  /-- About to `take`; after `stop`, until the queue is empty. -/
  | flushOne (draining : Bool)
  | sending (items : List α) (draining : Bool)
  | done

structure Batcher (α : Type) where
  queue : List α := []
  /-- The slot of the `wake` channel. -/
  wake : Bool := false
  /-- Calls of `add` that have a full batch and not yet sent on `wake`. -/
  waking : Nat := 0
  stop : Bool := false
  loop : Loop α := .select
  accepted : List α := []
  sent : List (List α × Option String) := []

namespace Batcher

variable {α : Type}

/-- The section of `add`. -/
def add (b : Batcher α) (item : α) : Batcher α :=
  if b.stop then b
  else if maxQueue ≤ b.queue.length then b
  else
    let queue := b.queue ++ [item]
    { b with
      queue := queue
      accepted := b.accepted ++ [item]
      waking := if maxBatch ≤ queue.length then b.waking + 1 else b.waking }

/-- `take`, and what `flushOne` does with it. -/
def take (b : Batcher α) (draining : Bool) : Batcher α :=
  let n := min b.queue.length maxBatch
  let items := b.queue.take n
  { b with
    queue := b.queue.drop n
    loop := if items = [] then (if draining then .done else .select)
      else .sending items draining }

/-- The export of a batch has returned. -/
def exported (b : Batcher α) (items : List α) (draining : Bool) (err : Option String) :
    Batcher α :=
  { b with
    sent := b.sent ++ [(items, err)]
    loop := if draining then .flushOne true else .select }

end Batcher

inductive Signal
  | traces | logs
  deriving DecidableEq

def Signal.name : Signal → String
  | .traces => "traces"
  | .logs => "logs"

/-- What a failed batch is reported as. -/
def exportFailed (signal : Signal) (err : String) (count : Nat) : Report where
  signal := signal.name
  severity := "warn"
  message := "OTLP export failed."
  detail := err
  items := count
  attrs := fun k => if k = "batchSize" then some (.int count) else none

/-- Where `Shutdown` is. -/
inductive Shutdown
  | open
  /-- Waiting for the goroutines; the deadline may have passed. -/
  | closing (late : Bool)
  | done
  deriving DecidableEq

/-- A runtime's exporters; a signal without an endpoint has no batcher. -/
structure Exporter (α : Type) where
  batchers : Signal → Option (Batcher α)
  failures : Reporter := {}
  shutdown : Shutdown := .open

inductive ExportEvent (α : Type)
  | add (s : Signal) (item : α)
  /-- An `add` sends on `wake`, or finds it full. -/
  | wake (s : Signal)
  /-- The goroutine's `select`: the ticker, `wake` or `stop`. -/
  | tick (s : Signal)
  | woken (s : Signal)
  | stopped (s : Signal)
  | take (s : Signal)
  | exported (s : Signal) (err : Option String) (now : Int)
  | shutdown
  /-- `close` of a batcher, up to its wait. -/
  | closeStop (s : Signal)
  | deadline
  /-- Both goroutines are done. -/
  | flush (now : Int)

namespace Exporter

variable {α : Type}

def set (e : Exporter α) (s : Signal) (b : Batcher α) : Exporter α :=
  { e with batchers := Function.update e.batchers s (some b) }

/-- What the goroutine tells the reporter of a batch. -/
def report (s : Signal) (items : List α) : Option String → Call
  | some err => .failure s.name (exportFailed s err items.length)
  | none => .recovered s.name

def finished (e : Exporter α) (s : Signal) : Bool :=
  match e.batchers s with
  | none => true
  | some b => match b.loop with
    | .done => true
    | _ => false

def step (e : Exporter α) : ExportEvent α → Option (Exporter α)
  | .add s item =>
    match e.batchers s with
    | none => some e
    | some b => some (e.set s (b.add item))
  | .wake s =>
    match e.batchers s with
    | some b =>
      if 0 < b.waking then some (e.set s { b with waking := b.waking - 1, wake := true })
      else none
    | none => none
  | .tick s =>
    match e.batchers s with
    | some b => match b.loop with
      | .select => some (e.set s { b with loop := .flushOne false })
      | _ => none
    | none => none
  | .woken s =>
    match e.batchers s with
    | some b => match b.loop, b.wake with
      | .select, true => some (e.set s { b with loop := .flushOne false, wake := false })
      | _, _ => none
    | none => none
  | .stopped s =>
    match e.batchers s with
    | some b => match b.loop, b.stop with
      | .select, true => some (e.set s { b with loop := .flushOne true })
      | _, _ => none
    | none => none
  | .take s =>
    match e.batchers s with
    | some b => match b.loop with
      | .flushOne draining => some (e.set s (b.take draining))
      | _ => none
    | none => none
  | .exported s err now =>
    match e.batchers s with
    | some b => match b.loop with
      | .sending items draining =>
        some { e.set s (b.exported items draining err) with
          failures := e.failures.call (now, report s items err) }
      | _ => none
    | none => none
  | .shutdown =>
    match e.shutdown with
    | .open => some { e with shutdown := .closing false }
    | _ => none
  | .closeStop s =>
    match e.shutdown, e.batchers s with
    | .closing _, some b => some (e.set s { b with stop := true })
    | _, _ => none
  | .deadline =>
    match e.shutdown with
    | .closing false => some { e with shutdown := .closing true }
    | _ => none
  | .flush now =>
    match e.shutdown with
    | .closing _ =>
      if e.finished .traces && e.finished .logs then
        some { e with shutdown := .done, failures := e.failures.flush now }
      else none
    | _ => none

end Exporter

/-- A runtime that `New` makes, for any endpoints. -/
def exporter (α : Type) : Machine.System (Exporter α) (ExportEvent α) where
  init e := ∃ configured : Signal → Bool,
    e = { batchers := fun s => if configured s then some {} else none }
  step := Exporter.step

/-! ## Nothing is lost or sent twice -/

namespace Batcher

variable {α : Type} {b : Batcher α}

/-- What the goroutine has in hand. -/
def inHand (b : Batcher α) : List α :=
  match b.loop with
  | .sending items _ => items
  | _ => []

structure Whole (b : Batcher α) : Prop where
  once : b.accepted = (b.sent.map Prod.fst).flatten ++ b.inHand ++ b.queue
  batches : ∀ batch ∈ b.sent, batch.1 ≠ [] ∧ batch.1.length ≤ maxBatch
  hand : b.inHand.length ≤ maxBatch ∧ (∀ items d, b.loop = .sending items d → items ≠ [])
  room : b.queue.length ≤ maxQueue
  drained : b.loop = .done → b.stop = true ∧ b.queue = []
  draining : ∀ items, b.loop = .flushOne true ∨ b.loop = .sending items true → b.stop = true

theorem whole_init : Whole ({} : Batcher α) := by
  refine ⟨rfl, fun _ h => ?_, ⟨Nat.zero_le _, fun _ _ h => ?_⟩, Nat.zero_le _, fun h => ?_,
    fun _ h => ?_⟩
  · cases h
  · cases h
  · cases h
  · rcases h with h | h <;> cases h

theorem Whole.add (h : Whole b) (item : α) : Whole (b.add item) := by
  unfold Batcher.add
  split
  · exact h
  · next hstop =>
    split
    · exact h
    · next hroom =>
      refine ⟨?_, h.batches, h.hand, ?_, fun hd => ?_, h.draining⟩
      · show b.accepted ++ [item] = _ ++ (b.queue ++ [item])
        rw [h.once, List.append_assoc, List.append_assoc, List.append_assoc]
        rfl
      · simp only [List.length_append, List.length_singleton]
        omega
      · exact absurd (h.drained hd).1 hstop

theorem Whole.signal (h : Whole b) {wake stop : Bool} {waking : Nat}
    (hstop : b.stop = true → stop = true) :
    Whole { b with wake := wake, waking := waking, stop := stop } :=
  ⟨h.once, h.batches, h.hand, h.room, fun hd => ⟨hstop (h.drained hd).1, (h.drained hd).2⟩,
    fun items hi => hstop (h.draining items hi)⟩

theorem Whole.leave (h : Whole b) {draining wake : Bool} (hl : b.loop = .select)
    (hd : draining = true → b.stop = true) :
    Whole { b with loop := .flushOne draining, wake := wake } := by
  refine ⟨?_, h.batches, ⟨Nat.zero_le _, fun _ _ hs => ?_⟩, h.room, fun hs => ?_,
    fun _ hs => ?_⟩
  · have honce := h.once
    simp only [inHand, hl] at honce
    exact honce
  · cases hs
  · cases hs
  · rcases hs with hs | hs <;> cases hs
    exact hd rfl

theorem Whole.take (h : Whole b) {draining : Bool} (hl : b.loop = .flushOne draining) :
    Whole (b.take draining) := by
  have honce : b.accepted = (b.sent.map Prod.fst).flatten ++ b.queue := by
    have h' := h.once
    simp only [inHand, hl, List.append_nil] at h'
    exact h'
  have hstop : draining = true → b.stop = true := fun hd =>
    h.draining [] (Or.inl (by rw [hl, hd]))
  have hsplit := List.take_append_drop (min b.queue.length maxBatch) b.queue
  unfold Batcher.take
  simp only []
  split
  · next hitems =>
    -- `take` finds the queue empty.
    have hempty : b.queue = [] := by
      have hlen := congrArg List.length hitems
      rw [List.length_take, List.length_nil] at hlen
      have hbatch : 0 < maxBatch := by decide
      exact List.length_eq_zero_iff.mp (by omega)
    rw [hempty] at honce ⊢
    cases draining with
    | false =>
      refine ⟨?_, h.batches, ⟨Nat.zero_le _, fun _ _ hs => ?_⟩, Nat.zero_le _, fun hs => ?_,
        fun _ hs => ?_⟩
      · simpa [inHand] using honce
      · cases hs
      · cases hs
      · rcases hs with hs | hs <;> cases hs
    | true =>
      refine ⟨?_, h.batches, ⟨Nat.zero_le _, fun _ _ hs => ?_⟩, Nat.zero_le _,
        fun _ => ⟨hstop rfl, rfl⟩, fun _ hs => ?_⟩
      · simpa [inHand] using honce
      · cases hs
      · rcases hs with hs | hs <;> cases hs
  · next hitems =>
    refine ⟨?_, h.batches, ⟨?_, fun _ _ hs => ?_⟩, ?_, fun hs => ?_, fun _ hs => ?_⟩
    · show b.accepted = _ ++ b.queue.take _ ++ b.queue.drop _
      rw [honce, List.append_assoc, hsplit]
    · show (b.queue.take _).length ≤ maxBatch
      rw [List.length_take]
      omega
    · cases hs
      exact hitems
    · show (b.queue.drop _).length ≤ maxQueue
      rw [List.length_drop]
      have hroom := h.room
      omega
    · cases hs
    · rcases hs with hs | hs
      · cases hs
      · cases hs
        exact hstop rfl

theorem Whole.exported (h : Whole b) {items : List α} {draining : Bool} {err : Option String}
    (hl : b.loop = .sending items draining) : Whole (b.exported items draining err) := by
  have honce := h.once
  have hhand := h.hand
  simp only [inHand, hl] at honce hhand
  have hstop : draining = true → b.stop = true := fun hd =>
    h.draining items (Or.inr (by rw [hl, hd]))
  refine ⟨?_, fun batch hb => ?_, ?_, h.room, fun hs => ?_, fun _ hs => ?_⟩
  · have hnone : (b.exported items draining err).inHand = [] := by
      cases draining <;> rfl
    rw [hnone]
    simpa [Batcher.exported] using honce
  · rcases List.mem_append.mp hb with hb | hb
    · exact h.batches batch hb
    · obtain rfl := List.mem_singleton.mp hb
      exact ⟨hhand.2 items draining rfl, hhand.1⟩
  · cases draining
    · exact ⟨Nat.zero_le _, fun _ _ hs => by cases hs⟩
    · exact ⟨Nat.zero_le _, fun _ _ hs => by cases hs⟩
  · cases draining <;> cases hs
  · cases draining
    · rcases hs with hs | hs <;> cases hs
    · exact hstop rfl

/-- The batches that failed, and how many items were in them. -/
def failed (b : Batcher α) : Share :=
  b.sent.foldr (fun batch total => Share.add
    (if batch.2.isSome then ⟨1, batch.1.length⟩ else .zero) total) .zero

theorem failed_exported (b : Batcher α) (items : List α) (draining : Bool) (err : Option String) :
    (b.exported items draining err).failed =
      b.failed.add (if err.isSome then ⟨1, items.length⟩ else .zero) := by
  show List.foldr _ _ (b.sent ++ [(items, err)]) = _
  rw [failed]
  induction b.sent with
  | nil => simp
  | cons batch sent ih => rw [List.cons_append, List.foldr_cons, List.foldr_cons, ih,
      Share.add_assoc]

end Batcher

/-! ## Every run -/

namespace Exporter

variable {α : Type} {e e' : Exporter α} {s : Signal} {b b' : Batcher α}

structure Inv (e : Exporter α) : Prop where
  whole : ∀ s b, e.batchers s = some b → b.Whole
  even : e.failures.Even
  told : ∀ s : Signal, e.failures.answered s.name = (e.batchers s).elim .zero Batcher.failed
  finished : e.shutdown = .done → ∀ s b, e.batchers s = some b → b.loop = .done
  flushed : e.shutdown = .done → ∀ s : Signal, e.failures.pending s.name = .zero

theorem set_self : (e.set s b').batchers s = some b' := Function.update_self _ _ _

theorem set_of_ne {t : Signal} (h : t ≠ s) : (e.set s b').batchers t = e.batchers t :=
  Function.update_of_ne h _ _

theorem Inv.set (h : Inv e) (hb : e.batchers s = some b) (hwhole : b'.Whole)
    (hfailed : b'.failed = b.failed) (hloop : b.loop = .done → b'.loop = .done) :
    Inv (e.set s b') := by
  refine ⟨fun t c hc => ?_, h.even, fun t => ?_, fun hd t c hc => ?_, h.flushed⟩
  · by_cases ht : t = s
    · subst ht
      obtain rfl : b' = c := by simpa [set_self] using hc
      exact hwhole
    · exact h.whole t c (by rw [← set_of_ne ht]; exact hc)
  · by_cases ht : t = s
    · subst ht
      have htold := h.told t
      rw [hb] at htold
      rw [set_self, Option.elim_some, hfailed]
      exact htold
    · rw [set_of_ne ht]
      exact h.told t
  · by_cases ht : t = s
    · subst ht
      obtain rfl : b' = c := by simpa [set_self] using hc
      exact hloop (h.finished hd t b hb)
    · exact h.finished hd t c (by rw [← set_of_ne ht]; exact hc)

theorem name_ne {t : Signal} (h : t ≠ s) : t.name ≠ s.name := by
  cases s <;> cases t <;> simp_all [Signal.name]

theorem failed_report (t : Signal) (items : List α) (err : Option String) (now : Int) :
    Otlp.failed t.name [(now, report s items err)] =
      if t = s ∧ err.isSome then ⟨1, items.length⟩ else .zero := by
  cases err with
  | none => simp [report, Otlp.failed]
  | some err =>
    by_cases ht : t = s
    · subst ht
      simp [report, Otlp.failed, exportFailed]
    · have hne : ¬ s.name = t.name := fun heq => name_ne ht heq.symm
      simp [report, Otlp.failed, hne, ht]

theorem Inv.exported (h : Inv e) {items : List α} {draining : Bool} {err : Option String}
    {now : Int} (hb : e.batchers s = some b) (hl : b.loop = .sending items draining) :
    Inv { e.set s (b.exported items draining err) with
      failures := e.failures.call (now, report s items err) } := by
  have hopen : e.shutdown ≠ .done := by
    intro hd
    have hdone := h.finished hd s b hb
    rw [hl] at hdone
    cases hdone
  refine ⟨fun t c hc => ?_, h.even.call _, fun t => ?_, fun hd => absurd hd hopen,
    fun hd => absurd hd hopen⟩
  · by_cases ht : t = s
    · subst ht
      obtain rfl : b.exported items draining err = c := by simpa [set_self] using hc
      exact (h.whole t b hb).exported hl
    · exact h.whole t c (by rw [← set_of_ne ht]; exact hc)
  · show Reporter.answered _ _ = ((e.set s (b.exported items draining err)).batchers t).elim _ _
    rw [Reporter.answered_call h.even, h.told t, failed_report]
    by_cases ht : t = s
    · subst ht
      rw [set_self, hb, Option.elim_some, Option.elim_some, Batcher.failed_exported]
      simp
    · rw [set_of_ne ht]
      simp [ht]

theorem Inv.step (h : Inv e) {ev : ExportEvent α} (hstep : e.step ev = some e') : Inv e' := by
  cases ev with
  | add s item =>
    simp only [Exporter.step] at hstep
    split at hstep <;> cases hstep
    · exact h
    · next b hb =>
      refine h.set hb ((h.whole s b hb).add item) ?_ fun hd => ?_
      · unfold Batcher.add
        split
        · rfl
        · split <;> rfl
      · unfold Batcher.add
        split
        · exact hd
        · split <;> exact hd
  | wake s =>
    simp only [Exporter.step] at hstep
    split at hstep
    · next b hb =>
      split at hstep <;> cases hstep
      exact h.set hb ((h.whole s b hb).signal fun hs => hs) rfl fun hd => hd
    · cases hstep
  | tick s =>
    simp only [Exporter.step] at hstep
    split at hstep
    · next b hb =>
      split at hstep <;> cases hstep
      next hl =>
        exact h.set hb ((h.whole s b hb).leave hl (by simp)) rfl fun hd => by
          rw [hl] at hd
          cases hd
    · cases hstep
  | woken s =>
    simp only [Exporter.step] at hstep
    split at hstep
    · next b hb =>
      split at hstep <;> cases hstep
      next hl _ =>
        exact h.set hb ((h.whole s b hb).leave hl (by simp)) rfl fun hd => by
          rw [hl] at hd
          cases hd
    · cases hstep
  | stopped s =>
    simp only [Exporter.step] at hstep
    split at hstep
    · next b hb =>
      split at hstep <;> cases hstep
      next hl hs =>
        exact h.set hb ((h.whole s b hb).leave hl fun _ => hs) rfl fun hd => by
          rw [hl] at hd
          cases hd
    · cases hstep
  | take s =>
    simp only [Exporter.step] at hstep
    split at hstep
    · next b hb =>
      split at hstep <;> cases hstep
      next draining hl =>
        exact h.set hb ((h.whole s b hb).take hl) rfl fun hd => by
          rw [hl] at hd
          cases hd
    · cases hstep
  | exported s err now =>
    simp only [Exporter.step] at hstep
    split at hstep
    · next b hb =>
      split at hstep <;> cases hstep
      next items draining hl => exact h.exported hb hl
    · cases hstep
  | shutdown =>
    simp only [Exporter.step] at hstep
    split at hstep <;> cases hstep
    exact ⟨h.whole, h.even, h.told, fun hd => (by cases hd), fun hd => (by cases hd)⟩
  | closeStop s =>
    simp only [Exporter.step] at hstep
    split at hstep <;> cases hstep
    next b _ hb => exact h.set hb ((h.whole s b hb).signal fun _ => rfl) rfl fun hd => hd
  | deadline =>
    simp only [Exporter.step] at hstep
    split at hstep <;> cases hstep
    exact ⟨h.whole, h.even, h.told, fun hd => (by cases hd), fun hd => (by cases hd)⟩
  | flush now =>
    simp only [Exporter.step] at hstep
    split at hstep
    · split at hstep <;> cases hstep
      next hfin =>
        obtain ⟨htraces, hlogs⟩ := Bool.and_eq_true_iff.mp hfin
        refine ⟨h.whole, h.even.call (now, .flush), fun s => ?_, fun _ s b hb => ?_,
          fun _ s => Reporter.pending_flush h.even s.name now⟩
        · have hflush := Reporter.answered_call h.even s.name (now, .flush)
          rw [h.told s] at hflush
          refine hflush.trans ?_
          simp [Otlp.failed]
        · have hs : e.finished s = true := by cases s <;> assumption
          have hb' : e.batchers s = some b := hb
          simp only [Exporter.finished, hb'] at hs
          split at hs
          · next hl => exact hl
          · cases hs
    · cases hstep

theorem inv_of_reachable (h : Machine.Reachable (exporter α) e) : Inv e := by
  refine h.invariant ?_ fun s ev t hs he => hs.step he
  rintro e ⟨configured, rfl⟩
  refine ⟨fun s b hb => ?_, Reporter.even_init _, fun s => ?_, fun hd => (by cases hd),
    fun hd => (by cases hd)⟩
  · simp only [Option.ite_none_right_eq_some, Option.some.injEq] at hb
    rw [← hb.2]
    exact Batcher.whole_init
  · show Share.zero = (if configured s then some ({} : Batcher α) else none).elim _ _
    split <;> rfl

end Exporter

open Exporter

/-- In every run, what a queue took in is, in order, what was sent in batches, what is in
the goroutine's hand and what is queued; no batch is empty or over the limit, and nor is
the queue. -/
theorem exported_once {α : Type} {e : Exporter α} (h : Machine.Reachable (exporter α) e)
    {s : Signal} {b : Batcher α} (hb : e.batchers s = some b) :
    b.accepted = (b.sent.map Prod.fst).flatten ++ b.inHand ++ b.queue ∧
      (∀ batch ∈ b.sent, batch.1 ≠ [] ∧ batch.1.length ≤ maxBatch) ∧
      b.queue.length ≤ maxQueue := by
  have hwhole := (inv_of_reachable h).whole s b hb
  exact ⟨hwhole.once, hwhole.batches, hwhole.room⟩

theorem Exporter.step_done {α : Type} {e e' : Exporter α} (h : Inv e) (hd : e.shutdown = .done)
    {ev : ExportEvent α} (hstep : e.step ev = some e') :
    e'.shutdown = .done ∧ e'.failures = e.failures ∧
      ∀ s b', e'.batchers s = some b' →
        ∃ b, e.batchers s = some b ∧ b'.accepted = b.accepted ∧ b'.sent = b.sent := by
  have hloop := h.finished hd
  have hkept : ∀ {s : Signal} {b b' : Batcher α}, e.batchers s = some b →
      b'.accepted = b.accepted → b'.sent = b.sent →
      ∀ t c', (e.set s b').batchers t = some c' →
        ∃ c, e.batchers t = some c ∧ c'.accepted = c.accepted ∧ c'.sent = c.sent := by
    intro s b b' hb ha hs t c' hc
    by_cases ht : t = s
    · subst ht
      obtain rfl : b' = c' := by simpa [set_self] using hc
      exact ⟨b, hb, ha, hs⟩
    · exact ⟨c', by rw [← set_of_ne ht]; exact hc, rfl, rfl⟩
  cases ev with
  | add s item =>
    simp only [Exporter.step] at hstep
    split at hstep <;> cases hstep
    · exact ⟨hd, rfl, fun _ b' hb' => ⟨b', hb', rfl, rfl⟩⟩
    · next b hb =>
      have hstop := ((h.whole s b hb).drained (hloop s b hb)).1
      refine ⟨hd, rfl, hkept hb ?_ ?_⟩
      · rw [Batcher.add, if_pos hstop]
      · rw [Batcher.add, if_pos hstop]
  | wake s =>
    simp only [Exporter.step] at hstep
    split at hstep
    · next b hb =>
      split at hstep <;> cases hstep
      exact ⟨hd, rfl, hkept hb rfl rfl⟩
    · cases hstep
  | tick s | woken s | stopped s | take s | exported s =>
    simp only [Exporter.step] at hstep
    split at hstep
    · next b hb => rw [hloop s b hb] at hstep; cases hstep
    · cases hstep
  | shutdown | closeStop | deadline | flush =>
    simp only [Exporter.step, hd] at hstep
    cases hstep

/-- Once `Shutdown` is over, every item that was taken in has been sent, in order and in
one batch; each batch that failed is one the log tells of, in full or in a count; and
whatever happens after, that stays all. -/
theorem shutdown_settled {α : Type} {e e' : Exporter α} (h : Machine.Reachable (exporter α) e)
    (hd : e.shutdown = .done) {es : List (ExportEvent α)}
    (hrun : (exporter α).run e es = some e') {s : Signal} {b' : Batcher α}
    (hb' : e'.batchers s = some b') :
    (b'.sent.map Prod.fst).flatten = b'.accepted ∧
      shared s.name e'.failures.told = b'.failed ∧
      ∃ b, e.batchers s = some b ∧ b'.accepted = b.accepted := by
  induction es generalizing e with
  | nil =>
    cases hrun
    have hinv := inv_of_reachable h
    have hwhole := hinv.whole s b' hb'
    have hloop := hinv.finished hd s b' hb'
    refine ⟨?_, ?_, b', hb', rfl⟩
    · have honce := hwhole.once
      rw [(hwhole.drained hloop).2, Batcher.inHand, hloop] at honce
      simpa using honce.symm
    · have htold := hinv.told s
      rw [hb', Reporter.answered, hinv.flushed hd s, Share.add_zero] at htold
      exact htold
  | cons ev es ih =>
    obtain ⟨m, hm, hrest⟩ := Machine.run_cons hrun
    obtain ⟨hd', -, hkept⟩ := step_done (inv_of_reachable h) hd hm
    obtain ⟨hsent, htold, c, hc, hacc⟩ := ih (h.step hm) hd' hrest
    obtain ⟨b, hb, hsame, -⟩ := hkept s c hc
    exact ⟨hsent, htold, b, hb, hacc.trans hsame⟩

/-- Two items of one signal, in one batch that fails, and a shutdown. -/
def twoSpans : List (ExportEvent Nat) :=
  [.add .traces 1, .add .traces 2, .tick .traces, .take .traces, .exported .traces (some "down") 0,
    .shutdown, .closeStop .traces, .stopped .traces, .take .traces, .flush 1]

def tracesOnly : Exporter Nat := { batchers := fun s => if s = .traces then some {} else none }

theorem tracesOnly_init : (exporter Nat).init tracesOnly :=
  ⟨fun s => s = .traces, by simp [tracesOnly]⟩

theorem two_spans_once :
    ∃ b, ((exporter Nat).after tracesOnly twoSpans).batchers .traces = some b ∧
      b.accepted = (b.sent.map Prod.fst).flatten ++ b.inHand ++ b.queue := by
  have hrun : Machine.Reachable (exporter Nat) ((exporter Nat).after tracesOnly twoSpans) :=
    Machine.reachable_after tracesOnly_init rfl
  exact ⟨_, rfl, (exported_once (s := .traces) hrun rfl).1⟩

/-- A span that comes after the shutdown is not taken in. -/
theorem two_spans_settled :
    ∃ b', ((exporter Nat).after ((exporter Nat).after tracesOnly twoSpans)
        [.add .traces 3]).batchers .traces = some b' ∧
      (b'.sent.map Prod.fst).flatten = b'.accepted ∧
      ∃ b, ((exporter Nat).after tracesOnly twoSpans).batchers .traces = some b ∧
        b'.accepted = b.accepted := by
  have hrun : Machine.Reachable (exporter Nat) ((exporter Nat).after tracesOnly twoSpans) :=
    Machine.reachable_after tracesOnly_init rfl
  have hlate : (exporter Nat).run ((exporter Nat).after tracesOnly twoSpans) [.add .traces 3] =
      some _ := rfl
  have hsettled := shutdown_settled (s := .traces) hrun rfl hlate rfl
  exact ⟨_, rfl, hsettled.1, hsettled.2.2⟩

end LocalBase.Otlp
