import Mathlib.Algebra.Order.Ring.Nat
import Mathlib.Data.List.AList
import Mathlib.Data.List.Sort
import Mathlib.Tactic.Common

/-!
# Export failures, told once

While a channel fails, its failures are collapsed: the first of an outage is reported in
full, the ones after it are counted, and a summary says how many at most once per
interval. A recovery says what is still uncounted, and so does `Flush`.

`Settled` is what that comes to: at any point, every failure of a channel is one that was
reported in full, one that a summary or a recovery counted, or one that its outage still
holds. A `Told` keeps what the reporter knew when it called `diag`, and `diag` reads the
arguments of the call off it.
-/

namespace LocalBase.Otlp

/-- The values of a diagnostic's attributes. -/
inductive Value
  | str (s : String)
  | int (n : Int)
  deriving DecidableEq

abbrev Attrs := String → Option Value

structure Report where
  signal : String
  severity : String
  message : String
  summary : String := ""
  detail : String
  items : Int
  attrs : Attrs := fun _ => none

structure Outage where
  signal : String
  summary : String
  since : Int
  lastFailure : Int
  lastReport : Int
  detail : String
  latest : String
  failures : Nat
  suppressed : Nat
  suppressedIt : Int

/-- A call of `diag`. -/
inductive Told
  | full (channel : String) (rep : Report)
  | summary (channel : String) (o : Outage) (now : Int)
  | recovered (channel : String) (o : Outage) (now : Int)

/-- `attributes`, of an outage at a time. -/
def Outage.attributes (o : Outage) (now : Int) : Attrs :=
  let a : Attrs := fun
    | "signal" => some (.str o.signal)
    | "failingForMs" => some (.int ((now - o.since).tdiv 1000000))
    | "failures" => some (.int o.failures)
    | "suppressedFailures" => some (.int o.suppressed)
    | "detail" => some (.str o.detail)
    | _ => none
  let a := if 0 < o.suppressedIt then
    Function.update a "suppressedItems" (some (.int o.suppressedIt)) else a
  if o.latest ≠ o.detail then Function.update a "latestDetail" (some (.str o.latest)) else a

def Told.diag : Told → String × String × Attrs
  | .full _ rep =>
    (rep.severity, rep.message, fun k =>
      if k = "detail" then some (.str rep.detail)
      else (rep.attrs k).or (if k = "signal" then some (.str rep.signal) else none))
  | .summary _ o now => ("warn", o.summary, o.attributes now)
  | .recovered _ o now => ("info", "OTLP export recovered.", o.attributes now)

structure Reporter where
  /-- `Interval`, ten minutes unless a test sets it. -/
  interval : Int := 600000000000
  outages : AList fun _ : String => Outage := ∅
  told : List Told := []

namespace Reporter

def failing (r : Reporter) (channel : String) : Bool := (r.outages.lookup channel).isSome

def summarize (r : Reporter) (channel : String) (o : Outage) (now : Int) : Reporter :=
  { r with
    told := r.told ++ [.summary channel o now]
    outages := r.outages.insert channel
      { o with lastReport := now, suppressed := 0, suppressedIt := 0 } }

/-- An outage with no failure for a whole interval is over. -/
def lapse (r : Reporter) (channel : String) (now : Int) : Reporter :=
  match r.outages.lookup channel with
  | none => r
  | some o =>
    if r.interval ≤ now - o.lastFailure then
      let r := if 0 < o.suppressed then r.summarize channel o o.lastFailure else r
      { r with outages := r.outages.erase channel }
    else r

/-- An outage begins with `rep`. -/
def begin (r : Reporter) (channel : String) (rep : Report) (now : Int) : Reporter :=
  { r with
    told := r.told ++ [.full channel rep]
    outages := r.outages.insert channel
      { signal := rep.signal
        summary := if rep.summary = "" then "OTLP export still failing." else rep.summary
        since := now, lastFailure := now, lastReport := now
        detail := rep.detail, latest := rep.detail
        failures := 1, suppressed := 0, suppressedIt := 0 } }

def failure (r : Reporter) (channel : String) (rep : Report) (now : Int) : Reporter :=
  let r := r.lapse channel now
  match r.outages.lookup channel with
  | none => r.begin channel rep now
  | some o =>
    let o := { o with
      lastFailure := now
      failures := o.failures + 1
      suppressed := o.suppressed + 1
      suppressedIt := o.suppressedIt + rep.items
      latest := rep.detail }
    if r.interval ≤ now - o.lastReport then r.summarize channel o now
    else { r with outages := r.outages.insert channel o }

def recovered (r : Reporter) (channel : String) (now : Int) : Reporter :=
  match r.outages.lookup channel with
  | none => r
  | some o =>
    { r with
      outages := r.outages.erase channel
      told := r.told ++ [.recovered channel o now] }

/-- `Flush`, at one of its channels. -/
def flushOne (now : Int) (r : Reporter) (channel : String) : Reporter :=
  match r.outages.lookup channel with
  | none => r
  | some o => if 0 < o.suppressed then r.summarize channel o now else r

def flush (r : Reporter) (now : Int) : Reporter :=
  (r.outages.keys.mergeSort (fun a b => decide (a ≤ b))).foldl (flushOne now) r

end Reporter

/-- The calls that reach a reporter; each takes its lock. -/
inductive Call
  | failure (channel : String) (rep : Report)
  | recovered (channel : String)
  | flush

/-- A call, at the time the reporter reads for it. -/
def Reporter.call (r : Reporter) (c : Int × Call) : Reporter :=
  match c.2 with
  | .failure channel rep => r.failure channel rep c.1
  | .recovered channel => r.recovered channel c.1
  | .flush => r.flush c.1

def Reporter.calls (r : Reporter) (cs : List (Int × Call)) : Reporter := cs.foldl Reporter.call r

/-! ## Every failure is told once -/

/-- How many failures of a channel, and of how many items, something accounts for. -/
structure Share where
  failures : Nat
  items : Int
  deriving DecidableEq

namespace Share

def zero : Share := ⟨0, 0⟩

def add (a b : Share) : Share := ⟨a.failures + b.failures, a.items + b.items⟩

@[simp] theorem add_zero (a : Share) : a.add zero = a := by simp [add, zero]

@[simp] theorem zero_add (a : Share) : zero.add a = a := by simp [add, zero]

theorem add_assoc (a b c : Share) : (a.add b).add c = a.add (b.add c) := by
  simp [add, Nat.add_assoc, Int.add_assoc]

end Share

variable {channel : String} {c : String} {ts : List Told} {o : Outage}

/-- What a telling accounts for on a channel. -/
def Told.share (channel : String) : Told → Share
  | .full c rep => if c = channel then ⟨1, rep.items⟩ else .zero
  | .summary c o _ | .recovered c o _ =>
    if c = channel then ⟨o.suppressed, o.suppressedIt⟩ else .zero

def shared (channel : String) : List Told → Share
  | [] => .zero
  | t :: ts => (t.share channel).add (shared channel ts)

/-- What happens on a channel: its failures, and their items. -/
def failed (channel : String) : List (Int × Call) → Share
  | [] => .zero
  | (_, .failure c rep) :: cs =>
    (if c = channel then ⟨1, rep.items⟩ else Share.zero).add (failed channel cs)
  | _ :: cs => failed channel cs

theorem shared_append (ts us : List Told) :
    shared channel (ts ++ us) = (shared channel ts).add (shared channel us) := by
  induction ts with
  | nil => simp [shared]
  | cons t ts ih => rw [List.cons_append, shared, shared, ih, Share.add_assoc]

namespace Reporter

variable {r : Reporter} {now : Int}

/-- What a channel's outage still holds back. -/
def pending (r : Reporter) (channel : String) : Share :=
  match r.outages.lookup channel with
  | none => .zero
  | some o => ⟨o.suppressed, o.suppressedIt⟩

/-- What the reporter answers for on a channel. -/
def answered (r : Reporter) (channel : String) : Share :=
  (shared channel r.told).add (r.pending channel)

/-- An outage that holds no failure back holds no items back. -/
def Even (r : Reporter) : Prop :=
  ∀ c o, r.outages.lookup c = some o → o.suppressed = 0 → o.suppressedIt = 0

theorem pending_of_none (h : r.outages.lookup channel = none) : r.pending channel = .zero := by
  rw [pending, h]

theorem pending_of_some (h : r.outages.lookup channel = some o) :
    r.pending channel = ⟨o.suppressed, o.suppressedIt⟩ := by
  rw [pending, h]

theorem pending_insert :
    ({ r with outages := r.outages.insert c o, told := ts } : Reporter).pending channel =
      if channel = c then ⟨o.suppressed, o.suppressedIt⟩ else r.pending channel := by
  by_cases hc : channel = c
  · subst hc
    simp [pending]
  · simp [pending, AList.lookup_insert_ne hc, hc]

theorem pending_erase :
    ({ r with outages := r.outages.erase c, told := ts } : Reporter).pending channel =
      if channel = c then .zero else r.pending channel := by
  by_cases hc : channel = c
  · subst hc
    simp [pending]
  · simp [pending, AList.lookup_erase_ne hc, hc]

theorem Even.insert (h : Even r) (ho : o.suppressed = 0 → o.suppressedIt = 0) :
    Even { r with outages := r.outages.insert c o, told := ts } := by
  intro c' o' ho' hs
  by_cases hc : c' = c
  · subst hc
    obtain rfl : o = o' := by simpa using ho'
    exact ho hs
  · exact h c' o' (by simpa [AList.lookup_insert_ne hc] using ho') hs

theorem Even.erase (h : Even r) :
    Even { r with outages := r.outages.erase c, told := ts } := by
  intro c' o' ho' hs
  by_cases hc : c' = c
  · subst hc
    simp at ho'
  · exact h c' o' (by simpa [AList.lookup_erase_ne hc] using ho') hs

theorem answered_summarize (now : Int) (h : r.outages.lookup c = some o) :
    (r.summarize c o now).answered channel = r.answered channel := by
  rw [answered, answered, summarize, pending_insert]
  simp only [shared_append, shared, Told.share, Share.add_zero]
  by_cases hc : channel = c
  · subst hc
    rw [if_pos rfl, if_pos rfl, pending_of_some h]
    exact Share.add_zero _
  · rw [if_neg hc, if_neg (Ne.symm hc), Share.add_zero]

theorem Even.summarize (h : Even r) : Even (r.summarize c o now) :=
  h.insert fun _ => rfl

theorem answered_recovered (r : Reporter) (c : String) (now : Int) :
    (r.recovered c now).answered channel = r.answered channel := by
  unfold recovered
  cases ho : r.outages.lookup c with
  | none => rfl
  | some o =>
    simp only [answered, pending_erase, shared_append, shared, Told.share, Share.add_zero]
    by_cases hc : channel = c
    · subst hc
      rw [if_pos rfl, if_pos rfl, pending_of_some ho]
      exact Share.add_zero _
    · rw [if_neg hc, if_neg (Ne.symm hc), Share.add_zero]

theorem Even.recovered (h : Even r) : Even (r.recovered c now) := by
  unfold Reporter.recovered
  cases r.outages.lookup c with
  | none => exact h
  | some o => exact h.erase

theorem answered_lapse (h : Even r) (now : Int) (c : String) :
    (r.lapse c now).answered channel = r.answered channel := by
  unfold lapse
  cases ho : r.outages.lookup c with
  | none => rfl
  | some o =>
    simp only []
    split
    · split
      · rw [← answered_summarize o.lastFailure ho]
        simp only [answered, pending_erase]
        by_cases hc : channel = c
        · subst hc
          rw [if_pos rfl, summarize, pending_insert, if_pos rfl]
          rfl
        · rw [if_neg hc]
      · next hs =>
        have hzero : o.suppressed = 0 := Nat.eq_zero_of_not_pos hs
        simp only [answered, pending_erase]
        by_cases hc : channel = c
        · subst hc
          rw [if_pos rfl, pending_of_some ho, hzero, h channel o ho hzero]
          rfl
        · rw [if_neg hc]
    · rfl

theorem Even.lapse (h : Even r) (now : Int) (c : String) : Even (r.lapse c now) := by
  unfold Reporter.lapse
  cases r.outages.lookup c with
  | none => exact h
  | some o =>
    simp only []
    split
    · split
      · exact h.summarize.erase
      · exact h.erase
    · exact h

theorem interval_lapse (r : Reporter) (now : Int) (c : String) :
    (r.lapse c now).interval = r.interval := by
  unfold lapse
  cases r.outages.lookup c with
  | none => rfl
  | some o =>
    simp only []
    split
    · split <;> rfl
    · rfl

theorem answered_failure (h : Even r) (c : String) (rep : Report) :
    (r.failure c rep now).answered channel =
      (r.answered channel).add (if c = channel then ⟨1, rep.items⟩ else .zero) := by
  rw [← answered_lapse h now c, failure]
  generalize r.lapse c now = r'
  cases ho : r'.outages.lookup c with
  | none =>
    simp only [begin, answered, pending_insert, shared_append, shared, Told.share,
      Share.add_zero]
    by_cases hc : channel = c
    · subst hc
      rw [if_pos rfl, if_pos rfl, pending_of_none ho, Share.add_zero]
      exact Share.add_zero _
    · rw [if_neg hc, if_neg (Ne.symm hc), Share.add_zero, Share.add_zero]
  | some o =>
    simp only []
    split
    · simp only [summarize, answered, pending_insert, shared_append, shared, Told.share,
        Share.add_zero]
      by_cases hc : channel = c
      · subst hc
        rw [if_pos rfl, if_pos rfl, if_pos rfl, pending_of_some ho]
        simp [Share.add, Nat.add_assoc, Int.add_assoc]
      · rw [if_neg hc, if_neg (Ne.symm hc), if_neg (Ne.symm hc), Share.add_zero, Share.add_zero]
    · simp only [answered, pending_insert]
      by_cases hc : channel = c
      · subst hc
        rw [if_pos rfl, if_pos rfl, pending_of_some ho]
        simp [Share.add, Nat.add_assoc, Int.add_assoc]
      · rw [if_neg hc, if_neg (Ne.symm hc), Share.add_zero]

theorem Even.failure (h : Even r) (c : String) (rep : Report) : Even (r.failure c rep now) := by
  have hl := h.lapse now c
  rw [Reporter.failure]
  generalize r.lapse c now = r' at hl
  cases ho : r'.outages.lookup c with
  | none => exact hl.insert fun _ => rfl
  | some o =>
    simp only []
    split
    · exact hl.summarize
    · exact hl.insert fun hs => absurd hs (Nat.succ_ne_zero _)

theorem answered_flushOne (r : Reporter) (c : String) :
    (r.flushOne now c).answered channel = r.answered channel := by
  unfold flushOne
  cases ho : r.outages.lookup c with
  | none => rfl
  | some o =>
    simp only []
    split
    · exact answered_summarize now ho
    · rfl

theorem Even.flushOne (h : Even r) (c : String) : Even (r.flushOne now c) := by
  unfold Reporter.flushOne
  cases r.outages.lookup c with
  | none => exact h
  | some o =>
    simp only []
    split
    · exact h.summarize
    · exact h

theorem pending_flushOne (h : Even r) (c : String) :
    (r.flushOne now c).pending channel =
      if channel = c then .zero else r.pending channel := by
  unfold Reporter.flushOne
  cases ho : r.outages.lookup c with
  | none =>
    by_cases hc : channel = c
    · subst hc
      rw [if_pos rfl, pending_of_none ho]
    · rw [if_neg hc]
  | some o =>
    simp only []
    split
    · rw [summarize, pending_insert]
      rfl
    · next hs =>
      have hzero : o.suppressed = 0 := Nat.eq_zero_of_not_pos hs
      by_cases hc : channel = c
      · subst hc
        rw [if_pos rfl, pending_of_some ho, hzero, h channel o ho hzero]
        rfl
      · rw [if_neg hc]

theorem flush_fold (h : Even r) (channel : String) (keys : List String) :
    Even (keys.foldl (flushOne now) r) ∧
      (keys.foldl (flushOne now) r).answered channel = r.answered channel ∧
      (keys.foldl (flushOne now) r).pending channel =
        if channel ∈ keys then .zero else r.pending channel := by
  induction keys generalizing r with
  | nil => exact ⟨h, rfl, by simp⟩
  | cons c keys ih =>
    rw [List.foldl_cons]
    obtain ⟨heven, hanswered, hpending⟩ := ih (h.flushOne c)
    refine ⟨heven, hanswered.trans (answered_flushOne r c), ?_⟩
    rw [hpending, pending_flushOne h]
    by_cases hk : channel ∈ keys
    · rw [if_pos hk, if_pos (List.mem_cons_of_mem _ hk)]
    · by_cases hc : channel = c
      · subst hc
        rw [if_neg hk, if_pos rfl, if_pos List.mem_cons_self]
      · rw [if_neg hk, if_neg hc, if_neg (by simp [hk, hc])]

theorem pending_flush (h : Even r) (channel : String) (now : Int) :
    (r.flush now).pending channel = .zero := by
  rw [flush, (flush_fold h channel _).2.2]
  split
  · rfl
  · next hmem =>
    refine pending_of_none (AList.lookup_eq_none.mpr fun hin => hmem ?_)
    exact List.mem_mergeSort.mpr (AList.mem_keys.mp hin)

theorem Even.call (h : Even r) (c : Int × Call) : Even (r.call c) := by
  obtain ⟨now, c⟩ := c
  cases c with
  | failure c rep => exact h.failure c rep
  | recovered c => exact h.recovered
  | flush => exact (flush_fold h "" _).1

theorem answered_call (h : Even r) (channel : String) (c : Int × Call) :
    (r.call c).answered channel = (r.answered channel).add (failed channel [c]) := by
  obtain ⟨now, c⟩ := c
  cases c with
  | failure c rep =>
    rw [failed, failed, Share.add_zero]
    exact answered_failure h c rep
  | recovered c =>
    rw [failed, failed, Share.add_zero]
    · exact answered_recovered r c now
    · simp
  | flush =>
    rw [failed, failed, Share.add_zero]
    · exact (flush_fold h channel _).2.1
    · simp

theorem failed_cons (c : Int × Call) (cs : List (Int × Call)) :
    failed channel (c :: cs) = (failed channel [c]).add (failed channel cs) := by
  obtain ⟨now, c⟩ := c
  cases c <;> simp [failed]

theorem answered_calls (h : Even r) (channel : String) (cs : List (Int × Call)) :
    Even (r.calls cs) ∧
      (r.calls cs).answered channel = (r.answered channel).add (failed channel cs) := by
  induction cs generalizing r with
  | nil => exact ⟨h, (Share.add_zero _).symm⟩
  | cons c cs ih =>
    obtain ⟨heven, hanswered⟩ := ih (h.call c)
    refine ⟨heven, ?_⟩
    rw [Reporter.calls, List.foldl_cons]
    refine hanswered.trans ?_
    rw [answered_call h channel, Share.add_assoc, ← failed_cons]

theorem even_init (interval : Int) : Even { interval := interval } := by
  intro c o ho
  cases ho

end Reporter

/-- Whatever is called in whatever order and at whatever times, each failure of a channel,
and each of its items, is in one full report, or in the count of one summary or recovery,
or in what the channel's outage holds back; and a `Flush` leaves nothing held back. -/
theorem failures_told_once (interval : Int) (cs : List (Int × Call)) (now : Int)
    (channel : String) :
    let r : Reporter := Reporter.calls { interval := interval } cs
    (shared channel r.told).add (r.pending channel) = failed channel cs ∧
      shared channel (r.flush now).told = failed channel cs ∧
      (r.flush now).pending channel = .zero := by
  obtain ⟨heven, hanswered⟩ :=
    Reporter.answered_calls (Reporter.even_init interval) channel cs
  have hzero : Reporter.answered { interval := interval } channel = .zero := rfl
  rw [hzero, Share.zero_add] at hanswered
  have hpending := Reporter.pending_flush heven channel now
  refine ⟨hanswered, ?_, hpending⟩
  have hflush := Reporter.answered_call heven channel (now, .flush)
  simp only [Reporter.call, failed, Share.add_zero] at hflush
  rw [Reporter.answered, hpending, Share.add_zero] at hflush
  rw [hflush]
  exact hanswered

/-! ## And no oftener than the interval -/

namespace Reporter

variable {r : Reporter} {now t : Int}

def Tells (r : Reporter) (c : Int × Call) : Prop := (r.call c).told.length ≠ r.told.length

instance (r : Reporter) (c : Int × Call) : Decidable (r.Tells c) :=
  inferInstanceAs (Decidable (_ ≠ _))

/-- The channel failed and was told of at `t`, or later. -/
def Since (r : Reporter) (channel : String) (t : Int) : Prop :=
  ∃ o, r.outages.lookup channel = some o ∧ t ≤ o.lastFailure ∧ t ≤ o.lastReport

theorem since_insert (hf : t ≤ o.lastFailure) (hr : t ≤ o.lastReport) :
    Since { r with outages := r.outages.insert channel o, told := ts } channel t :=
  ⟨o, AList.lookup_insert _, hf, hr⟩

theorem Since.of_lookup {r' : Reporter} (h : Since r channel t)
    (hl : r'.outages.lookup channel = r.outages.lookup channel) : Since r' channel t := by
  obtain ⟨o, ho, hf, hr⟩ := h
  exact ⟨o, hl.trans ho, hf, hr⟩

theorem lookup_failure (rep : Report) (hc : channel ≠ c) :
    (r.failure c rep now).outages.lookup channel = r.outages.lookup channel := by
  have hlapse : (r.lapse c now).outages.lookup channel = r.outages.lookup channel := by
    unfold lapse
    cases r.outages.lookup c with
    | none => rfl
    | some o =>
      simp only []
      split
      · split
        · simp [summarize, AList.lookup_erase_ne hc, AList.lookup_insert_ne hc]
        · simp [AList.lookup_erase_ne hc]
      · rfl
  rw [← hlapse, failure]
  cases (r.lapse c now).outages.lookup c with
  | none => simp [begin, AList.lookup_insert_ne hc]
  | some o =>
    simp only []
    split <;> simp [summarize, AList.lookup_insert_ne hc]

/-- A failure that is told of begins the count again; one that is not leaves the time of
the last telling where it was. -/
theorem since_failure (rep : Report) (htell : Tells r (now, .failure channel rep)) :
    Since (r.failure channel rep now) channel now := by
  unfold Tells call at htell
  simp only [failure] at htell ⊢
  have hlapsed : (r.lapse channel now).outages.lookup channel = none ∨ r.lapse channel now = r := by
    unfold lapse
    cases r.outages.lookup channel with
    | none => exact Or.inr rfl
    | some o =>
      simp only []
      split
      · left
        simp
      · exact Or.inr rfl
  cases ho : (r.lapse channel now).outages.lookup channel with
  | none => exact since_insert (Int.le_refl _) (Int.le_refl _)
  | some o =>
    rcases hlapsed with hnone | hsame
    · rw [hnone] at ho
      cases ho
    · simp only [ho] at htell ⊢
      split
      · exact since_insert (Int.le_refl _) (Int.le_refl _)
      · next hearly =>
        rw [if_neg hearly, hsame] at htell
        exact absurd rfl htell

theorem Since.failure (h : Since r channel t) (rep : Report) (hnow : t ≤ now) :
    Since (r.failure channel rep now) channel t ∧
      (Tells r (now, .failure channel rep) → t + r.interval ≤ now) := by
  obtain ⟨o, ho, hf, hr⟩ := h
  by_cases hlapse : r.interval ≤ now - o.lastFailure
  · refine ⟨?_, fun _ => by omega⟩
    have hnone : (r.lapse channel now).outages.lookup channel = none := by
      simp [lapse, ho, hlapse]
    simp only [Reporter.failure, hnone]
    exact since_insert hnow hnow
  · have hsame : r.lapse channel now = r := by simp [lapse, ho, hlapse]
    unfold Tells call
    simp only [Reporter.failure, hsame, ho]
    split
    · next hdue => exact ⟨since_insert hnow hnow, fun _ => by omega⟩
    · exact ⟨since_insert hnow hr, fun htell => absurd rfl htell⟩

theorem Since.flush (h : Since r channel t) (hnow : t ≤ now) :
    Since (r.flush now) channel t := by
  unfold Reporter.flush
  generalize r.outages.keys.mergeSort _ = keys
  induction keys generalizing r with
  | nil => exact h
  | cons c keys ih =>
    rw [List.foldl_cons]
    refine ih ?_
    unfold flushOne
    cases hc : r.outages.lookup c with
    | none => exact h
    | some o =>
      simp only []
      split
      · by_cases hne : channel = c
        · subst hne
          obtain ⟨o', ho', hf, -⟩ := h
          obtain rfl : o = o' := Option.some.inj (hc.symm.trans ho')
          exact since_insert hf hnow
        · exact h.of_lookup (AList.lookup_insert_ne hne)
      · exact h

theorem interval_call (r : Reporter) (c : Int × Call) : (r.call c).interval = r.interval := by
  obtain ⟨now, c⟩ := c
  cases c with
  | failure c rep =>
    rw [← interval_lapse r now c]
    simp only [call, failure]
    cases (r.lapse c now).outages.lookup c with
    | none => rfl
    | some o =>
      simp only []
      split <;> rfl
  | recovered c =>
    simp only [call, recovered]
    cases r.outages.lookup c <;> rfl
  | flush =>
    simp only [call, flush]
    generalize r.outages.keys.mergeSort _ = keys
    induction keys generalizing r with
    | nil => rfl
    | cons c keys ih =>
      rw [List.foldl_cons, ih]
      unfold flushOne
      cases r.outages.lookup c with
      | none => rfl
      | some o =>
        simp only []
        split <;> rfl

theorem Since.call (h : Since r channel t) {c : Int × Call} (hnow : t ≤ c.1)
    (hkept : c.2 ≠ .recovered channel) : Since (r.call c) channel t := by
  obtain ⟨now, c⟩ := c
  cases c with
  | failure c rep =>
    by_cases hc : channel = c
    · subst hc
      exact (h.failure rep hnow).1
    · exact h.of_lookup (lookup_failure rep hc)
  | recovered c =>
    have hc : channel ≠ c := fun hc => hkept (by rw [hc])
    refine h.of_lookup ?_
    simp only [Reporter.call, Reporter.recovered]
    cases r.outages.lookup c with
    | none => rfl
    | some o => exact AList.lookup_erase_ne hc
  | flush => exact h.flush hnow

theorem Since.calls (h : Since r channel t) {cs : List (Int × Call)}
    (hnow : ∀ c ∈ cs, t ≤ c.1) (hkept : ∀ c ∈ cs, c.2 ≠ .recovered channel) :
    Since (r.calls cs) channel t ∧ (r.calls cs).interval = r.interval := by
  induction cs generalizing r with
  | nil => exact ⟨h, rfl⟩
  | cons c cs ih =>
    have hc := h.call (hnow c List.mem_cons_self) (hkept c List.mem_cons_self)
    obtain ⟨hsince, hinterval⟩ := ih hc (fun d hd => hnow d (List.mem_cons_of_mem _ hd))
      (fun d hd => hkept d (List.mem_cons_of_mem _ hd))
    exact ⟨hsince, hinterval.trans (interval_call r c)⟩

end Reporter

/-- Two failures of a channel that are both told of are an interval apart, whatever is
called in between, unless the channel recovers in between. -/
theorem tellings_apart {r : Reporter} {t₁ t₂ : Int} {a b : Report} {cs : List (Int × Call)}
    (hclock : ∀ c ∈ cs, t₁ ≤ c.1) (hlater : t₁ ≤ t₂)
    (hkept : ∀ c ∈ cs, c.2 ≠ .recovered channel)
    (hfirst : r.Tells (t₁, .failure channel a))
    (hsecond : ((r.call (t₁, .failure channel a)).calls cs).Tells (t₂, .failure channel b)) :
    t₁ + r.interval ≤ t₂ := by
  have hbegun : (r.call (t₁, .failure channel a)).Since channel t₁ :=
    Reporter.since_failure a hfirst
  obtain ⟨hsince, hinterval⟩ := hbegun.calls hclock hkept
  have hgap := (hsince.failure b hlater).2 hsecond
  rw [hinterval, Reporter.interval_call] at hgap
  exact hgap

theorem ten_minutes_apart : 0 + ({} : Reporter).interval ≤ 700000000000 := by
  let rep : Report := ⟨"traces", "warn", "OTLP export failed.", "", "down", 3, fun _ => none⟩
  exact @tellings_apart "traces" {} 0 700000000000 rep rep
    [(5, .failure "traces" rep), (6, .recovered "logs")] (by decide) (by decide) (by simp)
    (by decide) (by decide)

end LocalBase.Otlp
