import Mathlib.Data.List.Basic
import Mathlib.Data.List.Pairwise
import Mathlib.Logic.Function.Basic

/-!
# A runtime's queue of waiting requests

`queued[L]` and `waitQueue[L]` serve the LLM and the services alike: a FIFO of
requests, each with a one-slot channel its answer arrives on, and `wait`, the
caller's side, which takes an answer, the caller's cancellation or the queue
deadline, whichever the select picks. Every section here runs with the
runtime's lock held, except `receive`, which only takes from the channel.

A request is named by its place in the order of arrival, so the table of
requests is a function and the queue a list of names. Two lists are kept for
the record: `grants`, the leases in the order they were handed out, and `out`,
those not released yet.

`Sound` is the whole protocol between the two sides, and every section keeps
it: a channel is sent to at most once, a request with its answer is out of the
queue, and a lease exists exactly for the requests granted one, in the hands of
the caller or on its way back. Arrival order is one statement,
`(grants ++ queue)` is increasing: the queue is in order, and so are the
grants, and no request still waiting is older than one already granted.
-/

namespace LocalBase.Runtime

/-- The errors a request or a start ends with. -/
inductive Err
  | unavailable | unloading | queueFull | queueTimeout | canceled
  | memoryEmergency | startupFailed
  /-- An `AdmissionError`. -/
  | refused (permanent : Bool)
  /-- `runtime already has a memory reservation`. -/
  | alreadyReserved
  deriving DecidableEq, Repr

/-- Where the `Acquire` call behind a request is. -/
inductive Call
  /-- Not made yet. -/
  | absent
  /-- In `wait`'s select. -/
  | waiting
  /-- Cancelled with a lease already granted; its release is still to run. -/
  | givingBack
  /-- Returned, the lease released by `wait`. -/
  | gaveBack
  /-- Returned with the lease. -/
  | leased
  /-- Returned with an error. -/
  | errored (e : Err)
  deriving DecidableEq

/-- What `wait` returns on an answer. -/
def Call.ofAnswer : Option Err → Call
  | none => .leased
  | some e => .errored e

/-- A request waiting in a runtime's queue. -/
structure Queued (L : Type) where
  model : String
  key : String
  /-- The channel's slot: an answer is an error or none. -/
  ready : Option (Option Err) := none
  lease : Option L := none
  done : Bool := false
  /-- Its own backend start is running: the queue's deadline no longer
  applies. -/
  dispatching : Bool := false
  /-- How often the channel was sent to. -/
  sends : Nat := 0
  /-- The lease's `once`. -/
  released : Bool := false
  call : Call := .absent

structure WaitQueue (L : Type) where
  waiters : Nat → Queued L := fun _ => { model := "", key := "" }
  /-- The next request's name. -/
  arrived : Nat := 0
  queue : List Nat := []
  grants : List Nat := []
  out : List Nat := []

namespace WaitQueue

variable {L : Type}

def modify (q : WaitQueue L) (w : Nat) (f : Queued L → Queued L) :
    WaitQueue L :=
  { q with waiters := Function.update q.waiters w (f (q.waiters w)) }

/-- `newQueued` and the append in `Acquire`. -/
def push (q : WaitQueue L) (model key : String) : WaitQueue L :=
  { q with
    waiters := Function.update q.waiters q.arrived
      { model := model, key := key, call := .waiting }
    arrived := q.arrived + 1
    queue := q.queue ++ [q.arrived] }

/-- Drops `w` if it is still queued. -/
def remove (q : WaitQueue L) (w : Nat) : WaitQueue L :=
  { q with queue := q.queue.erase w }

/-- Sends `w` its answer. -/
def answer (q : WaitQueue L) (w : Nat) (err : Option Err) : WaitQueue L :=
  q.modify w fun r =>
    { r with done := true, ready := some err, sends := r.sends + 1 }

def fail (q : WaitQueue L) (w : Nat) (err : Err) : WaitQueue L :=
  (q.remove w).answer w (some err)

/-- Fails requests from the head while they match. -/
def failWhile (p : Queued L → Bool) (err : Err) :
    Nat → WaitQueue L → WaitQueue L
  | 0, q => q
  | n + 1, q =>
    match q.queue with
    | [] => q
    | w :: _ =>
      if p (q.waiters w) then failWhile p err n (q.fail w err) else q

/-- Fails the whole queue, from its head. -/
def failAll (q : WaitQueue L) (err : Err) : WaitQueue L :=
  failWhile (fun _ => true) err q.queue.length q

/-- Fails every request that matches, wherever it stands. -/
def failMatching (q : WaitQueue L) (p : Queued L → Bool) (err : Err) :
    WaitQueue L :=
  q.queue.foldl (fun q w => if p (q.waiters w) then q.fail w err else q) q

/-- Hands the head `w` its lease. -/
def grant (q : WaitQueue L) (w : Nat) (lease : L) : WaitQueue L :=
  { (({ q with queue := q.queue.tail } : WaitQueue L).modify w
      fun r => { r with lease := some lease }).answer w none with
    grants := q.grants ++ [w]
    out := q.out ++ [w] }

/-- A request's own switch begins. -/
def dispatch (q : WaitQueue L) (w : Nat) : WaitQueue L :=
  q.modify w fun r => { r with dispatching := true }

/-- `wait` takes the answer from the channel. -/
def receive (q : WaitQueue L) (w : Nat) : Option (WaitQueue L) :=
  match (q.waiters w).call, (q.waiters w).ready with
  | .waiting, some err =>
    some (q.modify w fun r =>
      { r with ready := none, call := .ofAnswer err })
  | _, _ => none

/-- `wait` sees its context done: the section's first half, before `pump`. A
lease granted meanwhile is noted and given back later. -/
def cancel (q : WaitQueue L) (w : Nat) : Option (WaitQueue L) :=
  match (q.waiters w).call with
  | .waiting =>
    let granted := (q.waiters w).done && (q.waiters w).lease.isSome
    some ((q.remove w).modify w fun r =>
      { r with call := if granted then .givingBack else .errored .canceled })
  | _ => none

/-- Whether the queue deadline ends the wait. -/
def timesOut (q : WaitQueue L) (w : Nat) : Bool :=
  !(q.waiters w).dispatching && !(q.waiters w).done

/-- The deadline's section, before `pump`, when it ends the wait. -/
def timeout (q : WaitQueue L) (w : Nat) : WaitQueue L :=
  (q.remove w).modify w fun r => { r with call := .errored .queueTimeout }

/-- `Lease.Release`, once. -/
def release (q : WaitQueue L) (w : Nat) : WaitQueue L :=
  { q.modify w fun r => { r with released := true } with
    out := q.out.erase w }

/-- `wait` returns after giving its lease back. -/
def giveBack (q : WaitQueue L) (w : Nat) : WaitQueue L :=
  (q.release w).modify w fun r => { r with call := .gaveBack }

end WaitQueue

/-! ## The protocol -/

/-- What a request's own record keeps. -/
structure Queued.Sound {L : Type} (r : Queued L) : Prop where
  sends : r.sends = if r.done then 1 else 0
  ready_done : r.done = false → r.ready = none
  lease_done : r.lease.isSome → r.done = true
  ready_lease : ∀ err, r.ready = some err → (err = none ↔ r.lease.isSome)
  answered : r.done = true → r.call = .waiting → r.ready.isSome
  leased : r.call = .leased ∨ r.call = .givingBack ∨ r.call = .gaveBack →
    r.lease.isSome
  errored : ∀ e, r.call = .errored e → r.lease = none
  released : r.released = true → r.call = .leased ∨ r.call = .gaveBack
  gave_back : r.call = .gaveBack → r.released = true

structure WaitQueue.Sound {L : Type} (q : WaitQueue L) : Prop where
  requests : ∀ w, (q.waiters w).Sound
  queued : ∀ w, w ∈ q.queue ↔
    (q.waiters w).done = false ∧ (q.waiters w).call = .waiting
  granted : ∀ w, w ∈ q.grants ↔ (q.waiters w).lease.isSome
  outstanding : ∀ w, w ∈ q.out ↔
    (q.waiters w).lease.isSome ∧ (q.waiters w).released = false
  out_nodup : q.out.Nodup
  ordered : (q.grants ++ q.queue).Pairwise (· < ·)
  named : ∀ w ∈ q.grants ++ q.queue, w < q.arrived
  fresh : ∀ w, q.arrived ≤ w ↔ (q.waiters w).call = .absent

namespace WaitQueue

variable {L : Type} {q : WaitQueue L} {w : Nat} {q' : WaitQueue L}

@[simp] theorem modify_queue (f : Queued L → Queued L) :
    (q.modify w f).queue = q.queue := rfl

@[simp] theorem modify_grants (f : Queued L → Queued L) :
    (q.modify w f).grants = q.grants := rfl

@[simp] theorem modify_out (f : Queued L → Queued L) :
    (q.modify w f).out = q.out := rfl

@[simp] theorem modify_arrived (f : Queued L → Queued L) :
    (q.modify w f).arrived = q.arrived := rfl

@[simp] theorem modify_self (f : Queued L → Queued L) :
    (q.modify w f).waiters w = f (q.waiters w) := Function.update_self _ _ _

theorem modify_of_ne {w' : Nat} (f : Queued L → Queued L) (h : w' ≠ w) :
    (q.modify w f).waiters w' = q.waiters w' := Function.update_of_ne h _ _

theorem Sound.queue_nodup (h : q.Sound) : q.queue.Nodup :=
  ((List.pairwise_append.mp h.ordered).2.1).imp Nat.ne_of_lt

theorem Sound.pending (h : q.Sound) (hw : w ∈ q.queue) :
    (q.waiters w).sends = 0 ∧ (q.waiters w).ready = none ∧
      (q.waiters w).lease = none ∧ (q.waiters w).released = false := by
  obtain ⟨hd, hc⟩ := (h.queued w).mp hw
  have hr := h.requests w
  refine ⟨by rw [hr.sends, hd]; rfl, hr.ready_done hd, ?_, ?_⟩
  · cases hl : (q.waiters w).lease with
    | none => rfl
    | some l => rw [hr.lease_done (by rw [hl]; rfl)] at hd; cases hd
  · cases hrel : (q.waiters w).released with
    | false => rfl
    | true => rcases hr.released hrel with h' | h' <;> rw [hc] at h' <;> cases h'

theorem Sound.rewrite (h : q.Sound) {f : Queued L → Queued L}
    {l : List Nat} (hl : l.Sublist q.queue) (hs : (f (q.waiters w)).Sound)
    (hlease : (f (q.waiters w)).lease = (q.waiters w).lease)
    (hrel : (f (q.waiters w)).released = (q.waiters w).released)
    (hf : (f (q.waiters w)).call = .absent ↔ (q.waiters w).call = .absent)
    (hothers : ∀ w', w' ≠ w → (w' ∈ l ↔ w' ∈ q.queue))
    (hq : w ∈ l ↔ (f (q.waiters w)).done = false ∧
      (f (q.waiters w)).call = .waiting) :
    Sound { q.modify w f with queue := l } := by
  have hw' : ∀ w', w' ≠ w → (q.modify w f).waiters w' = q.waiters w' :=
    fun w' hne => modify_of_ne f hne
  refine ⟨?_, ?_, ?_, ?_, h.out_nodup, ?_, ?_, ?_⟩
  · intro w'
    by_cases hne : w' = w
    · subst hne; simpa using hs
    · simpa [hw' w' hne] using h.requests w'
  · intro w'
    show w' ∈ l ↔ _
    by_cases hne : w' = w
    · subst hne; simpa using hq
    · rw [hothers w' hne]
      simpa [hw' w' hne] using h.queued w'
  · intro w'
    by_cases hne : w' = w
    · subst hne; simpa [hlease] using h.granted w'
    · simpa [hw' w' hne] using h.granted w'
  · intro w'
    by_cases hne : w' = w
    · subst hne; simpa [hlease, hrel] using h.outstanding w'
    · simpa [hw' w' hne] using h.outstanding w'
  · exact h.ordered.sublist (List.Sublist.append_left hl _)
  · intro w' hmem
    rcases List.mem_append.mp hmem with hg | hq'
    · exact h.named w' (List.mem_append_left _ hg)
    · exact h.named w' (List.mem_append_right _ (hl.subset hq'))
  · intro w'
    by_cases hne : w' = w
    · subst hne; simpa [hf] using h.fresh w'
    · simpa [hw' w' hne] using h.fresh w'

/-- A request with no answer and no lease is sound whatever its call says,
short of having returned with a lease. -/
theorem Sound.unanswered {r : Queued L} (hs : r.sends = 0)
    (hd : r.done = false) (hr : r.ready = none) (hl : r.lease = none)
    (hrel : r.released = false)
    (hc : r.call = .absent ∨ r.call = .waiting ∨ ∃ e, r.call = .errored e) :
    r.Sound := by
  have hno : ¬ (r.call = .leased ∨ r.call = .givingBack ∨ r.call = .gaveBack) := by
    rintro (h | h | h) <;> rw [h] at hc <;> simp at hc
  refine ⟨by simp [hs, hd], fun _ => hr, by simp [hl], by simp [hr],
    by simp [hd], fun h => absurd h hno, fun _ _ => hl, by simp [hrel],
    fun h => absurd (Or.inr (Or.inr h)) hno⟩

theorem sound_empty : Sound ({} : WaitQueue L) where
  requests _ := Sound.unanswered rfl rfl rfl rfl rfl (Or.inl rfl)
  queued := by simp
  granted := by simp
  outstanding := by simp
  out_nodup := List.nodup_nil
  ordered := List.Pairwise.nil
  named := by simp
  fresh _ := iff_of_true (Nat.zero_le _) rfl

theorem Sound.push (h : q.Sound) (model key : String) :
    (q.push model key).Sound := by
  have hself : (q.push model key).waiters q.arrived =
      { model := model, key := key, call := .waiting } := Function.update_self _ _ _
  have hne : ∀ w, w ≠ q.arrived →
      (q.push model key).waiters w = q.waiters w :=
    fun w hw => Function.update_of_ne hw _ _
  have hgrants : q.arrived ∉ q.grants := fun hm =>
    Nat.lt_irrefl _ (h.named _ (List.mem_append_left _ hm))
  have hout : q.arrived ∉ q.out := fun hm =>
    hgrants ((h.granted _).mpr ((h.outstanding _).mp hm).1)
  have hqueue : q.arrived ∉ q.queue := fun hm =>
    Nat.lt_irrefl _ (h.named _ (List.mem_append_right _ hm))
  refine ⟨?_, ?_, ?_, ?_, h.out_nodup, ?_, ?_, ?_⟩
  · intro w
    by_cases hw : w = q.arrived
    · subst hw
      rw [hself]
      exact Sound.unanswered rfl rfl rfl rfl rfl (Or.inr (Or.inl rfl))
    · rw [hne w hw]
      exact h.requests w
  · intro w
    show w ∈ q.queue ++ [q.arrived] ↔ _
    rw [List.mem_append, List.mem_singleton]
    by_cases hw : w = q.arrived
    · subst hw
      rw [hself]
      exact iff_of_true (Or.inr rfl) ⟨rfl, rfl⟩
    · rw [hne w hw]
      simpa [hw] using h.queued w
  · intro w
    by_cases hw : w = q.arrived
    · subst hw
      rw [hself]
      exact iff_of_false hgrants (by simp)
    · rw [hne w hw]
      exact h.granted w
  · intro w
    by_cases hw : w = q.arrived
    · subst hw
      rw [hself]
      exact iff_of_false hout (by simp)
    · rw [hne w hw]
      exact h.outstanding w
  · show (q.grants ++ (q.queue ++ [q.arrived])).Pairwise (· < ·)
    rw [← List.append_assoc, List.pairwise_append]
    refine ⟨h.ordered, List.pairwise_singleton _ _, ?_⟩
    intro a ha b hb
    rw [List.mem_singleton.mp hb]
    exact h.named a ha
  · intro w hmem
    have hmem' : w ∈ (q.grants ++ q.queue) ++ [q.arrived] := by
      rw [List.append_assoc]
      exact hmem
    rcases List.mem_append.mp hmem' with hm | hm
    · exact Nat.lt_succ_of_lt (h.named w hm)
    · rw [List.mem_singleton.mp hm]
      exact Nat.lt_succ_self _
  · intro w
    show q.arrived + 1 ≤ w ↔ _
    by_cases hw : w = q.arrived
    · subst hw
      rw [hself]
      exact iff_of_false (Nat.not_succ_le_self _) (by simp)
    · rw [hne w hw, ← h.fresh w]
      omega

theorem Sound.fail (h : q.Sound) (hw : w ∈ q.queue) (e : Err) :
    (q.fail w e).Sound := by
  obtain ⟨hs, hr, hl, hrel⟩ := h.pending hw
  obtain ⟨hd, hc⟩ := (h.queued w).mp hw
  refine h.rewrite (w := w) (l := q.queue.erase w)
    (f := fun r => { r with
      done := true, ready := some (some e), sends := r.sends + 1 })
    List.erase_sublist ?_ rfl rfl Iff.rfl
    (fun _ hne => List.mem_erase_of_ne hne) ?_
  · refine ⟨by simp [hs], by simp, by simp, by simp [hl], by simp, ?_, ?_, ?_, ?_⟩
    · simp [hc]
    · simp [hc]
    · simp [hrel]
    · simp [hc]
  · exact iff_of_false h.queue_nodup.not_mem_erase (by simp)

theorem Sound.grant (h : q.Sound) {rest : List Nat}
    (hq : q.queue = w :: rest) (lease : L) : (q.grant w lease).Sound := by
  have hw : w ∈ q.queue := by rw [hq]; exact List.mem_cons_self
  obtain ⟨hs, hr, hl, hrel⟩ := h.pending hw
  obtain ⟨hd, hc⟩ := (h.queued w).mp hw
  have hself : (q.grant w lease).waiters w =
      { q.waiters w with
        lease := some lease, done := true, ready := some none
        sends := (q.waiters w).sends + 1 } := by
    simp [WaitQueue.grant, WaitQueue.answer]
  have hne : ∀ w', w' ≠ w → (q.grant w lease).waiters w' = q.waiters w' := by
    intro w' hw'
    simp [WaitQueue.grant, WaitQueue.answer, modify_of_ne _ hw']
  have hqueue : (q.grant w lease).queue = rest := by
    simp [WaitQueue.grant, WaitQueue.answer, hq]
  have hlists : (q.grant w lease).grants ++ (q.grant w lease).queue =
      q.grants ++ q.queue := by
    rw [hqueue, hq]
    simp [WaitQueue.grant, WaitQueue.answer]
  have hnodup := h.queue_nodup
  rw [hq, List.nodup_cons] at hnodup
  have hout : w ∉ q.out := fun hm => by
    have := ((h.outstanding w).mp hm).1
    rw [hl] at this
    cases this
  refine ⟨?_, ?_, ?_, ?_, ?_, by rw [hlists]; exact h.ordered,
    by rw [hlists]; exact h.named, ?_⟩
  · intro w'
    by_cases hw' : w' = w
    · subst hw'
      rw [hself]
      refine ⟨by simp [hs], by simp, by simp, by simp, by simp, by simp, ?_, ?_, ?_⟩
      · simp [hc]
      · simp [hrel]
      · simp [hc]
    · rw [hne w' hw']
      exact h.requests w'
  · intro w'
    rw [hqueue]
    by_cases hw' : w' = w
    · subst hw'
      rw [hself]
      exact iff_of_false hnodup.1 (by simp)
    · rw [hne w' hw', ← h.queued w', hq, List.mem_cons]
      simp [hw']
  · intro w'
    show w' ∈ q.grants ++ [w] ↔ _
    rw [List.mem_append, List.mem_singleton]
    by_cases hw' : w' = w
    · subst hw'; simp [hself]
    · rw [hne w' hw']
      simpa [hw'] using h.granted w'
  · intro w'
    show w' ∈ q.out ++ [w] ↔ _
    rw [List.mem_append, List.mem_singleton]
    by_cases hw' : w' = w
    · subst hw'; simp [hself, hrel]
    · rw [hne w' hw']
      simpa [hw'] using h.outstanding w'
  · show (q.out ++ [w]).Nodup
    rw [List.nodup_append]
    refine ⟨h.out_nodup, List.pairwise_singleton _ _, ?_⟩
    intro a ha b hb hab
    rw [List.mem_singleton.mp hb] at hab
    exact hout (hab ▸ ha)
  · intro w'
    show q.arrived ≤ w' ↔ _
    rw [h.fresh w']
    by_cases hw' : w' = w
    · subst hw'; rw [hself]
    · rw [hne w' hw']

theorem Sound.dispatch (h : q.Sound) : (q.dispatch w).Sound := by
  have hr := h.requests w
  exact h.rewrite (w := w) (f := fun r => { r with dispatching := true })
    (l := q.queue) (List.Sublist.refl _)
    ⟨hr.sends, hr.ready_done, hr.lease_done, hr.ready_lease, hr.answered,
      hr.leased, hr.errored, hr.released, hr.gave_back⟩ rfl rfl Iff.rfl
    (fun _ _ => Iff.rfl) (h.queued w)

theorem Sound.call_of_lease (h : q.Sound) (hl : (q.waiters w).lease.isSome) :
    ((q.waiters w).call = .waiting ∧ (q.waiters w).ready = some none) ∨
      (q.waiters w).call = .leased ∨ (q.waiters w).call = .givingBack ∨
      (q.waiters w).call = .gaveBack := by
  have hr := h.requests w
  cases hc : (q.waiters w).call with
  | absent =>
    have hlt := h.named w (List.mem_append_left _ ((h.granted w).mpr hl))
    exact absurd ((h.fresh w).mpr hc) (Nat.not_le.mpr hlt)
  | waiting =>
    obtain ⟨err, herr⟩ :=
      Option.isSome_iff_exists.mp (hr.answered (hr.lease_done hl) hc)
    rw [herr, (hr.ready_lease err herr).mpr hl]
    exact Or.inl ⟨rfl, rfl⟩
  | givingBack => exact Or.inr (Or.inr (Or.inl rfl))
  | gaveBack => exact Or.inr (Or.inr (Or.inr rfl))
  | leased => exact Or.inr (Or.inl rfl)
  | errored e =>
    rw [hr.errored e hc] at hl
    cases hl

theorem Sound.receive (h : q.Sound) (hq : q.receive w = some q') : q'.Sound := by
  unfold WaitQueue.receive at hq
  split at hq
  · next err hcall hready =>
    cases hq
    have hr := h.requests w
    have hdone : (q.waiters w).done = true := by
      cases hd : (q.waiters w).done with
      | true => rfl
      | false => rw [hr.ready_done hd] at hready; cases hready
    have hlease := hr.ready_lease err hready
    refine h.rewrite (w := w) (l := q.queue) (f := fun r =>
      { r with ready := none, call := .ofAnswer err }) (List.Sublist.refl _)
      ?_ rfl rfl (by cases err <;> simp [Call.ofAnswer, hcall])
      (fun _ _ => Iff.rfl) ?_
    · refine ⟨hr.sends, fun hd => absurd hd (by simp [hdone]),
        hr.lease_done, by simp, ?_, ?_, ?_, ?_, ?_⟩
      · intro _ hc
        cases err <;> simp [Call.ofAnswer] at hc
      · cases err with
        | none => intro _; exact hlease.mp rfl
        | some e => simp [Call.ofAnswer]
      · intro e he
        cases err with
        | none => simp [Call.ofAnswer] at he
        | some e' => simpa using hlease
      · intro hrel
        rcases hr.released hrel with hc | hc <;> rw [hcall] at hc <;> cases hc
      · cases err <;> simp [Call.ofAnswer]
    · rw [h.queued w]
      simp [hdone]
  · cases hq

theorem Sound.cancel (h : q.Sound) (hq : q.cancel w = some q') : q'.Sound := by
  unfold WaitQueue.cancel at hq
  split at hq
  · next hcall =>
    cases hq
    have hr := h.requests w
    have hrel : (q.waiters w).released = false := by
      cases hrel : (q.waiters w).released with
      | false => rfl
      | true =>
        rcases hr.released hrel with hc | hc <;> rw [hcall] at hc <;> cases hc
    refine h.rewrite (w := w) (l := q.queue.erase w) (f := fun r => { r with
      call := if (q.waiters w).done && (q.waiters w).lease.isSome then .givingBack
        else .errored .canceled }) List.erase_sublist ?_ rfl rfl
      (by simp only [hcall]; split <;> simp)
      (fun _ hne => List.mem_erase_of_ne hne) ?_
    · refine ⟨hr.sends, hr.ready_done, hr.lease_done, hr.ready_lease,
        ?_, ?_, ?_, ?_, ?_⟩
      · intro _ hc
        simp only [] at hc
        split at hc <;> cases hc
      · intro hc
        simp only [] at hc
        split at hc
        · next hg =>
          simp only [Bool.and_eq_true] at hg
          exact hg.2
        · rcases hc with hc | hc | hc <;> cases hc
      · intro e he
        simp only [] at he
        split at he
        · cases he
        · next hg =>
          cases hl : (q.waiters w).lease with
          | none => rfl
          | some l => simp [hl, hr.lease_done (by rw [hl]; rfl)] at hg
      · intro hrel'
        rw [hrel] at hrel'
        cases hrel'
      · intro hc
        simp only [] at hc
        split at hc <;> cases hc
    · refine iff_of_false h.queue_nodup.not_mem_erase ?_
      simp only []
      split <;> simp
  · cases hq

theorem Sound.timeout (h : q.Sound) (hcall : (q.waiters w).call = .waiting)
    (ht : q.timesOut w = true) : (q.timeout w).Sound := by
  have hr := h.requests w
  have hd : (q.waiters w).done = false := by
    simp only [timesOut, Bool.and_eq_true, Bool.not_eq_true'] at ht
    exact ht.2
  have hl : (q.waiters w).lease = none := by
    cases hl : (q.waiters w).lease with
    | none => rfl
    | some l => rw [hr.lease_done (by rw [hl]; rfl)] at hd; cases hd
  have hrel : (q.waiters w).released = false := by
    cases hrel : (q.waiters w).released with
    | false => rfl
    | true => rcases hr.released hrel with hc | hc <;> rw [hcall] at hc <;> cases hc
  refine h.rewrite (w := w) (l := q.queue.erase w)
    (f := fun r => { r with call := .errored .queueTimeout })
    List.erase_sublist ?_ rfl rfl (by simp [hcall])
    (fun _ hne => List.mem_erase_of_ne hne) ?_
  · exact Sound.unanswered (by rw [hr.sends, hd]; rfl) hd (hr.ready_done hd) hl hrel
      (Or.inr (Or.inr ⟨_, rfl⟩))
  · exact iff_of_false h.queue_nodup.not_mem_erase (by simp)

theorem Sound.returnLease (h : q.Sound) {c : Call}
    (hl : (q.waiters w).lease.isSome)
    (hcall : (q.waiters w).call = .leased ∨ (q.waiters w).call = .givingBack)
    (hc : c = .leased ∨ c = .gaveBack) :
    Sound { q.modify w fun r => { r with released := true, call := c } with
      out := q.out.erase w } := by
  have hr := h.requests w
  have hdone := hr.lease_done hl
  have hne : ∀ w', w' ≠ w → (q.modify w fun r =>
      { r with released := true, call := c }).waiters w' = q.waiters w' :=
    fun w' hw' => modify_of_ne _ hw'
  refine ⟨?_, ?_, ?_, ?_, h.out_nodup.erase w, h.ordered, h.named, ?_⟩
  · intro w'
    by_cases hw' : w' = w
    · subst hw'
      simp only [modify_self]
      refine ⟨hr.sends, hr.ready_done, hr.lease_done, hr.ready_lease, ?_,
        fun _ => hl, ?_, fun _ => hc, fun _ => rfl⟩
      · intro _ hw
        rcases hc with rfl | rfl <;> cases hw
      · intro e he
        rcases hc with rfl | rfl <;> cases he
    · simpa only [hne w' hw'] using h.requests w'
  · intro w'
    show w' ∈ q.queue ↔ _
    rw [h.queued w']
    by_cases hw' : w' = w
    · subst hw'
      simp [hdone]
    · simp only [hne w' hw']
  · intro w'
    show w' ∈ q.grants ↔ _
    by_cases hw' : w' = w
    · subst hw'
      simpa only [modify_self] using h.granted w'
    · simpa only [hne w' hw'] using h.granted w'
  · intro w'
    show w' ∈ q.out.erase w ↔ _
    by_cases hw' : w' = w
    · subst hw'
      simp [h.out_nodup.not_mem_erase]
    · rw [List.mem_erase_of_ne hw']
      simpa only [hne w' hw'] using h.outstanding w'
  · intro w'
    show q.arrived ≤ w' ↔ _
    rw [h.fresh w']
    by_cases hw' : w' = w
    · subst hw'
      simp only [modify_self]
      rcases hcall with hcall | hcall <;> rcases hc with rfl | rfl <;>
        simp [hcall]
    · simp only [hne w' hw']

theorem Sound.release (h : q.Sound) (hc : (q.waiters w).call = .leased) :
    (q.release w).Sound := by
  have hr := h.requests w
  have hsame : q.release w = { q.modify w fun r =>
      { r with released := true, call := .leased } with out := q.out.erase w } := by
    simp only [WaitQueue.release, modify, ← hc]
  rw [hsame]
  exact h.returnLease (hr.leased (Or.inl hc)) (Or.inl hc) (Or.inl rfl)

theorem Sound.giveBack (h : q.Sound) (hc : (q.waiters w).call = .givingBack) :
    (q.giveBack w).Sound := by
  have hr := h.requests w
  have hsame : q.giveBack w = { q.modify w fun r =>
      { r with released := true, call := .gaveBack } with out := q.out.erase w } := by
    simp only [WaitQueue.giveBack, WaitQueue.release, modify, Function.update_self,
      Function.update_idem]
  rw [hsame]
  exact h.returnLease (hr.leased (Or.inr (Or.inl hc))) (Or.inr hc) (Or.inr rfl)

/-- A lease that is out is in the channel, with its caller, or about to be given
back. -/
theorem Sound.call_of_out (h : q.Sound) (hw : w ∈ q.out) :
    ((q.waiters w).call = .waiting ∧ (q.waiters w).ready = some none) ∨
      (q.waiters w).call = .leased ∨ (q.waiters w).call = .givingBack := by
  obtain ⟨hlease, hrel⟩ := (h.outstanding w).mp hw
  rcases h.call_of_lease hlease with hc | hc | hc | hc
  · exact Or.inl hc
  · exact Or.inr (Or.inl hc)
  · exact Or.inr (Or.inr hc)
  · rw [(h.requests w).gave_back hc] at hrel
    cases hrel

theorem Sound.out_of_givingBack (h : q.Sound)
    (hc : (q.waiters w).call = .givingBack) : w ∈ q.out := by
  have hr := h.requests w
  refine (h.outstanding w).mpr ⟨hr.leased (Or.inr (Or.inl hc)), ?_⟩
  cases hrel : (q.waiters w).released with
  | false => rfl
  | true => rcases hr.released hrel with hc' | hc' <;> rw [hc] at hc' <;> cases hc'

/-! ## Failing many requests -/

theorem Sound.failWhile (h : q.Sound) (p : Queued L → Bool) (err : Err)
    (n : Nat) : (failWhile p err n q).Sound := by
  induction n generalizing q with
  | zero => exact h
  | succ n ih =>
    simp only [WaitQueue.failWhile]
    split
    · exact h
    · next w rest hq =>
      split
      · exact ih (h.fail (by rw [hq]; exact List.mem_cons_self) err)
      · exact h

theorem Sound.failMatching (h : q.Sound) (p : Queued L → Bool) (err : Err) :
    (q.failMatching p err).Sound := by
  have hloop : ∀ (l : List Nat) (q : WaitQueue L), q.Sound → l.Nodup →
      (∀ w ∈ l, w ∈ q.queue) →
      (l.foldl (fun q w => if p (q.waiters w) then q.fail w err else q) q).Sound := by
    intro l
    induction l with
    | nil => intro q h _ _; exact h
    | cons w l ih =>
      intro q h hnd hsub
      rw [List.nodup_cons] at hnd
      rw [List.foldl_cons]
      split
      · refine ih _ (h.fail (hsub w List.mem_cons_self) err) hnd.2 ?_
        intro w' hw'
        have hne : w' ≠ w := by
          rintro rfl
          exact hnd.1 hw'
        show w' ∈ q.queue.erase w
        rw [List.mem_erase_of_ne hne]
        exact hsub w' (List.mem_cons_of_mem _ hw')
      · exact ih _ h hnd.2 fun w' hw' => hsub w' (List.mem_cons_of_mem _ hw')
  exact hloop q.queue q h h.queue_nodup fun w hw => hw

/-! ## What a section leaves alone -/

theorem receive_frame (h : q.receive w = some q') :
    q'.queue = q.queue ∧ q'.out = q.out := by
  unfold WaitQueue.receive at h
  split at h
  · cases h; exact ⟨rfl, rfl⟩
  · cases h

theorem cancel_frame (h : q.cancel w = some q') :
    q'.queue = q.queue.erase w ∧ q'.out = q.out := by
  unfold WaitQueue.cancel at h
  split at h
  · cases h; exact ⟨rfl, rfl⟩
  · cases h

theorem failWhile_frame (p : Queued L → Bool) (err : Err) (n : Nat)
    (q : WaitQueue L) : (failWhile p err n q).out = q.out ∧
      (failWhile p err n q).queue.Sublist q.queue := by
  induction n generalizing q with
  | zero => exact ⟨rfl, List.Sublist.refl _⟩
  | succ n ih =>
    simp only [WaitQueue.failWhile]
    split
    · exact ⟨rfl, List.Sublist.refl _⟩
    · next w rest hq =>
      split
      · exact ⟨(ih (q.fail w err)).1,
          (ih (q.fail w err)).2.trans List.erase_sublist⟩
      · exact ⟨rfl, List.Sublist.refl _⟩

theorem failAll_queue (q : WaitQueue L) (err : Err) :
    (q.failAll err).queue = [] := by
  have hloop : ∀ (n : Nat) (q : WaitQueue L), q.queue.length ≤ n →
      (failWhile (fun _ => true) err n q).queue = [] := by
    intro n
    induction n with
    | zero => intro q hn; exact List.eq_nil_of_length_eq_zero (Nat.le_zero.mp hn)
    | succ n ih =>
      intro q hn
      rw [WaitQueue.failWhile]
      split
      · next hq => exact hq
      · next w rest hq =>
        rw [if_pos rfl]
        refine ih _ ?_
        show (q.queue.erase w).length ≤ n
        rw [hq] at hn ⊢
        rw [List.erase_cons_head]
        exact Nat.le_of_succ_le_succ hn
  exact hloop _ q (Nat.le_refl _)

theorem failMatching_frame (p : Queued L → Bool) (err : Err) (q : WaitQueue L) :
    (q.failMatching p err).out = q.out ∧
      (q.failMatching p err).queue.Sublist q.queue := by
  have hloop : ∀ (l : List Nat) (q : WaitQueue L),
      (l.foldl (fun q w => if p (q.waiters w) then q.fail w err else q) q).out =
          q.out ∧
        (l.foldl (fun q w => if p (q.waiters w) then q.fail w err else q)
          q).queue.Sublist q.queue := by
    intro l
    induction l with
    | nil => intro q; exact ⟨rfl, List.Sublist.refl _⟩
    | cons w l ih =>
      intro q
      rw [List.foldl_cons]
      split
      · exact ⟨(ih (q.fail w err)).1,
          (ih (q.fail w err)).2.trans List.erase_sublist⟩
      · exact ih q
  exact hloop q.queue q

/-! ## What a caller sees -/

/-- A request's side of the protocol: an answer at most, and a granted lease
is with the caller or given back by `wait`, one of the two, as soon as its
call is neither waiting nor giving back. A call that ended in an error was
granted none. -/
structure Served (q : WaitQueue L) (w : Nat) : Prop where
  answered_once : (q.waiters w).sends ≤ 1
  waits : w ∈ q.queue ↔ (q.waiters w).sends = 0 ∧ (q.waiters w).call = .waiting
  in_channel : w ∈ q.grants → (q.waiters w).call = .waiting →
    (q.waiters w).ready = some none
  returned_or_released : w ∈ q.grants → (q.waiters w).call ≠ .waiting →
    Xor ((q.waiters w).call = .leased)
      ((q.waiters w).call = .givingBack ∨
        (q.waiters w).call = .gaveBack ∧ (q.waiters w).released = true)
  refused : w ∉ q.grants → (q.waiters w).call ≠ .leased ∧
    (q.waiters w).call ≠ .givingBack ∧ (q.waiters w).call ≠ .gaveBack
  errored : ∀ e, (q.waiters w).call = .errored e → w ∉ q.grants
  outstanding : w ∈ q.out ↔ w ∈ q.grants ∧ (q.waiters w).released = false

theorem Sound.served (h : q.Sound) (w : Nat) : q.Served w := by
  have hr := h.requests w
  refine ⟨?_, ?_, ?_, ?_, ?_, ?_, ?_⟩
  · rw [hr.sends]
    split <;> omega
  · rw [h.queued w, hr.sends]
    cases (q.waiters w).done <;> simp
  · intro hg hc
    rcases h.call_of_lease ((h.granted w).mp hg) with ⟨_, hready⟩ | hc' | hc' | hc'
    · exact hready
    all_goals rw [hc] at hc'; cases hc'
  · intro hg hc
    rcases h.call_of_lease ((h.granted w).mp hg) with ⟨hc', _⟩ | hc' | hc' | hc'
    · exact absurd hc' hc
    · exact Or.inl ⟨hc', by simp [hc']⟩
    · exact Or.inr ⟨Or.inl hc', by simp [hc']⟩
    · exact Or.inr ⟨Or.inr ⟨hc', hr.gave_back hc'⟩, by simp [hc']⟩
  · intro hg
    have hno : ∀ {c : Call}, (q.waiters w).call = c →
        ¬ (c = .leased ∨ c = .givingBack ∨ c = .gaveBack) := by
      intro c hc hor
      exact hg ((h.granted w).mpr (hr.leased (hc ▸ hor)))
    exact ⟨fun hc => hno hc (Or.inl rfl), fun hc => hno hc (Or.inr (Or.inl rfl)),
      fun hc => hno hc (Or.inr (Or.inr rfl))⟩
  · intro e he hg
    have hl := (h.granted w).mp hg
    rw [hr.errored e he] at hl
    cases hl
  · rw [h.outstanding w, h.granted w]

end WaitQueue

/-! ## Who is still waiting, and for what -/

/-- The requests of a queue that has only lost some: no new one, and each asks
for the model it asked for. -/
structure Thinner {L : Type} (q q' : WaitQueue L) : Prop where
  queue : q'.queue ⊆ q.queue
  model : ∀ w, (q'.waiters w).model = (q.waiters w).model

section Thinner

variable {L : Type} {q q' : WaitQueue L} {w : Nat} {err : Err}

theorem thinner_refl : Thinner q q := ⟨List.Subset.refl _, fun _ => rfl⟩

theorem Thinner.trans {q'' : WaitQueue L} (h : Thinner q q') (h' : Thinner q' q'') :
    Thinner q q'' :=
  ⟨fun _ hw => h.queue (h'.queue hw), fun w => (h'.model w).trans (h.model w)⟩

theorem Thinner.modify (h : Thinner q q') {f : Queued L → Queued L}
    (hf : ∀ r, (f r).model = r.model) : Thinner q (q'.modify w f) := by
  refine ⟨h.queue, fun w' => ?_⟩
  by_cases hw : w' = w
  · subst hw
    rw [WaitQueue.modify_self, hf, h.model]
  · rw [WaitQueue.modify_of_ne f hw, h.model]

theorem thinner_remove : Thinner q (q.remove w) := ⟨List.erase_subset, fun _ => rfl⟩

theorem thinner_fail : Thinner q (q.fail w err) := by
  unfold WaitQueue.fail WaitQueue.answer
  refine thinner_remove.modify (w := w) ?_
  exact fun _ => rfl

theorem thinner_failWhile {p : Queued L → Bool} {n : Nat} :
    Thinner q (WaitQueue.failWhile p err n q) := by
  induction n generalizing q with
  | zero => exact thinner_refl
  | succ n ih =>
    rw [WaitQueue.failWhile]
    split
    · exact thinner_refl
    · split
      · exact thinner_fail.trans ih
      · exact thinner_refl

theorem thinner_failMatching {p : Queued L → Bool} :
    Thinner q (q.failMatching p err) := by
  unfold WaitQueue.failMatching
  generalize q.queue = l
  induction l generalizing q with
  | nil => exact thinner_refl
  | cons w l ih =>
    rw [List.foldl_cons]
    refine Thinner.trans ?_ ih
    split
    · exact thinner_fail
    · exact thinner_refl

theorem thinner_grant {lease : L} : Thinner q (q.grant w lease) := by
  have htail : Thinner q { q with queue := q.queue.tail } :=
    ⟨fun _ hw => List.mem_of_mem_tail hw, fun _ => rfl⟩
  have hlease := htail.modify (w := w) (f := fun r => { r with lease := some lease })
    fun _ => rfl
  have hanswer := hlease.modify (w := w)
    (f := fun r => { r with done := true, ready := some none, sends := r.sends + 1 })
    fun _ => rfl
  exact ⟨hanswer.queue, hanswer.model⟩

theorem thinner_receive (h : q.receive w = some q') : Thinner q q' := by
  unfold WaitQueue.receive at h
  split at h
  · cases h
    refine thinner_refl.modify ?_
    exact fun _ => rfl
  · cases h

theorem thinner_cancel (h : q.cancel w = some q') : Thinner q q' := by
  unfold WaitQueue.cancel at h
  split at h
  · cases h
    refine thinner_remove.modify (w := w) ?_
    exact fun _ => rfl
  · cases h

theorem thinner_timeout : Thinner q (q.timeout w) := by
  refine thinner_remove.modify (w := w) ?_
  exact fun _ => rfl

theorem thinner_release : Thinner q (q.release w) := by
  have hmodify := thinner_refl.modify (q := q) (w := w)
    (f := fun r => { r with released := true }) fun _ => rfl
  exact ⟨hmodify.queue, hmodify.model⟩

theorem thinner_giveBack : Thinner q (q.giveBack w) := by
  refine thinner_release.modify (w := w) ?_
  exact fun _ => rfl

end Thinner

end LocalBase.Runtime
