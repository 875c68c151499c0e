import LocalBase.Runs.Output
import LocalBase.Runs.Stream

/-!
# A run that is over is seen to be over

A run is settled when its `done` is closed: by `finish`, or by `create` when
there was no memory for its body. A run that reached the queue has ended by
then, with a final status, the time and the end as its last event, and every
stream of it, wherever it stands, sends what it has yet to send and returns.

A run refused before the queue is settled without any of that. `create` takes it
out of the map, but a stream opened in between has no end to wait for.
-/

namespace LocalBase.Runs

open Machine Relation

/-- What a stream does by itself: nobody leaves, no write fails and no ticker
helps it along. -/
def StreamEvent.own : StreamEvent → Bool
  | .look | .send | .drained | .wake => true
  | .open .. | .sendFails | .ping | .leave => false

/-- What it can do next by itself. -/
def StreamPc.next : StreamPc → Option StreamEvent
  | .looking => some .look
  | .writing (_ :: _) _ _ _ => some .send
  | .writing [] _ _ _ => some .drained
  | .waiting _ => some .wake
  | .idle | .returned _ => none

namespace Manager

/-- One step of stream `i` by itself. -/
def Follows (i : Nat) (w w' : Manager) : Prop :=
  ∃ e : StreamEvent, e.own = true ∧ w.stepStream i e = some w'

/-- Left to itself, stream `i` goes on until it returns having found the end. -/
inductive FindsEnd (i : Nat) : Manager → Prop
  | returned {w : Manager} : (w.stream i).pc = .returned true → FindsEnd i w
  | follows {w : Manager} : (∃ w', w.Follows i w') → (∀ w', w.Follows i w' → FindsEnd i w') →
      FindsEnd i w

/-- Run `k` is over, and every stream of it that is still open comes to the end. -/
structure SeenOver (w : Manager) (k : Nat) : Prop where
  ended : (w.call k).run.Over
  streams : ∀ i, (w.stream i).run = k → (w.stream i).pc ≠ .idle →
    (w.stream i).pc ≠ .returned false → FindsEnd i w

/-! ## A stream of a run that is over -/

/-- Stream `i` follows a run that is over. -/
structure OnOver (w : Manager) (i : Nat) : Prop where
  streams : w.Streams
  sound : ∀ k, (w.call k).Sound
  ended : (w.call (w.stream i).run).run.Over
  unlocked : (w.call (w.stream i).run).locked = false

variable {w w' : Manager} {i : Nat} {notify : Nat} {e : StreamEvent} {pending : List RunEvent}

@[simp] theorem setStream_self {s : Stream} : (w.setStream i s).stream i = s :=
  Function.update_self ..

theorem next_of_own (he : e.own = true)
    (hs : w.stepStream i e = some w') : (w.stream i).pc.next = some e := by
  cases e with
  | «open» | sendFails | ping | leave => cases he
  | look | send | drained | wake =>
    simp only [stepStream] at hs
    split at hs
    · next hpc =>
      rw [hpc]
      rfl
    · cases hs

theorem FindsEnd.next (he : e.own = true) (hs : w.stepStream i e = some w')
    (h : FindsEnd i w') : FindsEnd i w := by
  refine .follows ⟨w', e, he, hs⟩ ?_
  rintro v ⟨e', he', hs'⟩
  have hsame := (next_of_own he hs).symm.trans (next_of_own he' hs')
  cases hsame
  rw [hs] at hs'
  cases hs'
  exact h

theorem stepStream_run (he : e.own = true) (hs : w.stepStream i e = some w') :
    (w'.stream i).run = (w.stream i).run := by
  cases e with
  | «open» | sendFails | ping | leave => cases he
  | look | wake =>
    simp only [stepStream] at hs
    split at hs
    · split at hs <;> cases hs
      rw [setStream_self]
    · cases hs
  | send | drained =>
    simp only [stepStream] at hs
    split at hs <;> cases hs
    rw [setStream_self]

theorem OnOver.step (h : w.OnOver i) (he : e.own = true)
    (hs : w.stepStream i e = some w') : w'.OnOver i := by
  have hrun := stepStream_run he hs
  have hstreams := h.streams.stream_step h.sound hs
  obtain ⟨s, rfl⟩ := stepStream_eq hs
  refine ⟨hstreams, h.sound, ?_, ?_⟩
  · rw [hrun]
    exact h.ended
  · rw [hrun]
    exact h.unlocked

theorem OnOver.fits (h : w.OnOver i) {pc : StreamPc} (hpc : (w.stream i).pc = pc)
    (hopen : pc ≠ .idle) : pc.Fits (w.call (w.stream i).run).run (w.stream i).after := by
  subst hpc
  exact (h.streams i hopen).pc

theorem OnOver.sends {total : Nat} {ended : Bool} (h : w.OnOver i)
    (hpc : (w.stream i).pc = .writing pending notify ended total)
    (hrest : ∀ v : Manager, v.OnOver i → (v.stream i).pc = .writing [] notify ended total →
      FindsEnd i v) : FindsEnd i w := by
  induction pending generalizing w with
  | nil => exact hrest w h hpc
  | cons e rest ih =>
    have hstep : w.stepStream i .send = some (w.setStream i { w.stream i with
        sent := (w.stream i).sent ++ [e], after := e.id
        pc := .writing rest notify ended total }) := by
      simp only [stepStream, hpc]
    have hon := h.step rfl hstep
    exact FindsEnd.next rfl hstep (ih hon (congrArg Stream.pc setStream_self))

theorem OnOver.writing_ended {total : Nat} (h : w.OnOver i)
    (hpc : (w.stream i).pc = .writing pending notify true total) : FindsEnd i w := by
  refine h.sends hpc fun v hv hempty => ?_
  have hpast : total ≤ (v.stream i).after := by
    obtain ⟨hle, _, hpending, _, _⟩ := hv.fits hempty (by simp)
    have hlen := congrArg List.length hpending
    simp only [List.length_nil, List.length_drop, List.length_take] at hlen
    omega
  have hstep : v.stepStream i .drained = some (v.setStream i { v.stream i with
      pc := .returned true }) := by
    simp only [stepStream, hempty, true_and, if_pos hpast]
  exact FindsEnd.next rfl hstep (.returned (congrArg Stream.pc setStream_self))

theorem OnOver.looking (h : w.OnOver i) (hpc : (w.stream i).pc = .looking) : FindsEnd i w := by
  obtain ⟨pending, notify, total, hstep⟩ : ∃ pending notify total, w.stepStream i .look =
      some (w.setStream i { w.stream i with pc := .writing pending notify true total }) := by
    simp only [stepStream, hpc, h.unlocked, Run.eventsAfter, h.ended.terminal, h.ended.endedAt,
      Bool.and_self]
    exact ⟨_, _, _, rfl⟩
  have hon := h.step rfl hstep
  exact FindsEnd.next rfl hstep (hon.writing_ended (congrArg Stream.pc setStream_self))

theorem OnOver.waiting (h : w.OnOver i)
    (hpc : (w.stream i).pc = .waiting notify) : FindsEnd i w := by
  obtain ⟨_, _, hwoken⟩ := h.fits hpc (by simp)
  have hbelow := hwoken h.ended.terminal
  rw [← (h.sound _).numbered.notify] at hbelow
  have hstep : w.stepStream i .wake = some (w.setStream i { w.stream i with pc := .looking }) := by
    simp only [stepStream, hpc, if_pos hbelow]
  have hon := h.step rfl hstep
  exact FindsEnd.next rfl hstep (hon.looking (congrArg Stream.pc setStream_self))

theorem OnOver.writing_live {total : Nat} (h : w.OnOver i)
    (hpc : (w.stream i).pc = .writing pending notify false total) : FindsEnd i w := by
  refine h.sends hpc fun v hv hempty => ?_
  have hstep : v.stepStream i .drained = some (v.setStream i { v.stream i with
      pc := .waiting notify }) := by
    simp only [stepStream, hempty, Bool.false_eq_true, false_and, if_false]
  have hon := hv.step rfl hstep
  exact FindsEnd.next rfl hstep (hon.waiting (congrArg Stream.pc setStream_self))

theorem OnOver.returns (h : w.OnOver i) (hopen : (w.stream i).pc ≠ .idle)
    (hhere : (w.stream i).pc ≠ .returned false) : FindsEnd i w := by
  cases hpc : (w.stream i).pc with
  | idle => exact absurd hpc hopen
  | looking => exact h.looking hpc
  | writing pending notify ended total =>
    cases ended with
    | true => exact h.writing_ended hpc
    | false => exact h.writing_live hpc
  | waiting notify => exact h.waiting hpc
  | returned ended =>
    cases ended with
    | true => exact .returned hpc
    | false => exact absurd hpc hhere

end Manager

/-! ## When a settled run has ended -/

/-- The inner request reached the queue, or there never was one. -/
def Call.Queued (c : Call) : Prop := c.run.queuedSeen = true ∨ c.inner = .none

/-- No inner request is settled that returned before it reached the queue. -/
def QueuedFirst (_ : Int) (c : Call) : CallEvent → Prop
  | .finish _ => c.run.queuedSeen = true
  | _ => True

instance decidableQueuedFirst (held : Int) (c : Call) (e : CallEvent) :
    Decidable (QueuedFirst held c e) :=
  match e with
  | .finish _ => inferInstanceAs (Decidable (c.run.queuedSeen = true))
  | .charge .. | .giveBack | .memoryFullError | .answer | .queued | .admitted _ | .finished _
  | .header _ | .writeHeader _ | .write _ | .wrote | .event | .charged | .returned | .finishBody
  | .finishRelease | .stop _ => isTrue trivial

namespace Call

variable {cfg : Config} {held n : Int} {c c' : Call} {e : CallEvent}

/-- A new run that is settled has ended exactly when it was not refused
before the queue. -/
theorem Sound.settled (h : c.Sound) (hnew : c.run.restored = false) (hd : 0 < c.run.done) :
    c.run.done = 1 ∧ (c.run.Over ↔ c.Queued) := by
  cases h.stage with
  | before _ _ hl | active _ _ hl =>
    rw [hl.done] at hd
    exact absurd hd (Nat.lt_irrefl 0)
  | refused hi hq _ ht _ hdone =>
    refine ⟨hdone, fun ho => ?_, fun hqueued => ?_⟩
    · rw [ho.terminal] at ht
      cases ht
    · rcases hqueued with hqueued | hnone
      · rw [hqueued] at hq
        cases hq
      · rw [hnone] at hi
        cases hi
  | ended hi _ ho hdone =>
    refine ⟨hdone, fun _ => ?_, fun _ => ho⟩
    rcases hi with ⟨hnone, _⟩ | ⟨_, hq, _⟩
    · exact Or.inr hnone
    · exact Or.inl hq
  | restored _ _ hres =>
    rw [hnew] at hres
    cases hres

theorem Sound.unlocked (h : c.Sound) (ho : c.run.Over) : c.locked = false := by
  by_contra hlocked
  have hwriting : c.writer.pc ≠ .idle := by
    intro hpc
    unfold locked at hlocked
    rw [hpc] at hlocked
    exact hlocked rfl
  have hl := (h.running (by rw [h.writing hwriting]; rfl)).live
  have ht := ho.terminal
  rw [hl.terminal] at ht
  cases ht

/-- The inner request was not refused before the queue. -/
structure NotRefused (c : Call) : Prop where
  sound : c.Sound
  settled : c.inner = .settled → c.run.queuedSeen = true

theorem Section.not_refused (h : c.NotRefused) (hg : QueuedFirst held c e)
    (hs : Section cfg held e c c' n) : c'.NotRefused := by
  refine ⟨hs.sound h.sound, fun hi => ?_⟩
  have hrunning : ∀ r : Run, c.inner = .running → c.inner = .settled → r.queuedSeen = true := by
    intro r hrun hsettled
    rw [hrun] at hsettled
    cases hsettled
  cases hs with
  | charge | unsized | refused | full | answer | refuse => exact h.settled hi
  | gaveBody | returned => cases hi
  | finishBody _ hinner => rcases hinner with rfl | rfl <;> cases hi
  | queued hh | admitted hh | finished hh | writer hh | body hh | error hh | past hh
  | charging hh => exact hrunning _ hh.inner hi
  | added hp | exceeding hp | stopping hp | uncharged hp | charged hp =>
    exact hrunning _ (h.sound.writing (by rw [hp]; simp)) hi
  | unseen => exact hg
  | ended _ hq => exact hq
  | finishRelease hr =>
    cases h.sound.stage with
    | before _ hn => rw [hr] at hn; cases hn
    | active ha => rw [hr] at ha; cases ha
    | refused hn => rw [hr] at hn; cases hn
    | ended hn =>
      rcases hn with ⟨hn, _⟩ | ⟨_, hq, _⟩
      · rw [hr] at hn
        cases hn
      · exact hq
    | restored hn => rw [hr] at hn; cases hn
  | stop => exact Run.still_stop.queuedSeen.trans (h.settled hi)

theorem NotRefused.queued (h : c.NotRefused) (hnew : c.run.restored = false)
    (hd : 0 < c.run.done) : c.Queued := by
  cases h.sound.stage with
  | refused hi => exact Or.inl (h.settled hi)
  | ended _ _ ho => exact (h.sound.settled hnew hd).2.mp ho
  | before _ _ hl | active _ _ hl =>
    rw [hl.done] at hd
    exact absurd hd (Nat.lt_irrefl 0)
  | restored _ _ hres =>
    rw [hnew] at hres
    cases hres

theorem not_refused_restored (h : c.Restored) : c.NotRefused :=
  ⟨sound_restored h, fun hi => by rw [h.inner] at hi; cases hi⟩

end Call

variable {cfg : Config} {w : Manager}

theorem Move.not_refused {c c' : Call} (h : c.NotRefused) (hm : Move cfg QueuedFirst c c') :
    c'.NotRefused := by
  refine ⟨hm.sound h.sound, fun hi => ?_⟩
  cases hm with
  | create => cases hi
  | «section» hg hs => exact ((Call.section_of_step hs).not_refused h hg).settled hi
  | publish => cases hi
  | stop => exact Run.still_stop.queuedSeen.trans (h.settled hi)
  | _ => exact h.settled hi

namespace Manager

theorem seen_over_iff (hw : w.Known) (hs : w.Streams) {k : Nat} :
    w.SeenOver k ↔ (w.call k).run.Over := by
  refine ⟨SeenOver.ended, fun ho => ⟨ho, ?_⟩⟩
  rintro i rfl hopen hhere
  exact OnOver.returns ⟨hs, hw.sound, ho, (hw.sound _).unlocked ho⟩ hopen hhere

/-- In every run of the manager in which no inner request is settled before it
reached the queue, every new run that is settled has ended, its `done` is closed
once, and every stream of it comes to the end. In any run of the manager it is
those that did reach the queue, or had no inner request, of which this holds. -/
theorem settled_runs_seen_over :
    (ReachesUnder (manager cfg) (Guard QueuedFirst) w → ∀ k, (w.call k).run.restored = false →
      0 < (w.call k).run.done → (w.call k).run.done = 1 ∧ w.SeenOver k) ∧
    (Reachable (manager cfg) w → ∀ k, (w.call k).run.restored = false →
      0 < (w.call k).run.done →
        (w.call k).run.done = 1 ∧ (w.SeenOver k ↔ (w.call k).Queued)) := by
  have hany : Reachable (manager cfg) w → ∀ k, (w.call k).run.restored = false →
      0 < (w.call k).run.done →
        (w.call k).run.done = 1 ∧ (w.SeenOver k ↔ (w.call k).Queued) := by
    intro h k hnew hd
    have hw := known_of_reachable h
    obtain ⟨hone, hover⟩ := (hw.sound k).settled hnew hd
    exact ⟨hone, (seen_over_iff hw (streams_of_reachable h)).trans hover⟩
  refine ⟨fun h k hnew hd => ?_, hany⟩
  have hkept : (w.call k).NotRefused :=
    call_invariant ⟨Call.sound_fresh, fun hi => by cases hi⟩
      (fun _ => Call.not_refused_restored) (fun _ _ => Move.not_refused) h k
  obtain ⟨hone, hseen⟩ := hany h.reachable k hnew hd
  exact ⟨hone, hseen.mpr (hkept.queued hnew hd)⟩

/-- A chat that is followed while it waits, until after its end. -/
def seenChat : List Event :=
  [.create "ada" .chat, .call 0 (.charge 10 5), .publish 0, .stream 0 (.open 0 0),
    .stream 0 .look, .stream 0 .drained, .call 0 .queued, .call 0 (.writeHeader 503),
    .call 0 .returned, .call 0 .finishBody, .call 0 (.finish 9)]

theorem seen_chat_over :
    let w := (manager plainConfig).after {} seenChat
    (w.stream 0).pc = .waiting 0 ∧ (w.call 0).run.done = 1 ∧ w.SeenOver 0 := by
  have hr : ReachesUnder (manager plainConfig) (Guard QueuedFirst)
      ((manager plainConfig).after {} seenChat) :=
    reaches_under_after started_empty (by decide) (by decide)
  exact ⟨rfl, settled_runs_seen_over.1 hr 0 (by decide) (by decide)⟩

/-- A chat refused before the queue, which a stream was opened on meanwhile. -/
def refusedChat : List Event :=
  [.create "ada" .chat, .call 0 (.charge 10 5), .publish 0, .stream 0 (.open 0 0),
    .stream 0 .look, .stream 0 .drained, .call 0 (.writeHeader 503), .call 0 .returned,
    .call 0 .finishBody, .call 0 (.finish 9), .call 0 .answer, .forget 0, .forgetRelease 0]

/-- It is settled and forgotten, and the stream waits for an event that does
not come: nothing says that the run is over. -/
theorem refused_chat_not_over :
    ¬ ∀ (cfg : Config) (w : Manager), Reachable (manager cfg) w → ∀ k,
      (w.call k).run.restored = false → 0 < (w.call k).run.done →
        (w.call k).run.done = 1 ∧ w.SeenOver k := by
  intro hall
  have hr : Reachable (manager plainConfig) ((manager plainConfig).after {} refusedChat) :=
    reachable_after started_empty (by decide)
  have hover := (hall plainConfig _ hr 0 (by decide) (by decide)).2.ended.terminal
  revert hover
  decide

end Manager

end LocalBase.Runs
