import LocalBase.Runs.Stage

/-!
# The event stream

A stream takes what it has yet to send, and the channel it will wait on, in one
section under the run's lock, and writes and waits outside of it. Meanwhile the
run appends events and replaces the channel. What the stream saw stays the
beginning of what there is, so it sends the events in order and each of them
once; and the number of the channel it took is that of the events it saw, so a
channel that is still open means that nothing has been appended since.

A client that reconnects gives the id of the last event it got. The events are
numbered from 1 without a gap, so the next stream goes on where the last one
was cut, wherever that was.
-/

namespace LocalBase.Runs

open Machine Relation

namespace Call

variable {cfg : Config} {held n : Int} {c c' : Call} {e : CallEvent}

theorem Section.events (hs : Section cfg held e c c' n) : c.run.events <+: c'.run.events := by
  have hsame : ∀ {r : Run}, c.run.Still r → c.run.events <+: r.events := fun hr => by
    rw [hr.events]
  cases hs with
  | stopping | stop => exact hsame Run.still_stop
  | past => exact hsame Run.still_past
  | uncharged => exact hsame Run.still_stopChunk
  | queued | admitted | error | charged => exact List.prefix_append ..
  | ended => exact (List.prefix_append ..).trans (List.prefix_append ..)
  | _ => exact List.prefix_rfl

theorem Section.ends (ht : c.run.terminal = false) (ht' : c'.run.terminal = true)
    (hs : Section cfg held e c c' n) : c.run.events.length < c'.run.events.length := by
  have hsame : c.run.Still c'.run → c.run.events.length < c'.run.events.length := fun hr => by
    rw [hr.terminal, ht] at ht'
    cases ht'
  cases hs with
  | stopping | stop => exact hsame Run.still_stop
  | past => exact hsame Run.still_past
  | uncharged => exact hsame Run.still_stopChunk
  | queued | admitted => cases ht'
  | ended =>
    simp only [Call.ended, Run.finishAt, Run.setStatus, Run.emit, List.length_append,
      List.length_singleton]
    omega
  | _ =>
    change c.run.terminal = true at ht'
    rw [ht] at ht'
    cases ht'

theorem Section.restored (hs : Section cfg held e c c' n) : c'.run.restored = c.run.restored := by
  cases hs with
  | stopping | stop => exact Run.still_stop.restored
  | past => exact Run.still_past.restored
  | uncharged => exact Run.still_stopChunk.restored
  | _ => rfl

end Call

variable {cfg : Config} {G : Int → Call → CallEvent → Prop} {w w' : Manager} {s : Stream}
  {r : Run}

theorem Move.events {c c' : Call} (hm : Move cfg G c c') : c.run.events <+: c'.run.events := by
  cases hm with
  | create => exact List.prefix_rfl
  | «section» _ hs => exact (Call.section_of_step hs).events
  | ended => exact (List.prefix_append ..).trans (List.prefix_append ..)
  | stop => rw [Run.still_stop.events]
  | _ => exact List.prefix_rfl

theorem Move.ends {c c' : Call} (hm : Move cfg G c c') (ht : c.run.terminal = false)
    (ht' : c'.run.terminal = true) : c.run.events.length < c'.run.events.length := by
  have hsame : c'.run.status = c.run.status → c.run.events.length < c'.run.events.length := by
    intro hstatus
    unfold Run.terminal at ht ht'
    rw [hstatus, ht] at ht'
    cases ht'
  cases hm with
  | create => cases ht'
  | «section» _ hs => exact (Call.section_of_step hs).ends ht ht'
  | ended =>
    simp only [Run.finishAt, Run.setStatus, Run.emit, List.length_append,
      List.length_singleton]
    omega
  | stop => exact hsame Run.still_stop.status
  | _ => exact hsame rfl

theorem Move.restored {c c' : Call} (hm : Move cfg G c c') :
    c'.run.restored = c.run.restored := by
  cases hm with
  | «section» _ hs => exact (Call.section_of_step hs).restored
  | stop => exact Run.still_stop.restored
  | _ => rfl

/-- What a number of moves do to the course of a run. -/
structure Grown (c c' : Call) : Prop where
  sound : c.Sound → c'.Sound
  events : c.run.events <+: c'.run.events
  restored : c'.run.restored = c.run.restored
  still : c.Sound → c.run.terminal = true →
    c'.run.terminal = true ∧ c'.run.events = c.run.events
  ends : c.run.terminal = false → c'.run.terminal = true →
    c.run.events.length < c'.run.events.length

theorem Grown.refl (c : Call) : Grown c c :=
  ⟨id, List.prefix_rfl, rfl, fun _ ht => ⟨ht, rfl⟩, fun ht ht' => by rw [ht] at ht'; cases ht'⟩

theorem grown_of_moves {c c' : Call} (h : ReflTransGen (Move cfg G) c c') : Grown c c' := by
  induction h with
  | refl => exact Grown.refl _
  | @tail b d _ hm ih =>
    refine ⟨fun hs => hm.sound (ih.sound hs), ih.events.trans hm.events,
      hm.restored.trans ih.restored, fun hs ht => ?_, fun ht ht' => ?_⟩
    · obtain ⟨ht', he⟩ := ih.still hs ht
      exact ⟨hm.terminal (ih.sound hs) ht', (hm.still (ih.sound hs) ht').events.trans he⟩
    · cases hb : b.run.terminal with
      | true => exact Nat.lt_of_lt_of_le (ih.ends ht hb) hm.events.length_le
      | false => exact Nat.lt_of_le_of_lt ih.events.length_le (hm.ends hb ht')

/-! ## What a stream knows -/

/-- Where a stream stands, against the run it follows. -/
def StreamPc.Fits (r : Run) (after : Nat) : StreamPc → Prop
  | .idle | .looking | .returned false => True
  | .writing pending notify ended total =>
    total ≤ r.events.length ∧ notify = total ∧ pending = (r.events.take total).drop after ∧
      (ended = true → r.terminal = true ∧ total = r.events.length) ∧
      (ended = false → r.terminal = true → total < r.events.length)
  | .waiting notify =>
    notify ≤ after ∧ notify ≤ r.events.length ∧ (r.terminal = true → notify < r.events.length)
  | .returned true => r.terminal = true ∧ r.events.length ≤ after

/-- What it has sent is what follows its cursor, from there to where it is. -/
structure Stream.Sound (r : Run) (s : Stream) : Prop where
  restored : r.restored = false
  after : s.after = s.start + s.sent.length
  sent : s.sent <+: r.events.drop s.start
  pc : s.pc.Fits r s.after

theorem StreamPc.Fits.grow {c c' : Call} {after : Nat} {pc : StreamPc}
    (h : pc.Fits c.run after) (hs : c.Sound) (hg : Grown c c') : pc.Fits c'.run after := by
  have hle := hg.events.length_le
  -- The number of what was seen stays below, when the run has ended since.
  have hlt : ∀ n, n ≤ c.run.events.length →
      (c.run.terminal = true → n < c.run.events.length) →
      c'.run.terminal = true → n < c'.run.events.length := by
    intro n hn hbelow ht'
    cases ht : c.run.terminal with
    | true => exact Nat.lt_of_lt_of_le (hbelow ht) hle
    | false => exact Nat.lt_of_le_of_lt hn (hg.ends ht ht')
  cases pc with
  | idle | looking => trivial
  | writing pending notify ended total =>
    obtain ⟨htotal, hn, hp, hend, hopen⟩ := h
    refine ⟨htotal.trans hle, hn, ?_, ?_, ?_⟩
    · obtain ⟨more, hmore⟩ := hg.events
      rw [hp, ← hmore, List.take_append_of_le_length htotal]
    · intro hended
      obtain ⟨ht, heq⟩ := hend hended
      obtain ⟨ht', hsame⟩ := hg.still hs ht
      exact ⟨ht', heq.trans (by rw [hsame])⟩
    · exact fun hended => hlt total htotal (hopen hended)
  | waiting notify =>
    obtain ⟨hafter, hn, hopen⟩ := h
    exact ⟨hafter, hn.trans hle, hlt notify hn hopen⟩
  | returned ended =>
    cases ended with
    | false => trivial
    | true =>
      obtain ⟨ht', hsame⟩ := hg.still hs h.1
      exact ⟨ht', by rw [hsame]; exact h.2⟩

theorem Stream.Sound.grow {c c' : Call} (h : s.Sound c.run) (hs : c.Sound)
    (hg : Grown c c') : s.Sound c'.run where
  restored := hg.restored.trans h.restored
  after := h.after
  sent := h.sent.trans (hg.events.drop _)
  pc := h.pc.grow hs hg

theorem Stream.Sound.next {e : RunEvent} {rest : List RunEvent} {notify total : Nat}
    {ended : Bool} (h : s.Sound r) (hr : r.Numbered)
    (hpc : s.pc = .writing (e :: rest) notify ended total) :
    r.events[s.after]? = some e ∧ e.id = s.after + 1 ∧
      rest = (r.events.take total).drop (s.after + 1) := by
  have hfits := h.pc
  rw [hpc] at hfits
  obtain ⟨hle, _, hpending, _, _⟩ := hfits
  have hhead : (r.events.take total)[s.after]? = some e := by
    have h0 := congrArg (·[0]?) hpending
    simpa using h0.symm
  have htail : rest = (r.events.take total).drop (s.after + 1) := by
    have h1 := congrArg List.tail hpending
    simpa using h1
  have hat : r.events[s.after]? = some e := by
    rw [List.getElem?_take] at hhead
    split at hhead
    · exact hhead
    · cases hhead
  refine ⟨hat, ?_, htail⟩
  have hid := congrArg (·[s.after]?) hr.ids
  simp only [List.getElem?_map, hat, Option.map_some] at hid
  rw [List.getElem?_range'] at hid
  · simp only [Option.some.injEq] at hid
    omega
  · exact (List.getElem?_eq_some_iff.mp hat).1

/-! ## The streams of a run of the manager -/

namespace Manager

theorem trimLoop_stream {n : Nat} {ks : List Nat} : (trimLoop n ks w).stream = w.stream := by
  induction ks generalizing n w with
  | nil => cases n <;> rfl
  | cons k ks ih =>
    cases n with
    | zero => rfl
    | succ n =>
      rw [trimLoop]
      split
      · exact ih (w := w.drop k)
      · exact ih

theorem publish_stream {k : Nat} (hs : w.publish cfg k = some w') : w'.stream = w.stream := by
  simp only [publish] at hs
  split at hs
  · cases hs
    split
    · rfl
    · exact trimLoop_stream
  · cases hs
    split
    · rfl
    · exact trimLoop_stream
  · cases hs

theorem delete_stream {j : Nat} {e : DeleteEvent} (hs : w.stepDelete j e = some w') :
    w'.stream = w.stream := by
  cases deletes_of_step hs with
  | find | stop | leave | dismiss | mark | release => rfl

theorem step_stream {e : Event} (hs : w.step cfg e = some w') :
    (∃ i ev, e = .stream i ev ∧ w.stepStream i ev = some w') ∨ w'.stream = w.stream := by
  cases e with
  | stream i ev => exact Or.inl ⟨i, ev, rfl, hs⟩
  | create =>
    cases hs
    exact Or.inr rfl
  | call k e =>
    simp only [Manager.step] at hs
    split at hs
    · obtain ⟨⟨c, n⟩, hc, rfl⟩ := Option.map_eq_some_iff.mp hs
      exact Or.inr rfl
    · cases hs
  | publish k =>
    simp only [Manager.step] at hs
    split at hs
    · exact Or.inr (publish_stream hs)
    · cases hs
  | forget | sweep =>
    simp only [Manager.step] at hs
    split at hs
    · cases hs
      exact Or.inr rfl
    · cases hs
  | forgetRelease | sweepRelease =>
    simp only [Manager.step] at hs
    split at hs
    · split at hs <;> cases hs
      exact Or.inr rfl
    · cases hs
  | close =>
    cases hs
    exact Or.inr rfl
  | delete j e => exact Or.inr (delete_stream hs)

/-- Every stream that has been opened knows what it should. -/
def Streams (w : Manager) : Prop :=
  ∀ i, (w.stream i).pc ≠ .idle → (w.stream i).Sound (w.call (w.stream i).run).run

variable {i : Nat}

theorem Streams.set (h : w.Streams)
    (hs : s.pc ≠ .idle → s.Sound (w.call s.run).run) : (w.setStream i s).Streams := by
  intro j hj
  by_cases hij : j = i
  · subst hij
    simp only [setStream, Function.update_self] at hj ⊢
    exact hs hj
  · simp only [setStream, Function.update_of_ne hij] at hj ⊢
    exact h j hj

theorem Streams.stream_step (h : w.Streams) (hsound : ∀ k, (w.call k).Sound) {e : StreamEvent}
    (hs : w.stepStream i e = some w') : w'.Streams := by
  cases e with
  | «open» k cursor =>
    simp only [stepStream] at hs
    split at hs
    · split at hs
      · next hopen =>
        cases hs
        exact h.set fun _ => ⟨hopen.2, rfl, List.nil_prefix, trivial⟩
      · cases hs
    · cases hs
  | look =>
    simp only [stepStream] at hs
    split at hs
    · next hpc =>
      split at hs
      · cases hs
      · cases hs
        have hi := h i (by rw [hpc]; simp)
        refine h.set fun _ => ⟨hi.restored, hi.after, hi.sent, Nat.le_refl _,
          (hsound _).numbered.notify, ?_, ?_, ?_⟩
        · simp only [Run.eventsAfter, List.take_length]
          split
          · rfl
          · next hle => exact (List.drop_eq_nil_of_le (Nat.not_lt.mp hle)).symm
        · intro hended
          exact ⟨(Bool.and_eq_true_iff.mp hended).1, rfl⟩
        · intro hopen ht
          have ho := (hsound _).over_of_terminal ht hi.restored
          simp only [Run.eventsAfter, ht, ho.endedAt, Bool.and_self] at hopen
          cases hopen
    · cases hs
  | send =>
    simp only [stepStream] at hs
    split at hs
    · next e rest notify ended total hpc =>
      cases hs
      have hi := h i (by rw [hpc]; simp)
      obtain ⟨hat, hid, hrest⟩ := hi.next (hsound _).numbered hpc
      have hfits := hi.pc
      rw [hpc] at hfits
      refine h.set fun _ => ⟨hi.restored, ?_, ?_, hfits.1, hfits.2.1, ?_, hfits.2.2.2⟩
      · simp only [List.length_append, List.length_singleton, hid, hi.after]
        omega
      · -- The event after the last it sent is the next of what follows the cursor.
        obtain ⟨more, hmore⟩ := hi.sent
        have hnext : more.head? = some e := by
          have hget := congrArg (·[(w.stream i).sent.length]?) hmore
          simp only [List.getElem?_append_right (Nat.le_refl _), Nat.sub_self,
            List.getElem?_drop] at hget
          rw [List.head?_eq_getElem?, hget, ← hi.after]
          exact hat
        cases more with
        | nil => cases hnext
        | cons x more =>
          simp only [List.head?_cons, Option.some.injEq] at hnext
          subst hnext
          exact ⟨more, by rw [← hmore, List.append_assoc, List.singleton_append]⟩
      · show rest = _
        rw [hid]
        exact hrest
    · cases hs
  | sendFails | leave =>
    simp only [stepStream] at hs
    split at hs
    · next hpc =>
      cases hs
      have hi := h i (by rw [hpc]; simp)
      exact h.set fun _ => ⟨hi.restored, hi.after, hi.sent, trivial⟩
    · cases hs
  | drained =>
    simp only [stepStream] at hs
    split at hs
    · next notify ended total hpc =>
      cases hs
      have hi := h i (by rw [hpc]; simp)
      have hfits := hi.pc
      rw [hpc] at hfits
      obtain ⟨hle, hn, hpending, hend, hopen⟩ := hfits
      have hpast : total ≤ (w.stream i).after := by
        have hlen := congrArg List.length hpending
        simp only [List.length_nil, List.length_drop, List.length_take] at hlen
        omega
      refine h.set fun _ => ⟨hi.restored, hi.after, hi.sent, ?_⟩
      split
      · next hreturn =>
        obtain ⟨ht, htotal⟩ := hend hreturn.1
        exact ⟨ht, htotal ▸ hpast⟩
      · next hstay =>
        have hended : ended = false := by
          cases ended with
          | false => rfl
          | true => exact absurd ⟨rfl, hpast⟩ hstay
        subst hn
        exact ⟨hpast, hle, hopen hended⟩
    · cases hs
  | wake =>
    simp only [stepStream] at hs
    split at hs
    · next hpc =>
      split at hs
      · cases hs
        have hi := h i (by rw [hpc]; simp)
        exact h.set fun _ => ⟨hi.restored, hi.after, hi.sent, trivial⟩
      · cases hs
    · cases hs
  | ping =>
    simp only [stepStream] at hs
    split at hs
    · next hpc =>
      cases hs
      have hi := h i (by rw [hpc]; simp)
      exact h.set fun _ => ⟨hi.restored, hi.after, hi.sent, trivial⟩
    · cases hs

theorem Streams.step (h : w.Streams) (hw : w.Known) {e : Event}
    (hs : w.step cfg e = some w') : w'.Streams := by
  rcases step_stream hs with ⟨i, ev, rfl, hstream⟩ | hsame
  · exact h.stream_step hw.sound hstream
  · intro i hi
    rw [hsame] at hi ⊢
    have hmoves := step_moves hw.wired.fresh (guard_true w e) hs (w.stream i).run
    exact (h i hi).grow (hw.sound _) (grown_of_moves hmoves)

theorem streams_of_reachable (h : Reachable (manager cfg) w) : w.Streams :=
  Reachable.invariant_with (J := Known) (I := Streams) (fun _ => known_of_reachable)
    (fun w hi i hopen => absurd (by rw [hi.stream i]) hopen)
    (fun _ _ _ hj _ hI hs => hI.step hj hs) h

/-! ## Exactly once, and in order -/

/-- The id a client has from the events it got. -/
def lastID (got : List RunEvent) : Nat := (got.getLast?.map RunEvent.id).getD 0

/-- What a client of run `k` has got over any number of connections: each goes
on from the last id, and may be cut anywhere in what its stream sent. -/
inductive Received (w : Manager) (k : Nat) : List RunEvent → Prop
  | nothing : Received w k []
  | reconnected {got piece : List RunEvent} {i : Nat} : Received w k got →
      (w.stream i).pc ≠ .idle → (w.stream i).run = k → (w.stream i).start = lastID got →
      piece <+: (w.stream i).sent → Received w k (got ++ piece)

theorem ids_of_prefix {sent : List RunEvent} {start : Nat} (hr : r.Numbered)
    (hs : sent <+: r.events.drop start) :
    sent.map RunEvent.id = List.range' (start + 1) sent.length := by
  obtain ⟨more, hmore⟩ := hs
  have hids : List.range' (1 + start * 1) (r.events.length - start) =
      sent.map RunEvent.id ++ more.map RunEvent.id := by
    rw [← List.map_append, hmore, List.map_drop, hr.ids, List.drop_range']
  obtain ⟨n, _, hsent, _⟩ := List.range'_eq_append_iff.mp hids
  have hlen := congrArg List.length hsent
  simp only [List.length_map, List.length_range'] at hlen
  rw [hsent, hlen, Nat.mul_one, Nat.add_comm]

theorem lastID_of_prefix {got : List RunEvent} (hr : r.Numbered)
    (hg : got <+: r.events) : lastID got = got.length := by
  have hids : got.map RunEvent.id = List.range' (0 + 1) got.length := ids_of_prefix hr hg
  unfold lastID
  rw [← List.getLast?_map, hids]
  cases hn : got.length with
  | zero => rfl
  | succ n => simp [List.getLast?_range']

theorem received_prefix (hw : w.Known) (hs : w.Streams) {k : Nat} {got : List RunEvent}
    (h : Received w k got) : got <+: (w.call k).run.events := by
  induction h with
  | nothing => exact List.nil_prefix
  | @reconnected got piece i _ hpc hrun hstart hpiece ih =>
    have hi := hs i hpc
    rw [hrun] at hi
    have hsent := hpiece.trans hi.sent
    rw [hstart, lastID_of_prefix (hw.sound k).numbered ih] at hsent
    obtain ⟨more, hmore⟩ := ih
    rw [← hmore, List.drop_left'] at hsent
    · rw [← hmore]
      exact List.prefix_append_right_inj got |>.mpr hsent
    · rfl

/-- What one stream has sent and what it knows, said of the run's events. -/
structure Delivers (r : Run) (s : Stream) : Prop where
  /-- The events after its cursor, in order. -/
  sent : s.sent <+: r.events.drop s.start
  ids : s.sent.map RunEvent.id = List.range' (s.start + 1) s.sent.length
  /-- While it waits with anything to send, its channel is closed. -/
  waiting : ∀ n, s.pc = .waiting n → s.sent ≠ r.events.drop s.start → n < r.notify
  /-- Once it has returned it has sent everything, and the end was the last. -/
  returned : s.pc = .returned true → s.sent = r.events.drop s.start ∧
    ∃ before id view, r.events = before ++ [⟨id, .end view⟩]

theorem Streams.delivers (h : w.Streams) (hw : w.Known) (hi : (w.stream i).pc ≠ .idle) :
    Delivers (w.call (w.stream i).run).run (w.stream i) := by
  have hs := h i hi
  have hr := (hw.sound (w.stream i).run).numbered
  have hfull : (w.call (w.stream i).run).run.events.length ≤ (w.stream i).after →
      (w.stream i).sent = (w.call (w.stream i).run).run.events.drop (w.stream i).start := by
    intro hle
    refine hs.sent.eq_of_length_le ?_
    rw [List.length_drop]
    have hafter := hs.after
    omega
  refine ⟨hs.sent, ids_of_prefix hr hs.sent, ?_, ?_⟩
  · intro n hpc hne
    have hfits := hs.pc
    rw [hpc] at hfits
    by_contra hopen
    refine hne (hfull ?_)
    have hn : n ≤ (w.stream i).after := hfits.1
    have hnotify := hr.notify
    omega
  · intro hpc
    have hfits := hs.pc
    rw [hpc] at hfits
    exact ⟨hfull hfits.2, ((hw.sound _).over_of_terminal hfits.1 hs.restored).ends⟩

/-- Every stream delivers, at every moment. Over any number of reconnects what
a client gets is the beginning of the run's events, and when a stream it holds
to the end returns, all of them. -/
theorem event_stream_exact (h : Reachable (manager cfg) w) :
    (∀ i, (w.stream i).pc ≠ .idle → Delivers (w.call (w.stream i).run).run (w.stream i)) ∧
    ∀ k got, Received w k got → got <+: (w.call k).run.events ∧
      ∀ i, (w.stream i).pc = .returned true → (w.stream i).run = k →
        (w.stream i).start = lastID got → got ++ (w.stream i).sent = (w.call k).run.events := by
  have hw := known_of_reachable h
  have hs := streams_of_reachable h
  refine ⟨fun i => hs.delivers hw, ?_⟩
  intro k got hgot
  have hbegins := received_prefix hw hs hgot
  refine ⟨hbegins, ?_⟩
  intro i hpc hrun hstart
  have hsent := ((hs.delivers hw (by rw [hpc]; simp)).returned hpc).1
  rw [hrun, hstart, lastID_of_prefix (hw.sound k).numbered hbegins] at hsent
  rw [hsent]
  obtain ⟨more, hmore⟩ := hbegins
  rw [← hmore, List.drop_left']
  rfl

/-- A refused chat is followed by a page that loses its connection after the
first event and comes back with its id. -/
def followedRun : List Event :=
  [.create "ada" .chat, .call 0 (.charge 10 5), .publish 0, .call 0 .queued, .stream 0 (.open 0 0),
    .stream 0 .look, .stream 0 .send, .stream 0 .drained, .call 0 (.admitted 6), .stream 0 .wake,
    .stream 0 .look, .stream 0 .sendFails, .stream 1 (.open 0 1), .stream 1 .look,
    .call 0 (.writeHeader 503), .call 0 .returned, .call 0 .finishBody, .call 0 (.finish 9),
    .stream 1 .send, .stream 1 .drained, .stream 1 .wake, .stream 1 .look, .stream 1 .send,
    .stream 1 .send, .stream 1 .drained]

theorem followed_run_whole :
    let w := (manager plainConfig).after {} followedRun
    (w.stream 0).sent.map RunEvent.id = [1] ∧ (w.stream 1).sent.map RunEvent.id = [2, 3, 4] ∧
      (w.stream 0).sent ++ (w.stream 1).sent = (w.call 0).run.events := by
  have hr : Reachable (manager plainConfig) ((manager plainConfig).after {} followedRun) :=
    reachable_after started_empty (by decide)
  have hfirst : Received ((manager plainConfig).after {} followedRun) 0
      (((manager plainConfig).after {} followedRun).stream 0).sent := by
    have hpc : (((manager plainConfig).after {} followedRun).stream 0).pc = .returned false := rfl
    exact Received.reconnected Received.nothing (by rw [hpc]; simp) rfl rfl List.prefix_rfl
  exact ⟨by decide, by decide,
    ((event_stream_exact hr).2 0 _ hfirst).2 1 rfl rfl (by decide)⟩

end Manager

end LocalBase.Runs
