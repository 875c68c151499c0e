import LocalBase.Runs.Moves

/-!
# The stages of a run

A run is before its publication, active, over, or refused before the queue;
which of these it is shows in where `create` and the inner request stand, and
decides what its status, its end and its `done` are. The events are numbered
from 1 without a gap, and the number of the channel is that of the events.
-/

namespace LocalBase.Runs

open Machine

/-- The handler, or `finish`, has the run. -/
def InnerPc.active : InnerPc → Bool
  | .running | .returned | .gaveBody | .settling _ => true
  | _ => false

variable {reason : Reason} {status : Status}

namespace Run

structure Live (r : Run) : Prop where
  terminal : r.terminal = false
  endedAt : r.endedAt = none
  done : r.done = 0
  restored : r.restored = false

/-- The run has ended, and says so: a final status, the time, and the end as
its last event. -/
structure Over (r : Run) : Prop where
  terminal : r.terminal = true
  endedAt : r.endedAt.isSome = true
  ends : ∃ before id view, r.events = before ++ [⟨id, .end view⟩]

/-- The events are numbered from 1, and so are the channels. -/
structure Numbered (r : Run) : Prop where
  notify : r.notify = r.events.length
  ids : r.events.map RunEvent.id = List.range' 1 r.events.length

/-- Nothing a page can see of the run's course has changed. -/
structure Still (r r' : Run) : Prop where
  status : r'.status = r.status
  endedAt : r'.endedAt = r.endedAt
  done : r'.done = r.done
  queuedSeen : r'.queuedSeen = r.queuedSeen
  restored : r'.restored = r.restored
  events : r'.events = r.events
  notify : r'.notify = r.notify
  output : r'.output = r.output

variable {r r' : Run}

theorem Still.refl (r : Run) : r.Still r := ⟨rfl, rfl, rfl, rfl, rfl, rfl, rfl, rfl⟩

theorem Still.trans {r'' : Run} (h : r.Still r') (h' : r'.Still r'') : r.Still r'' :=
  ⟨h'.status.trans h.status, h'.endedAt.trans h.endedAt, h'.done.trans h.done,
    h'.queuedSeen.trans h.queuedSeen, h'.restored.trans h.restored, h'.events.trans h.events,
    h'.notify.trans h.notify, h'.output.trans h.output⟩

theorem still_stop : r.Still (r.stop status reason) := by
  unfold stop
  split
  · exact Still.refl r
  · exact ⟨rfl, rfl, rfl, rfl, rfl, rfl, rfl, rfl⟩

theorem still_stopChunk : r.Still (r.stopChunk reason) := by
  unfold stopChunk
  split
  · exact ⟨rfl, rfl, rfl, rfl, rfl, rfl, rfl, rfl⟩
  · exact Still.refl r

theorem still_past {payload : Bytes} :
    r.Still ({ r with
      relayed := r.relayed ++ [payload]
      bytes := r.bytes + payload.length }.stopChunk reason) := by
  have hcount : r.Still { r with
      relayed := r.relayed ++ [payload], bytes := r.bytes + payload.length } :=
    ⟨rfl, rfl, rfl, rfl, rfl, rfl, rfl, rfl⟩
  exact hcount.trans still_stopChunk

@[simp] theorem stop_cancel :
    (r.stop status reason).cancel = r.cancel := by
  unfold stop
  split <;> rfl

@[simp] theorem stop_held :
    (r.stop status reason).held = r.held := by
  unfold stop
  split <;> rfl

@[simp] theorem stop_body :
    (r.stop status reason).body = r.body := by
  unfold stop
  split <;> rfl

theorem Still.terminal (h : r.Still r') : r'.terminal = r.terminal := by
  unfold Run.terminal
  rw [h.status]

theorem Still.live (h : r.Still r') (hr : r.Live) : r'.Live :=
  ⟨h.terminal.trans hr.terminal, h.endedAt.trans hr.endedAt, h.done.trans hr.done,
    h.restored.trans hr.restored⟩

theorem Still.ended (h : r.Still r') (hr : r.Over) : r'.Over :=
  ⟨h.terminal.trans hr.terminal, h.endedAt ▸ hr.endedAt, h.events ▸ hr.ends⟩

theorem Still.numbered (h : r.Still r') (hr : r.Numbered) : r'.Numbered := by
  refine ⟨?_, ?_⟩
  · rw [h.notify, h.events]
    exact hr.notify
  · rw [h.events]
    exact hr.ids

theorem Numbered.emit (hr : r.Numbered) (data : EventData) : (r.emit data).Numbered := by
  refine ⟨?_, ?_⟩
  · simp only [Run.emit, List.length_append, List.length_singleton]
    exact congrArg (· + 1) hr.notify
  · simp only [Run.emit, List.map_append, List.length_append, List.length_singleton, hr.ids]
    rw [List.range'_append_1.symm]
    simp [Nat.add_comm]

theorem Numbered.of_events (hr : r.Numbered) (he : r'.events = r.events)
    (hn : r'.notify = r.notify) : r'.Numbered :=
  ⟨by rw [he, hn]; exact hr.notify, by rw [he]; exact hr.ids⟩

theorem Live.emit (hr : r.Live) (data : EventData) : (r.emit data).Live :=
  ⟨hr.terminal, hr.endedAt, hr.done, hr.restored⟩

theorem over_finishAt {reason : Option Reason} {now retention : Nat}
    (hs : status.terminal = true) : (r.finishAt status reason now retention).Over :=
  ⟨hs, rfl, _, _, _, rfl⟩

theorem Numbered.setStatus (hr : r.Numbered) (status : Status) (reason : Option Reason) :
    (r.setStatus status reason).Numbered :=
  (hr.emit (.status status reason)).of_events rfl rfl

end Run

/-! ## The stages -/

inductive Stage (c : Call) : Prop
  | before : c.create.published = false → c.inner = .none → c.run.Live →
      c.run.queuedSeen = false → c.run.cancel = false → c.run.held = 0 → c.run.body = 0 → Stage c
  | active : c.inner.active = true →
      c.create = .waiting ∨ c.create = .answered ∧ c.run.queuedSeen = true → c.run.Live → Stage c
  | refused : c.inner = .settled → c.run.queuedSeen = false →
      c.create = .waiting ∨ c.create = .forgetting ∨ c.create = .releasing ∨
        c.create = .forgotten →
      c.run.terminal = false → c.run.endedAt = none → c.run.done = 1 → Stage c
  | ended : c.inner = .none ∧ c.create = .answered ∨
        (c.inner = .releasing ∨ c.inner = .settled) ∧ c.run.queuedSeen = true ∧
          (c.create = .waiting ∨ c.create = .answered) →
      c.run.restored = false → c.run.Over → c.run.done = 1 → Stage c
  | restored : c.inner = .none → c.create = .answered → c.run.restored = true →
      c.run.terminal = true → c.run.endedAt.isSome = true → c.run.done = 1 → Stage c

structure Call.Sound (c : Call) : Prop where
  stage : Stage c
  writing : c.writer.pc ≠ .idle → c.inner = .running
  numbered : c.run.Numbered
  stopStatus : ∀ status, c.run.stopStatus = some status → status.terminal = true

theorem StopCause.terminal (cause : StopCause) : cause.status.terminal = true := by
  cases cause <;> rfl

namespace Run

variable {r : Run}

theorem stop_stopStatus (hs : status.terminal = true)
    (hr : ∀ s, r.stopStatus = some s → s.terminal = true) :
    ∀ s, (r.stop status reason).stopStatus = some s → s.terminal = true := by
  intro s h
  unfold stop at h
  split at h
  · exact hr s h
  · cases h
    exact hs

theorem stopChunk_stopStatus (hr : ∀ s, r.stopStatus = some s → s.terminal = true) :
    ∀ s, (r.stopChunk reason).stopStatus = some s → s.terminal = true := by
  intro s h
  unfold stopChunk at h
  split at h
  · cases h
    rfl
  · exact hr s h

end Run

variable {r : Run}

namespace Call

variable {cfg : Config} {held n : Int} {c c' : Call} {e : CallEvent} {w : Writer}

theorem outcome_terminal (fullError : Option RunError)
    (hr : ∀ s, c.run.stopStatus = some s → s.terminal = true) :
    (c.outcome cfg fullError).status.terminal = true := by
  unfold outcome
  simp only []
  split
  · next s hs => exact hr s hs
  · split
    · rfl
    · split
      · rfl
      · split
        · rfl
        · split <;> rfl

theorem numbered_ended {fullError : Option RunError} {now : Nat} (h : c.run.Numbered) :
    (c.ended cfg fullError now).Numbered :=
  ((h.emit (.status _ _)).emit (.end _)).of_events rfl rfl

theorem sound_fresh : Sound {} where
  stage := .before rfl rfl ⟨rfl, rfl, rfl, rfl⟩ rfl rfl rfl rfl
  writing h := absurd rfl h
  numbered := ⟨rfl, rfl⟩
  stopStatus s h := by cases h

theorem sound_restored (h : c.Restored) : c.Sound where
  stage := .restored h.inner h.create h.restored h.terminal h.endedAt h.done
  writing hw := absurd (by rw [h.writer]) hw
  numbered := by
    refine ⟨?_, ?_⟩
    · rw [h.notify, h.events]
      rfl
    · rw [h.events]
      rfl
  stopStatus s hs := by
    rw [h.stopStatus] at hs
    cases hs

/-- While the handler has the run, the run is live and `create` waits for it
or has answered. -/
structure Running (c : Call) : Prop where
  create : c.create = .waiting ∨ c.create = .answered ∧ c.run.queuedSeen = true
  live : c.run.Live

theorem Sound.running (h : c.Sound) (hi : c.inner.active = true) : c.Running := by
  cases h.stage with
  | before _ hn => rw [hn] at hi; cases hi
  | active _ hc hl => exact ⟨hc, hl⟩
  | refused hs => rw [hs] at hi; cases hi
  | ended hn =>
    rcases hn with ⟨hn, _⟩ | ⟨hn | hn, _⟩ <;> rw [hn] at hi <;> cases hi
  | restored hn => rw [hn] at hi; cases hi

theorem Stage.still (h : Stage c) (hr : c.run.Still r)
    (hcancel : c.run.cancel = false → r.cancel = false)
    (hheld : c.run.held = 0 → c.run.body = 0 → r.held = 0 ∧ r.body = 0) :
    Stage { c with run := r, writer := w } := by
  cases h with
  | before hp hn hl hq hc hh hb =>
    obtain ⟨hh', hb'⟩ := hheld hh hb
    exact .before hp hn (hr.live hl) (hr.queuedSeen.trans hq) (hcancel hc) hh' hb'
  | active ha hc hl => exact .active ha (hr.queuedSeen.symm ▸ hc) (hr.live hl)
  | refused hs hq hc ht he hd =>
    exact .refused hs (hr.queuedSeen.trans hq) hc (hr.terminal.trans ht) (hr.endedAt.trans he)
      (hr.done.trans hd)
  | ended hi hres ho hd =>
    exact .ended (hr.queuedSeen.symm ▸ hi) (hr.restored.trans hres) (hr.ended ho) (hr.done.trans hd)
  | restored hn hc hres ht he hd =>
    exact .restored hn hc (hr.restored.trans hres) (hr.terminal.trans ht) (hr.endedAt ▸ he)
      (hr.done.trans hd)

/-- Before the publication there is nothing but the accounting of the body. -/
structure Before (c : Call) : Prop where
  inner : c.inner = .none
  live : c.run.Live
  queuedSeen : c.run.queuedSeen = false
  cancel : c.run.cancel = false
  held : c.run.held = 0
  body : c.run.body = 0

theorem Sound.before (h : c.Sound) (hp : c.create.published = false) : c.Before := by
  cases h.stage with
  | before _ hn hl hq hc hh hb => exact ⟨hn, hl, hq, hc, hh, hb⟩
  | active _ hc => rcases hc with hc | ⟨hc, _⟩ <;> rw [hc] at hp <;> cases hp
  | refused _ _ hc => rcases hc with hc | hc | hc | hc <;> rw [hc] at hp <;> cases hp
  | ended hc =>
    rcases hc with ⟨_, hc⟩ | ⟨_, _, hc | hc⟩ <;> rw [hc] at hp <;> cases hp
  | restored _ hc => rw [hc] at hp; cases hp

theorem Sound.writer_idle (h : c.Sound) (hi : c.inner ≠ .running) : c.writer.pc = .idle := by
  by_contra hpc
  exact hi (h.writing hpc)

theorem Sound.account (h : c.Sound) {pc : CreatePc} {now : Nat}
    (hp : c.create.published = false) (hpc : pc.published = false) :
    Sound { c with create := pc, run := { c.run with createdAt := now } } := by
  have hb := h.before hp
  exact
    { stage := .before hpc hb.inner ⟨hb.live.terminal, hb.live.endedAt, hb.live.done,
        hb.live.restored⟩ hb.queuedSeen hb.cancel hb.held hb.body
      writing := h.writing
      numbered := h.numbered.of_events rfl rfl
      stopStatus := h.stopStatus }

theorem Sound.goOn (h : c.Sound) {inner : InnerPc} (hi : c.inner.active = true)
    (hi' : inner.active = true) (hw : w.pc ≠ .idle → inner = .running) (hl : r.Live)
    (hq : c.run.queuedSeen = true → r.queuedSeen = true) (hn : r.Numbered)
    (hs : ∀ status, r.stopStatus = some status → status.terminal = true) :
    Sound { c with run := r, inner := inner, writer := w } where
  stage := .active hi' ((h.running hi).create.imp_right fun hc => ⟨hc.1, hq hc.2⟩) hl
  writing := hw
  numbered := hn
  stopStatus := hs

theorem Sound.still (h : c.Sound) (hi : c.inner = .running) (hr : c.run.Still r)
    (hs : ∀ status, r.stopStatus = some status → status.terminal = true) :
    Sound { c with run := r, writer := w } := by
  have ha : c.inner.active = true := by rw [hi]; rfl
  exact h.goOn ha ha (fun _ => hi) (hr.live (h.running ha).live)
    (fun hq => hr.queuedSeen.trans hq) (hr.numbered h.numbered) hs

theorem Sound.told (h : c.Sound) {data : EventData} (hi : c.inner = .running) (hr : c.run.Still r)
    (hs : ∀ status, r.stopStatus = some status → status.terminal = true) :
    Sound { c with run := r.emit data, writer := w } := by
  have ha : c.inner.active = true := by rw [hi]; rfl
  exact h.goOn ha ha (fun _ => hi) ((hr.live (h.running ha).live).emit data)
    (fun hq => hr.queuedSeen.trans hq) ((hr.numbered h.numbered).emit data) hs

theorem Section.sound (h : c.Sound) (hs : Section cfg held e c c' n) : c'.Sound := by
  cases hs with
  | charge hc hpc =>
    refine h.account (by rw [hc]; rfl) ?_
    rcases hpc with rfl | rfl <;> rfl
  | unsized hc => exact h.account (by rw [hc]; rfl) rfl
  | refused hc => exact h.account (by rw [hc]; rfl) rfl
  | full hc => exact h.account (by rw [hc]; rfl) rfl
  | gaveBody hi =>
    have hr := h.running (by rw [hi]; rfl)
    exact h.goOn (by rw [hi]; rfl) rfl (fun hw => absurd (h.writer_idle (by rw [hi]; simp)) hw)
      hr.live id h.numbered h.stopStatus
  | answer hc hq =>
    refine ⟨?_, h.writing, h.numbered, h.stopStatus⟩
    cases h.stage with
    | before hp => rw [hc] at hp; cases hp
    | active ha _ hl => exact .active ha (Or.inr ⟨rfl, hq⟩) hl
    | refused _ hq' => rw [hq] at hq'; cases hq'
    | ended hi hres ho hd =>
      refine .ended (hi.imp (fun hi => ⟨hi.1, rfl⟩) fun hi => ⟨hi.1, hi.2.1, Or.inr rfl⟩) hres
        ho hd
    | restored _ hc' => rw [hc] at hc'; cases hc'
  | refuse hc hq hi =>
    refine ⟨?_, h.writing, h.numbered, h.stopStatus⟩
    cases h.stage with
    | before hp => rw [hc] at hp; cases hp
    | active ha => rw [hi] at ha; cases ha
    | refused _ _ _ ht he hd => exact .refused hi hq (Or.inr (Or.inl rfl)) ht he hd
    | ended hi' =>
      rcases hi' with ⟨_, hc'⟩ | ⟨_, hq', _⟩
      · rw [hc] at hc'; cases hc'
      · rw [hq] at hq'; cases hq'
    | restored _ hc' => rw [hc] at hc'; cases hc'
  | queued hh =>
    have ha : c.inner.active = true := by rw [hh.inner]; rfl
    have hl := (h.running ha).live
    exact h.goOn ha ha h.writing ⟨rfl, hl.endedAt, hl.done, hl.restored⟩ (fun _ => rfl)
      ((h.numbered.setStatus .queued none).of_events rfl rfl) h.stopStatus
  | admitted hh =>
    have ha : c.inner.active = true := by rw [hh.inner]; rfl
    have hl := (h.running ha).live
    exact h.goOn ha ha h.writing ⟨rfl, hl.endedAt, hl.done, hl.restored⟩ id
      ((h.numbered.setStatus .inProgress none).of_events rfl rfl) h.stopStatus
  | finished hh => exact h.still hh.inner ⟨rfl, rfl, rfl, rfl, rfl, rfl, rfl, rfl⟩ h.stopStatus
  | writer hh => exact h.still hh.inner (Run.Still.refl _) h.stopStatus
  | body hh => exact h.still hh.inner (Run.Still.refl _) h.stopStatus
  | added hp =>
    exact h.still (h.writing (by rw [hp]; simp)) ⟨rfl, rfl, rfl, rfl, rfl, rfl, rfl, rfl⟩
      h.stopStatus
  | exceeding hp => exact h.still (h.writing (by rw [hp]; simp)) (Run.Still.refl _) h.stopStatus
  | stopping hp =>
    exact h.still (h.writing (by rw [hp]; simp)) Run.still_stop
      (Run.stop_stopStatus rfl h.stopStatus)
  | error hh =>
    exact h.told hh.inner ⟨rfl, rfl, rfl, rfl, rfl, rfl, rfl, rfl⟩ h.stopStatus
  | past hh =>
    exact h.still hh.inner Run.still_past (Run.stopChunk_stopStatus h.stopStatus)
  | charging hh => exact h.still hh.inner ⟨rfl, rfl, rfl, rfl, rfl, rfl, rfl, rfl⟩ h.stopStatus
  | uncharged hp =>
    exact h.still (h.writing (by rw [hp]; simp)) Run.still_stopChunk
      (Run.stopChunk_stopStatus h.stopStatus)
  | charged hp =>
    have hi := h.writing (by rw [hp]; simp)
    have ha : c.inner.active = true := by rw [hi]; rfl
    have hl := (h.running ha).live
    exact h.goOn ha ha (fun _ => hi) ⟨hl.terminal, hl.endedAt, hl.done, hl.restored⟩ id
      ((h.numbered.emit (.chunk _)).of_events rfl rfl) h.stopStatus
  | returned hh =>
    have hl := (h.running (by rw [hh.inner]; rfl)).live
    exact h.goOn (by rw [hh.inner]; rfl) rfl (fun hw => absurd hh.pc hw) hl id h.numbered
      h.stopStatus
  | finishBody hi hinner =>
    have hl := (h.running (by rw [hi]; rfl)).live
    refine h.goOn (by rw [hi]; rfl) ?_ (fun hw => absurd (h.writer_idle (by rw [hi]; simp)) hw)
      ⟨hl.terminal, hl.endedAt, hl.done, hl.restored⟩ id (h.numbered.of_events rfl rfl)
      h.stopStatus
    rcases hinner with rfl | rfl <;> rfl
  | unseen hi hq =>
    have hr := h.running (by rw [hi]; rfl)
    have hw := h.writer_idle (by rw [hi]; simp)
    have hc : c.create = .waiting := by
      rcases hr.create with hc | ⟨_, hq'⟩
      · exact hc
      · rw [hq] at hq'; cases hq'
    exact
      { stage := .refused rfl hq (Or.inl hc) hr.live.terminal hr.live.endedAt
          (congrArg (· + 1) hr.live.done)
        writing := fun hne => absurd hw hne
        numbered := h.numbered.of_events rfl rfl
        stopStatus := h.stopStatus }
  | ended hi hq hinner =>
    have hr := h.running (by rw [hi]; rfl)
    have hw := h.writer_idle (by rw [hi]; simp)
    refine
      { stage := .ended (Or.inr ⟨?_, hq, hr.create.imp_right And.left⟩) hr.live.restored
          (Run.over_finishAt (outcome_terminal _ h.stopStatus)) (congrArg (· + 1) hr.live.done)
        writing := fun hne => absurd hw hne
        numbered := numbered_ended h.numbered
        stopStatus := h.stopStatus }
    rcases hinner with ⟨_, rfl⟩ | ⟨_, rfl⟩
    · exact Or.inl rfl
    · exact Or.inr rfl
  | finishRelease hi =>
    have hw := h.writer_idle (by rw [hi]; simp)
    refine ⟨?_, fun hne => absurd hw hne, h.numbered.of_events rfl rfl, h.stopStatus⟩
    cases h.stage with
    | before _ hn => rw [hi] at hn; cases hn
    | active ha => rw [hi] at ha; cases ha
    | refused hs => rw [hi] at hs; cases hs
    | ended hi' hres ho hd =>
      rcases hi' with ⟨hn, _⟩ | ⟨_, hq, hc⟩
      · rw [hi] at hn; cases hn
      · exact .ended (Or.inr ⟨Or.inr rfl, hq, hc⟩) hres ⟨ho.terminal, ho.endedAt, ho.ends⟩ hd
    | restored hn => rw [hi] at hn; cases hn
  | stop =>
    refine ⟨Stage.still h.stage Run.still_stop ?_ ?_, h.writing, Run.still_stop.numbered h.numbered,
      Run.stop_stopStatus (StopCause.terminal _) h.stopStatus⟩
    · exact fun hc => Run.stop_cancel.trans hc
    · exact fun hh hb => ⟨Run.stop_held.trans hh, Run.stop_body.trans hb⟩

/-- A run that `create` forgets was refused before the queue. -/
structure Forgotten (c : Call) : Prop where
  inner : c.inner = .settled
  queuedSeen : c.run.queuedSeen = false
  terminal : c.run.terminal = false
  endedAt : c.run.endedAt = none
  done : c.run.done = 1

theorem Sound.forgotten (h : c.Sound)
    (hc : c.create = .forgetting ∨ c.create = .releasing ∨ c.create = .forgotten) :
    c.Forgotten := by
  have hwaiting : c.create ≠ .waiting := by rcases hc with hc | hc | hc <;> rw [hc] <;> simp
  have hanswered : c.create ≠ .answered := by rcases hc with hc | hc | hc <;> rw [hc] <;> simp
  cases h.stage with
  | before hp => rcases hc with hc | hc | hc <;> rw [hc] at hp <;> cases hp
  | active _ hc' =>
    rcases hc' with hc' | ⟨hc', _⟩
    · exact absurd hc' hwaiting
    · exact absurd hc' hanswered
  | refused hs hq _ ht he hd => exact ⟨hs, hq, ht, he, hd⟩
  | ended hc' =>
    rcases hc' with ⟨_, hc'⟩ | ⟨_, _, hc' | hc'⟩
    · exact absurd hc' hanswered
    · exact absurd hc' hwaiting
    · exact absurd hc' hanswered
  | restored _ hc' => exact absurd hc' hanswered

theorem Forgotten.sound {pc : CreatePc} (hf : c.Forgotten) (h : c.Sound) (hr : c.run.Still r)
    (hs : ∀ status, r.stopStatus = some status → status.terminal = true)
    (hpc : pc = .releasing ∨ pc = .forgotten) :
    Sound { c with create := pc, run := r } where
  stage := .refused hf.inner (hr.queuedSeen.trans hf.queuedSeen) (Or.inr (Or.inr hpc))
    (hr.terminal.trans hf.terminal) (hr.endedAt.trans hf.endedAt) (hr.done.trans hf.done)
  writing := h.writing
  numbered := hr.numbered h.numbered
  stopStatus := hs

end Call

theorem Run.still_release : r.Still r.release :=
  ⟨rfl, rfl, rfl, rfl, rfl, rfl, rfl, rfl⟩

variable {cfg : Config} {G : Int → Call → CallEvent → Prop} {w : Manager}

theorem Move.sound {c c' : Call} (h : c.Sound) (hm : Move cfg G c c') : c'.Sound := by
  cases hm with
  | create hpc =>
    refine ⟨.before ?_ rfl ⟨rfl, rfl, rfl, rfl⟩ rfl rfl rfl rfl, fun hw => absurd rfl hw,
      ⟨rfl, rfl⟩, fun s hs => by cases hs⟩
    rcases hpc with rfl | rfl <;> rfl
  | «section» _ hs => exact (Call.section_of_step hs).sound h
  | publish hc =>
    have hb := h.before (by rw [hc]; rfl)
    exact ⟨.active rfl (Or.inl rfl) ⟨hb.live.terminal, hb.live.endedAt, hb.live.done,
      hb.live.restored⟩, fun _ => rfl, h.numbered.of_events rfl rfl, h.stopStatus⟩
  | ended hc =>
    have hb := h.before (by rw [hc]; rfl)
    refine ⟨.ended (Or.inl ⟨hb.inner, rfl⟩) hb.live.restored (Run.over_finishAt rfl)
      (congrArg (· + 1) hb.live.done), h.writing, ?_, h.stopStatus⟩
    exact ((h.numbered.emit (.status _ _)).emit (.end _)).of_events rfl rfl
  | refuse hc =>
    have hb := h.before (by rcases hc with hc | ⟨_, e, hc⟩ <;> rw [hc] <;> rfl)
    exact ⟨.before rfl hb.inner hb.live hb.queuedSeen hb.cancel hb.held hb.body, h.writing,
      h.numbered, h.stopStatus⟩
  | forget hc =>
    exact (h.forgotten (Or.inl hc)).sound h (Run.Still.refl _) h.stopStatus (Or.inl rfl)
  | forgotten hc =>
    exact (h.forgotten (Or.inr (Or.inl hc))).sound h Run.still_release h.stopStatus (Or.inr rfl)
  | stop =>
    exact ⟨Call.Stage.still h.stage Run.still_stop (fun hc => Run.stop_cancel.trans hc)
        fun hh hb => ⟨Run.stop_held.trans hh, Run.stop_body.trans hb⟩,
      h.writing, Run.still_stop.numbered h.numbered,
      Run.stop_stopStatus (StopCause.terminal _) h.stopStatus⟩
  | dismissed =>
    have hstill : c.run.Still { c.run with dismissed := true } :=
      ⟨rfl, rfl, rfl, rfl, rfl, rfl, rfl, rfl⟩
    exact ⟨Call.Stage.still h.stage hstill id fun hh hb => ⟨hh, hb⟩, h.writing,
      hstill.numbered h.numbered, h.stopStatus⟩
  | release =>
    exact ⟨Call.Stage.still h.stage Run.still_release id fun _ _ => ⟨rfl, rfl⟩, h.writing,
      Run.still_release.numbered h.numbered, h.stopStatus⟩

/-! ## A run that has ended -/

theorem Call.Section.still {held n : Int} {c c' : Call} {e : CallEvent} (h : c.Sound)
    (ht : c.run.terminal = true) (hs : Section cfg held e c c' n) : c.run.Still c'.run := by
  have hno : c.inner.active = true → c.run.Still c'.run := fun hi => by
    rw [(h.running hi).live.terminal] at ht
    cases ht
  have hrun : c.inner = .running → c.run.Still c'.run := fun hi => hno (by rw [hi]; rfl)
  cases hs with
  | queued hh | admitted hh | finished hh | writer hh | body hh | error hh | past hh
  | charging hh | returned hh => exact hrun hh.inner
  | added hpc | exceeding hpc | stopping hpc | uncharged hpc | charged hpc =>
    exact hrun (h.writing (by rw [hpc]; simp))
  | gaveBody hi | finishBody hi | unseen hi | ended hi => exact hno (by rw [hi]; rfl)
  | charge => exact ⟨rfl, rfl, rfl, rfl, rfl, rfl, rfl, rfl⟩
  | unsized | refused | full | answer | refuse => exact Run.Still.refl _
  | finishRelease => exact Run.still_release
  | stop => exact Run.still_stop

theorem Move.still {c c' : Call} (hm : Move cfg G c c') (h : c.Sound)
    (ht : c.run.terminal = true) : c.run.Still c'.run := by
  cases hm with
  | create => cases ht
  | «section» _ hs => exact (Call.section_of_step hs).still h ht
  | publish hc | ended hc =>
    have hb := h.before (by rw [hc]; rfl)
    rw [hb.live.terminal] at ht
    cases ht
  | refuse | forget => exact Run.Still.refl _
  | forgotten | release => exact Run.still_release
  | stop => exact Run.still_stop
  | dismissed => exact ⟨rfl, rfl, rfl, rfl, rfl, rfl, rfl, rfl⟩

theorem Move.terminal {c c' : Call} (hm : Move cfg G c c') (h : c.Sound)
    (ht : c.run.terminal = true) : c'.run.terminal = true :=
  (hm.still h ht).terminal.trans ht

theorem sound_of_reachable (h : Reachable (manager cfg) w) (k : Nat) : (w.call k).Sound :=
  call_invariant Call.sound_fresh (fun _ => Call.sound_restored) (fun _ _ => Move.sound)
    (reaches_free h) k

theorem Call.Sound.over_of_terminal {c : Call} (h : c.Sound) (ht : c.run.terminal = true)
    (hnew : c.run.restored = false) : c.run.Over := by
  cases h.stage with
  | before _ _ hl => rw [hl.terminal] at ht; cases ht
  | active _ _ hl => rw [hl.terminal] at ht; cases ht
  | refused _ _ _ ht' => rw [ht'] at ht; cases ht
  | ended _ _ ho => exact ho
  | restored _ _ hres => rw [hnew] at hres; cases hres

/-- What is known of every reachable manager. -/
structure Manager.Known (w : Manager) : Prop where
  wired : w.Wired
  sound : ∀ k, (w.call k).Sound

theorem Manager.known_of_reachable (h : Reachable (manager cfg) w) : w.Known :=
  ⟨wired_of_reaches h, sound_of_reachable h⟩

end LocalBase.Runs
