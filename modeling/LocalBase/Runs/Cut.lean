import LocalBase.Lib.Pieces
import LocalBase.Runs.Output

/-!
# How a response is cut into writes

The inner handler relays an event stream in `Write` calls, and where it cuts the
stream says nothing about the events: a block, a line or a character can be
spread over any number of calls. As long as no limit refuses a chunk, the run
has taken the blocks that the bytes so far hold, in order, and the buffer is
what they leave. What the other runs hold in between only matters to a limit,
and a stop from outside moves neither.
-/

namespace LocalBase.Runs

open Pieces
open StructuredOutput (Object)

/-! ## Blocks -/

variable {block rest : Bytes}

theorem nextBlock_append {x : Bytes} (y : Bytes)
    (h : nextBlock x = some (block, rest)) : nextBlock (x ++ y) = some (block, rest ++ y) := by
  induction x generalizing block with
  | nil => cases h
  | cons b x ih =>
    rw [nextBlock] at h
    rw [List.cons_append, nextBlock]
    split at h
    · next hempty =>
      cases h
      obtain ⟨hb, hx⟩ := hempty
      cases x with
      | nil => cases hx
      | cons b' x => rw [if_pos ⟨hb, hx⟩]; rfl
    · next hline =>
      obtain ⟨⟨head, rest'⟩, hnext, heq⟩ := Option.map_eq_some_iff.mp h
      cases heq
      cases x with
      | nil => cases hnext
      | cons b' x =>
        have hline' : ¬ (b = newline ∧ (b' :: x ++ y).head? = some newline) := hline
        rw [if_neg hline', ih hnext]
        rfl

theorem nextBlock_shrinks {x : Bytes} (h : nextBlock x = some (block, rest)) :
    rest.length < x.length := by
  induction x generalizing block with
  | nil => cases h
  | cons b x ih =>
    rw [nextBlock] at h
    split at h
    · cases h
      exact Nat.lt_succ_of_le (List.length_tail ▸ Nat.sub_le _ _)
    · obtain ⟨⟨head, rest'⟩, hnext, heq⟩ := Option.map_eq_some_iff.mp h
      cases heq
      exact Nat.lt_succ_of_lt (ih hnext)

/-- A response, cut at its empty lines. -/
def blocks : Splitter UInt8 Bytes where
  next := nextBlock
  stable := nextBlock_append
  shrinks := nextBlock_shrinks

/-! ## What the blocks make of a run -/

/-- `event` on one block, when no limit refuses it. -/
def Run.take (cfg : Config) (r : Run) (block : Bytes) : Run :=
  match cfg.relayed block with
  | .nothing => r
  | .error payload e =>
    { r with error := some (.relayed e), held := r.held + payload.length }.emit (.error payload)
  | .chunk payload obj =>
    { r with
      relayed := r.relayed ++ [payload]
      bytes := r.bytes + payload.length
      held := r.held + Call.chunkHeld payload
      output := r.output.add obj }.emit (.chunk payload)

/-- A block is within the limits of its own run. -/
def Run.Takes (cfg : Config) (r : Run) (block : Bytes) : Prop :=
  ∀ payload obj, cfg.relayed block = .chunk payload obj →
    r.bytes + payload.length ≤ cfg.maxOutput ∧ r.held + Call.chunkHeld payload ≤ cfg.maxHeld

def Run.takeAll (cfg : Config) (r : Run) (bs : List Bytes) : Run := bs.foldl (Run.take cfg) r

/-- Each of a list of blocks is, after those before it. -/
def Run.TakesAll (cfg : Config) (r : Run) : List Bytes → Prop
  | [] => True
  | block :: rest => r.Takes cfg block ∧ (r.take cfg block).TakesAll cfg rest

/-- A run as another has been stopped. -/
def Run.stoppedAs (r s : Run) : Run :=
  { r with stopStatus := s.stopStatus, stopReason := s.stopReason }

section Run

variable {cfg : Config} {r s : Run} {block : Bytes} {bs : List Bytes}

theorem takeAll_concat : r.takeAll cfg (bs ++ [block]) = (r.takeAll cfg bs).take cfg block :=
  List.foldl_append

theorem takesAll_append (bs' : List Bytes) :
    r.TakesAll cfg (bs ++ bs') ↔ r.TakesAll cfg bs ∧ (r.takeAll cfg bs).TakesAll cfg bs' := by
  induction bs generalizing r with
  | nil => simp [Run.TakesAll, Run.takeAll]
  | cons block bs ih =>
    rw [List.cons_append, Run.TakesAll, Run.TakesAll, ih, and_assoc]
    rfl

theorem take_stoppedAs : (r.stoppedAs s).take cfg block = (r.take cfg block).stoppedAs s := by
  unfold Run.take
  cases cfg.relayed block <;> rfl

theorem stop_eq_stoppedAs {status : Status} {reason : Reason} :
    r.stop status reason = r.stoppedAs (r.stop status reason) := by
  unfold Run.stop
  split <;> rfl

end Run

/-! ## A series of writes -/

namespace Call

/-- The `Write` calls with the given bytes, from one call to the handler having
the writer back, while the other runs move the counter and anyone may stop the
run. No limit refuses a chunk. -/
inductive Writes (cfg : Config) : Call → List Bytes → Call → Prop
  | done {c : Call} : c.Handling → c.drained = true → Writes cfg c [] c
  | write {c c₁ c' : Call} {held n : Int} {full : RunError} {b : Bytes} {pieces : List Bytes} :
      c.step cfg held full (.write b) = some (c₁, n) → Writes cfg c₁ pieces c' →
      Writes cfg c (b :: pieces) c'
  | event {c c₁ c' : Call} {held n : Int} {full : RunError} {pieces : List Bytes} :
      (∀ payload, c.nextChunk cfg = some payload → c.fits cfg held = true) →
      c.step cfg held full .event = some (c₁, n) → Writes cfg c₁ pieces c' →
      Writes cfg c pieces c'
  | charged {c c₁ c' : Call} {held n : Int} {full : RunError} {pieces : List Bytes} :
      c.step cfg held full .charged = some (c₁, n) → Writes cfg c₁ pieces c' →
      Writes cfg c pieces c'
  | stop {c c₁ c' : Call} {held n : Int} {full : RunError} {cause : StopCause}
      {pieces : List Bytes} :
      c.step cfg held full (.stop cause) = some (c₁, n) → Writes cfg c₁ pieces c' →
      Writes cfg c pieces c'

/-- The response is an event stream: its header said so, or the first `Write`
will send one that does. -/
def Streaming (c : Call) : Prop :=
  if c.writer.status = 0 then c.run.target = .chat ∧ c.writer.eventStream = true
  else c.writer.sse = true

/-- The run once the chunk being counted is through. -/
def settledRun (c : Call) : Run :=
  match c.writer.pc with
  | .charging payload obj n _ =>
    { c.run with held := c.run.held + n, output := c.run.output.add obj }.emit (.chunk payload)
  | _ => c.run

/-- Where a call is after the bytes `w`: the run has taken the first blocks of
them, and the buffer holds the others and what is left. -/
structure After (cfg : Config) (c₀ : Call) (w : Bytes) (bs : List Bytes) (c : Call) : Prop where
  inner : c.inner = .running
  pc : c.writer.pc = .idle ∨ ∃ payload obj n, c.writer.pc = .charging payload obj n false
  streaming : c.Streaming
  takes : c₀.run.TakesAll cfg bs
  run : c.settledRun = (c₀.run.takeAll cfg bs).stoppedAs c.run
  bytes : blocks.drain (c₀.writer.buf ++ w) =
    (bs ++ (blocks.drain c.writer.buf).1, (blocks.drain c.writer.buf).2)

variable {cfg : Config} {c₀ c c' : Call} {held n : Int} {full : RunError} {w : Bytes}
  {bs : List Bytes} {pieces : List Bytes} {payload : Bytes}

theorem settledRun_of_idle (h : c.writer.pc = .idle) : c.settledRun = c.run := by
  rw [settledRun, h]

theorem started_buf {w : Writer} {target : Target} : (Writer.started w target).buf = w.buf := by
  unfold Writer.started Writer.writeHeader
  split_ifs <;> rfl

theorem started_pc {w : Writer} {target : Target} : (Writer.started w target).pc = w.pc := by
  unfold Writer.started Writer.writeHeader
  split_ifs <;> rfl

theorem Streaming.started (h : c.Streaming) :
    (Writer.started c.writer c.run.target).status ≠ 0 ∧
      (Writer.started c.writer c.run.target).sse = true := by
  unfold Streaming at h
  unfold Writer.started Writer.writeHeader
  by_cases h0 : c.writer.status = 0
  · rw [if_pos h0] at h
    simp [h0, h.1, h.2]
  · rw [if_neg h0] at h
    simp [h0, h]

theorem drain_of_drained (h : c.drained = true) : blocks.drain c.writer.buf = ([], c.writer.buf) :=
  Splitter.drain_of_none (Option.isNone_iff_eq_none.mp h)

theorem drain_of_block (h : nextBlock c.writer.buf = some (block, rest)) :
    blocks.drain c.writer.buf = (block :: (blocks.drain rest).1, (blocks.drain rest).2) :=
  Splitter.drain_of_some (s := blocks) h

theorem After.write {b : Bytes} (h : After cfg c₀ w bs c)
    (hs : c.step cfg held full (.write b) = some (c', n)) :
    After cfg c₀ (w ++ b) bs c' := by
  simp only [step] at hs
  split at hs
  · next hready =>
    obtain ⟨hh, hd⟩ := Bool.and_eq_true_iff.mp hready
    obtain ⟨_, hidle⟩ := handling_iff.mp hh
    obtain ⟨hsent, hstream⟩ := h.streaming.started
    have hblocks := h.bytes
    have hrun := h.run
    rw [settledRun_of_idle hidle] at hrun
    rw [Call.write, if_pos hstream] at hs
    cases hs
    refine ⟨h.inner, Or.inl (started_pc.trans hidle), ?_, h.takes, ?_, ?_⟩
    · rw [Streaming, if_neg (by exact hsent)]
      exact hstream
    · rw [settledRun_of_idle (started_pc.trans hidle)]
      exact hrun
    · rw [drain_of_drained hd, List.append_nil] at hblocks
      rw [← List.append_assoc, Splitter.drain_append, hblocks, started_buf]
  · cases hs

theorem nextChunk_of {obj : Object} (hb : nextBlock c.writer.buf = some (block, rest))
    (hr : cfg.relayed block = .chunk payload obj) : c.nextChunk cfg = some payload := by
  rw [nextChunk, hb]
  dsimp only
  rw [hr]

theorem fits_iff (h : c.nextChunk cfg = some payload) :
    c.fits cfg held = true ↔ c.run.bytes + payload.length ≤ cfg.maxOutput ∧
      c.run.held + chunkHeld payload ≤ cfg.maxHeld ∧
      held + chunkHeld payload ≤ cfg.maxHeldTotal := by
  rw [fits, h]
  simp only [Bool.and_eq_true, decide_eq_true_eq, and_assoc]

theorem After.event (h : After cfg c₀ w bs c)
    (hg : ∀ payload, c.nextChunk cfg = some payload → c.fits cfg held = true)
    (hs : c.step cfg held full .event = some (c', n)) :
    ∃ block, After cfg c₀ w (bs ++ [block]) c' := by
  simp only [step] at hs
  split at hs
  · next hh =>
    obtain ⟨_, hidle⟩ := handling_iff.mp hh
    split at hs
    · next block rest hb =>
      refine ⟨block, ?_⟩
      have hrun := h.run
      rw [settledRun_of_idle hidle] at hrun
      have hblocks := h.bytes
      rw [drain_of_block hb, List.append_cons] at hblocks
      have hpast : (c.run.take cfg block) =
          (c₀.run.takeAll cfg (bs ++ [block])).stoppedAs c.run := by
        rw [takeAll_concat, ← take_stoppedAs, ← hrun]
      have htakes (hb : c.run.Takes cfg block) : c₀.run.TakesAll cfg (bs ++ [block]) := by
        rw [takesAll_append]
        refine ⟨h.takes, ?_, trivial⟩
        rw [hrun] at hb
        exact hb
      unfold Call.event at hs
      cases hr : cfg.relayed block with
      | nothing =>
        rw [hr] at hs
        cases hs
        refine ⟨h.inner, Or.inl hidle, h.streaming, htakes ?_, ?_, hblocks⟩
        · intro payload obj hchunk
          cases hr.symm.trans hchunk
        · rw [settledRun_of_idle (by exact hidle), ← hpast, Run.take, hr]
      | error payload e =>
        rw [hr] at hs
        cases hs
        refine ⟨h.inner, Or.inl hidle, h.streaming, htakes ?_, ?_, hblocks⟩
        · intro payload obj hchunk
          cases hr.symm.trans hchunk
        · rw [settledRun_of_idle (by exact hidle)]
          rw [Run.take, hr] at hpast
          exact hpast
      | chunk payload obj =>
        obtain ⟨hbytes, hheld, htotal⟩ :=
          (fits_iff (nextChunk_of hb hr)).mp (hg payload (nextChunk_of hb hr))
        rw [hr] at hs
        dsimp only at hs
        rw [if_neg (not_lt.mpr hbytes), if_neg (not_lt.mpr hheld)] at hs
        cases hs
        refine ⟨h.inner, Or.inr ⟨payload, obj, chunkHeld payload, ?_⟩, h.streaming,
          htakes ?_, ?_, hblocks⟩
        · simp [not_lt.mpr htotal]
        · intro payload' obj' hchunk
          cases hr.symm.trans hchunk
          exact ⟨hbytes, hheld⟩
        · rw [Run.take, hr] at hpast
          exact hpast
    · cases hs
  · cases hs

theorem After.charged (h : After cfg c₀ w bs c)
    (hs : c.step cfg held full .charged = some (c', n)) : After cfg c₀ w bs c' := by
  simp only [step] at hs
  split at hs
  · next payload obj m past hpc =>
    obtain hidle | ⟨_, _, _, hcharging⟩ := h.pc
    · cases hidle.symm.trans hpc
    · cases hcharging.symm.trans hpc
      have hrun := h.run
      rw [settledRun, hpc] at hrun
      cases hs
      exact ⟨h.inner, Or.inl rfl, h.streaming, h.takes, hrun, h.bytes⟩
  · cases hs

theorem After.stop {cause : StopCause} (h : After cfg c₀ w bs c)
    (hs : c.step cfg held full (.stop cause) = some (c', n)) : After cfg c₀ w bs c' := by
  simp only [step] at hs
  split at hs
  · cases hs
  · next hfree =>
    cases hs
    obtain hidle | ⟨_, _, _, hcharging⟩ := h.pc
    · refine ⟨h.inner, Or.inl hidle, ?_, h.takes, ?_, h.bytes⟩
      · have htarget : (c.run.stop cause.status cause.reason).target = c.run.target := by
          rw [stop_eq_stoppedAs]
          rfl
        rw [Streaming, htarget]
        exact h.streaming
      · have hrun := h.run
        rw [settledRun_of_idle hidle] at hrun
        rw [settledRun_of_idle (by exact hidle)]
        calc c.run.stop cause.status cause.reason
            = c.run.stoppedAs (c.run.stop cause.status cause.reason) := stop_eq_stoppedAs
          _ = ((c₀.run.takeAll cfg bs).stoppedAs c.run).stoppedAs
                (c.run.stop cause.status cause.reason) := by rw [← hrun]
          _ = _ := rfl
    · exact absurd (by rw [locked, hcharging]) hfree

theorem Writes.after (hw : c.Writes cfg pieces c') (h : After cfg c₀ w bs c) :
    ∃ bs', After cfg c₀ (w ++ pieces.flatten) bs' c' ∧ c'.Handling ∧ c'.drained = true := by
  induction hw generalizing w bs with
  | done hh hd => exact ⟨bs, by simpa using h, hh, hd⟩
  | write hs _ ih =>
    rw [List.flatten_cons, ← List.append_assoc]
    exact ih (h.write hs)
  | event hg hs _ ih =>
    obtain ⟨block, hblock⟩ := h.event hg hs
    exact ih hblock
  | charged hs _ ih => exact ih (h.charged hs)
  | stop hs _ ih => exact ih (h.stop hs)

theorem Writes.result (hh : c.Handling) (hsse : c.Streaming) (hw : c.Writes cfg pieces c') :
    let whole := blocks.drain (c.writer.buf ++ pieces.flatten)
    c.run.TakesAll cfg whole.1 ∧ c'.run = (c.run.takeAll cfg whole.1).stoppedAs c'.run ∧
      c'.writer.buf = whole.2 := by
  have hstart : After cfg c [] [] c := by
    refine ⟨hh.inner, Or.inl hh.pc, hsse, trivial, settledRun_of_idle hh.pc, ?_⟩
    rw [List.append_nil, List.nil_append]
  obtain ⟨bs, hafter, hh', hd'⟩ := hw.after hstart
  have hbytes := hafter.bytes
  have hrun := hafter.run
  rw [List.nil_append, drain_of_drained hd', List.append_nil] at hbytes
  rw [settledRun_of_idle hh'.pc] at hrun
  intro whole
  have hwhole : whole = (bs, c'.writer.buf) := hbytes
  rw [hwhole]
  exact ⟨hafter.takes, hrun, rfl⟩

/-! ## Every cut is a series of writes -/

theorem step_event (cfg : Config) (held : Int) (hh : c.Handling)
    (hb : nextBlock c.writer.buf = some (block, rest)) :
    c.step cfg held .upstream .event =
      some ({ c with writer := { c.writer with buf := rest } }.event cfg held block) := by
  rw [step, if_pos (handling_iff.mpr hh), hb]

theorem step_charged (cfg : Config) (held : Int) {obj : Object} {m : Int}
    (h : c.writer.pc = .charging payload obj m false) :
    c.step cfg held .upstream .charged =
      some ({ c with run := c.settledRun, writer := { c.writer with pc := .idle } }, 0) := by
  simp only [step, settledRun, h, Bool.false_eq_true, if_false]

theorem writes_unlimited (hh : c.Handling) (hb : nextBlock c.writer.buf = some (block, rest))
    (hr : ∀ payload obj, cfg.relayed block ≠ .chunk payload obj)
    (hw : Writes cfg ({ c with writer := { c.writer with buf := rest } }.event cfg 0 block).1
      pieces c') : c.Writes cfg pieces c' := by
  refine .event (fun payload hnext => ?_) (step_event cfg 0 hh hb) hw
  rw [nextChunk, hb] at hnext
  dsimp only at hnext
  split at hnext
  · next payload' obj hchunk => exact absurd hchunk (hr payload' obj)
  · cases hnext

theorem writes_block (hh : c.Handling) (hb : nextBlock c.writer.buf = some (block, rest))
    (ht : c.run.Takes cfg block) (hw : Writes cfg
      { c with writer := { c.writer with buf := rest }, run := c.run.take cfg block } pieces c') :
    c.Writes cfg pieces c' := by
  cases hr : cfg.relayed block with
  | nothing =>
    refine writes_unlimited hh hb (by rw [hr]; intros; exact Relayed.noConfusion) ?_
    rw [Run.take, hr] at hw
    rw [Call.event, hr]
    exact hw
  | error payload e =>
    refine writes_unlimited hh hb (by rw [hr]; intros; exact Relayed.noConfusion) ?_
    rw [Run.take, hr] at hw
    rw [Call.event, hr]
    exact hw
  | chunk payload obj =>
    obtain ⟨hbytes, hheld⟩ := ht payload obj hr
    have hnext := nextChunk_of hb hr
    -- The counter when the chunk comes leaves just the room that it needs.
    obtain ⟨held, hroom⟩ : ∃ held, held + chunkHeld payload = cfg.maxHeldTotal :=
      ⟨cfg.maxHeldTotal - chunkHeld payload, by omega⟩
    have hs := step_event cfg held hh hb
    rw [Call.event, hr] at hs
    dsimp only at hs
    rw [if_neg (not_lt.mpr hbytes), if_neg (not_lt.mpr hheld), hroom,
      decide_eq_false (lt_irrefl _)] at hs
    refine .event (fun payload' hnext' => ?_) hs (.charged (step_charged cfg 0 rfl) ?_)
    · cases hnext.symm.trans hnext'
      exact (fits_iff hnext).mpr ⟨hbytes, hheld, hroom.le⟩
    · rw [Run.take, hr] at hw
      rw [← hh.pc]
      exact hw

theorem writes_blocks (hh : c.Handling) (ht : c.run.TakesAll cfg (blocks.drain c.writer.buf).1)
    (hw : Writes cfg
      { c with
        writer := { c.writer with buf := (blocks.drain c.writer.buf).2 }
        run := c.run.takeAll cfg (blocks.drain c.writer.buf).1 } pieces c') :
    c.Writes cfg pieces c' := by
  induction hn : c.writer.buf.length using Nat.strongRecOn generalizing c with
  | ind n ih =>
    cases hb : nextBlock c.writer.buf with
    | none =>
      rw [show blocks.drain c.writer.buf = _ from Splitter.drain_of_none (s := blocks) hb] at hw
      exact hw
    | some p =>
      obtain ⟨block, rest⟩ := p
      rw [drain_of_block hb] at ht hw
      refine writes_block hh hb ht.1 (ih rest.length (hn ▸ nextBlock_shrinks hb) ?_ ht.2 hw rfl)
      exact ⟨hh.inner, hh.pc⟩

/-- Every cut of a response whose chunks are within the limits of the run can
be written. -/
theorem exists_writes (hh : c.Handling) (hd : c.drained = true) (hsse : c.Streaming)
    (ht : c.run.TakesAll cfg (blocks.drain (c.writer.buf ++ pieces.flatten)).1) :
    ∃ c', c.Writes cfg pieces c' := by
  induction pieces generalizing c with
  | nil => exact ⟨c, .done hh hd⟩
  | cons b pieces ih =>
    obtain ⟨hsent, hstream⟩ := hsse.started
    rw [List.flatten_cons, ← List.append_assoc, Splitter.drain_append, takesAll_append] at ht
    have hs : c.step cfg 0 .upstream (.write b) = some
        ({ c with writer := { Writer.started c.writer c.run.target with
            buf := c.writer.buf ++ b } }, 0) := by
      rw [step, hd, handling_iff.mpr hh, Bool.and_self, if_pos rfl, Call.write, if_pos hstream,
        started_buf]
    have hpc : (Writer.started c.writer c.run.target).pc = .idle := started_pc.trans hh.pc
    obtain ⟨c', hw⟩ := ih
      (c := { c with
        writer := { Writer.started c.writer c.run.target with
          buf := (blocks.drain (c.writer.buf ++ b)).2 }
        run := c.run.takeAll cfg (blocks.drain (c.writer.buf ++ b)).1 })
      ⟨hh.inner, hpc⟩ (Option.isNone_iff_eq_none.mpr (Splitter.next_drain (s := blocks) _))
      (by rw [Streaming, if_neg (by exact hsent)]; exact hstream) ht.2
    exact ⟨c', .write hs (writes_blocks ⟨hh.inner, hpc⟩ ht.1 hw)⟩

/-- However a response is cut into writes, empty ones among them: the calls can
be made, and they leave the same events, output and error, the same bytes held
and the same bytes in the buffer, while no limit refuses a chunk. -/
theorem writes_cut_freely {c₁ : Call} {pieces pieces' : List Bytes} (hh : c.Handling)
    (hd : c.drained = true) (hsse : c.Streaming) (hw : c.Writes cfg pieces c₁)
    (hcut : pieces'.flatten = pieces.flatten) :
    (∃ c₂, c.Writes cfg pieces' c₂) ∧ ∀ c₂, c.Writes cfg pieces' c₂ →
      c₂.run.events = c₁.run.events ∧ c₂.run.output = c₁.run.output ∧
        c₂.run.error = c₁.run.error ∧ c₂.run.held = c₁.run.held ∧
        c₂.writer.buf = c₁.writer.buf := by
  obtain ⟨htakes, hrun, hbuf⟩ := hw.result hh hsse
  rw [← hcut] at htakes hrun hbuf
  refine ⟨exists_writes hh hd hsse htakes, fun c₂ hw₂ => ?_⟩
  obtain ⟨_, hrun₂, hbuf₂⟩ := hw₂.result hh hsse
  rw [hrun₂, hbuf₂, hrun, hbuf]
  exact ⟨rfl, rfl, rfl, rfl, rfl⟩

/-- A decoder that knows the text of one object, which has no members. -/
def emptyObject : Config where
  unmarshal payload := if payload = [123, 125] then some [] else none
  envelope _ := none

/-- A chat whose handler has said that it streams. -/
def streamingCall : Call where
  inner := .running
  writer := { eventStream := true }

theorem streamingCall_streaming : streamingCall.Streaming := by
  have h0 : streamingCall.writer.status = 0 := rfl
  rw [Streaming, if_pos h0]
  exact ⟨rfl, rfl⟩

theorem streamingCall_writes :
    ∃ c₁, streamingCall.Writes emptyObject
      [dataField ++ [32, 123, 125, newline], [newline]] c₁ := by
  refine exists_writes (handling_iff.mp rfl) rfl streamingCall_streaming ?_
  rw [Splitter.drain_of_some (s := blocks) rfl, Splitter.drain_of_none (s := blocks) rfl]
  refine ⟨fun payload obj h => ?_, trivial⟩
  have hchunk : emptyObject.relayed (dataField ++ [32, 123, 125]) = .chunk [123, 125] [] := rfl
  cases hchunk.symm.trans h
  decide

/-- The same bytes after an empty write and in one go. -/
theorem streamingCall_cut_freely :
    ∃ c₁ c₂, streamingCall.Writes emptyObject [dataField ++ [32, 123, 125, newline], [newline]] c₁ ∧
      streamingCall.Writes emptyObject [[], dataField ++ [32, 123, 125, newline, newline]] c₂ ∧
      c₂.run.events = c₁.run.events ∧ c₂.run.held = c₁.run.held := by
  obtain ⟨c₁, hw⟩ := streamingCall_writes
  have hcut : ([[], dataField ++ [32, 123, 125, newline, newline]] : List Bytes).flatten =
      [dataField ++ [32, 123, 125, newline], [newline]].flatten := rfl
  obtain ⟨⟨c₂, hw₂⟩, hsame⟩ :=
    writes_cut_freely (handling_iff.mp rfl) rfl streamingCall_streaming hw hcut
  obtain ⟨hevents, -, -, hheld, -⟩ := hsame c₂ hw₂
  exact ⟨c₁, c₂, hw, hw₂, hevents, hheld⟩

end Call

end LocalBase.Runs
