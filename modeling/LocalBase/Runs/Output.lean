import LocalBase.Runs.Stage

/-!
# Partial output

A chunk is kept when it passes three limits: the payload bytes of the run, what
the run holds, and what all the runs hold. One that does not is dropped and the
run is stopped, but the stop takes its time, and the chunks that are already on
their way still come. The first limit counts every chunk and so refuses all
that follow. The other two count what is kept: a later chunk that is smaller,
or comes after another run has given memory back, is kept again, and the run's
output has a hole where the refused one was.
-/

namespace LocalBase.Runs

open Machine

def RunOutput.ofChunks (cfg : Config) (chunks : List Bytes) : RunOutput :=
  chunks.foldl (fun o payload => ((cfg.unmarshal payload).map o.add).getD o) {}

/-- The payload of the next block, when it is a chunk. -/
def Call.nextChunk (cfg : Config) (c : Call) : Option Bytes :=
  match nextBlock c.writer.buf with
  | none => none
  | some (block, _) =>
    match cfg.relayed block with
    | .chunk payload _ => some payload
    | _ => none

/-- The next block is a chunk, and passes the limits. -/
def Call.fits (cfg : Config) (held : Int) (c : Call) : Bool :=
  match c.nextChunk cfg with
  | none => false
  | some payload =>
    decide (c.run.bytes + payload.length ≤ cfg.maxOutput) &&
      decide (c.run.held + Call.chunkHeld payload ≤ cfg.maxHeld) &&
      decide (held + Call.chunkHeld payload ≤ cfg.maxHeldTotal)

/-- No chunk that fits is relayed to a run that has refused one. -/
def NoLateChunk (cfg : Config) (held : Int) (c : Call) : CallEvent → Prop
  | .event => c.run.kept ≠ c.run.relayed → c.fits cfg held = false
  | _ => True

instance decidableNoLateChunk (cfg : Config) (held : Int) (c : Call) (e : CallEvent) :
    Decidable (NoLateChunk cfg held c e) :=
  match e with
  | .event => inferInstanceAs (Decidable (c.run.kept ≠ c.run.relayed → c.fits cfg held = false))
  | .charge .. | .giveBack | .memoryFullError | .answer | .queued | .admitted _ | .finished _
  | .header _ | .writeHeader _ | .write _ | .wrote | .charged | .returned | .finishBody
  | .finish _ | .finishRelease | .stop _ => isTrue trivial

instance decidableGuard (G : Int → Call → CallEvent → Prop) [h : ∀ n c e, Decidable (G n c e)]
    (w : Manager) (e : Event) : Decidable (Manager.Guard G w e) :=
  match e with
  | .call k e => h w.held (w.call k) e
  | .create .. | .publish _ | .forget _ | .forgetRelease _ | .delete .. | .sweep ..
  | .sweepRelease _ | .close | .stream .. => isTrue trivial

/-- What the run keeps is the beginning of what it was relayed; a chunk that
has been counted is the next of it. -/
structure Call.Whole (cfg : Config) (c : Call) : Prop where
  kept : c.run.kept <+: c.run.relayed
  charging : ∀ payload obj n, c.writer.pc = .charging payload obj n false →
    c.run.relayed = c.run.kept ++ [payload] ∧ cfg.unmarshal payload = some obj
  output : c.run.restored = false → c.run.output = RunOutput.ofChunks cfg c.run.kept

namespace Call

variable {cfg : Config} {held n : Int} {c c' : Call} {e : CallEvent}
  {obj : StructuredOutput.Object} {r : Run} {payload : Bytes}

theorem kept_of_events {r' : Run} (h : r'.events = r.events) : r'.kept = r.kept := by
  unfold Run.kept
  rw [h]

theorem kept_emit {data : EventData} :
    (r.emit data).kept = r.kept ++ match data with
      | .chunk payload => [payload]
      | _ => [] := by
  unfold Run.kept Run.emit
  rw [List.filterMap_append]
  cases data <;> rfl

theorem ofChunks_append {chunks : List Bytes} (h : cfg.unmarshal payload = some obj) :
    RunOutput.ofChunks cfg (chunks ++ [payload]) = (RunOutput.ofChunks cfg chunks).add obj := by
  unfold RunOutput.ofChunks
  rw [List.foldl_append, List.foldl_cons, List.foldl_nil, h]
  rfl

theorem relayed_chunk {block : Bytes}
    (h : cfg.relayed block = .chunk payload obj) : cfg.unmarshal payload = some obj := by
  unfold Config.relayed at h
  simp only [] at h
  split at h
  · cases h
  · split at h
    · cases h
    · next hobj =>
      split at h
      · cases h
      · cases h
        exact hobj

theorem Whole.still (h : c.Whole cfg) {w : Writer} {create : CreatePc} {inner : InnerPc}
    (hk : r.kept = c.run.kept) (hr : r.relayed = c.run.relayed) (ho : r.output = c.run.output)
    (hres : r.restored = c.run.restored)
    (hpc : ∀ payload obj n, w.pc = .charging payload obj n false →
      c.writer.pc = .charging payload obj n false) :
    Whole cfg { create := create, inner := inner, writer := w, run := r } where
  kept := by rw [hk, hr]; exact h.kept
  charging payload obj n hw := by
    have hc := h.charging payload obj n (hpc payload obj n hw)
    refine ⟨?_, hc.2⟩
    rw [hr, hk]
    exact hc.1
  output hno := by
    rw [ho, hk]
    exact h.output (hres.symm.trans hno)

theorem whole_fresh : Whole cfg {} where
  kept := List.prefix_rfl
  charging payload obj n h := by cases h
  output _ := rfl

theorem whole_restored (h : c.Restored) : c.Whole cfg where
  kept := by
    unfold Run.kept
    rw [h.events]
    exact List.nil_prefix
  charging payload obj n hw := by
    rw [h.writer] at hw
    cases hw
  output hno := by
    rw [h.restored] at hno
    cases hno

theorem kept_finishAt {status : Status} {reason : Option Reason} {now retention : Nat} :
    (r.finishAt status reason now retention).kept = r.kept := by
  unfold Run.kept Run.finishAt Run.setStatus Run.emit
  simp

theorem stop_relayed {status : Status} {reason : Reason} :
    (r.stop status reason).relayed = r.relayed := by
  unfold Run.stop
  split <;> rfl

theorem stopChunk_relayed {reason : Reason} :
    (r.stopChunk reason).relayed = r.relayed := by
  unfold Run.stopChunk
  split <;> rfl

/-- The one case with an argument in it: a chunk that was counted fits, so
under the guard nothing has been refused before it. -/
theorem whole_charging {block rest : Bytes} (hg : NoLateChunk cfg held c .event)
    (hb : nextBlock c.writer.buf = some (block, rest))
    (hr : cfg.relayed block = .chunk payload obj)
    (hroom : ¬ cfg.maxOutput < c.run.bytes + payload.length)
    (hroom' : ¬ cfg.maxHeld < c.run.held + chunkHeld payload)
    (htotal : ¬ cfg.maxHeldTotal < held + chunkHeld payload) :
    c.run.kept = c.run.relayed := by
  by_contra hne
  have hno := hg hne
  unfold fits nextChunk at hno
  rw [hb] at hno
  simp only [hr, Bool.and_eq_false_iff, decide_eq_false_iff_not] at hno
  omega

theorem Section.whole (h : c.Whole cfg) (hg : NoLateChunk cfg held c e)
    (hs : Section cfg held e c c' n) : c'.Whole cfg := by
  have hsame : ∀ {r : Run}, c.run.Still r → r.kept = c.run.kept :=
    fun hr => kept_of_events hr.events
  cases hs with
  | charge | unsized | refused | full | gaveBody | answer | refuse | finished | returned
  | finishBody | unseen | finishRelease =>
    exact h.still rfl rfl rfl rfl fun _ _ _ => id
  | queued | admitted =>
    refine h.still ?_ rfl rfl rfl fun _ _ _ => id
    unfold Run.setStatus
    rw [kept_emit, List.append_nil]
    rfl
  | writer _ _ hpc =>
    refine h.still rfl rfl rfl rfl fun payload obj m hc => ?_
    rcases hpc with hpc | hpc <;> rw [hpc] at hc <;> cases hc
  | body _ _ hpc =>
    refine h.still rfl rfl rfl rfl fun payload obj m hc => ?_
    rcases hpc with hpc | hpc <;> rw [hpc] at hc <;> cases hc
  | added | exceeding => exact h.still rfl rfl rfl rfl fun _ _ _ hc => by cases hc
  | stopping =>
    exact h.still (hsame Run.still_stop) stop_relayed Run.still_stop.output
      Run.still_stop.restored fun _ _ _ hc => by cases hc
  | error =>
    refine h.still ?_ rfl rfl rfl fun _ _ _ => id
    rw [kept_emit, List.append_nil]
    rfl
  | past hh =>
    refine ⟨?_, ?_, ?_⟩
    · rw [hsame Run.still_past, stopChunk_relayed]
      exact h.kept.trans (List.prefix_append ..)
    · intro payload obj m hc
      rw [hh.pc] at hc
      cases hc
    · intro hno
      rw [hsame Run.still_past, Run.still_past.output]
      exact h.output (Run.still_past.restored.symm.trans hno)
  | charging hh hb hr hroom hroom' =>
    refine ⟨h.kept.trans (List.prefix_append ..), ?_, h.output⟩
    intro payload obj m hc
    simp only [WriterPc.charging.injEq, decide_eq_false_iff_not] at hc
    obtain ⟨rfl, rfl, rfl, htotal⟩ := hc
    have hsame := whole_charging hg hb hr hroom hroom' htotal
    refine ⟨?_, relayed_chunk hr⟩
    show c.run.relayed ++ [_] = c.run.kept ++ [_]
    rw [hsame]
  | uncharged =>
    exact h.still (hsame Run.still_stopChunk) stopChunk_relayed Run.still_stopChunk.output
      Run.still_stopChunk.restored fun _ _ _ hc => by cases hc
  | charged hp =>
    obtain ⟨hrelayed, hobj⟩ := h.charging _ _ _ hp
    refine ⟨?_, ?_, ?_⟩
    · rw [kept_emit]
      show c.run.kept ++ [_] <+: c.run.relayed
      rw [hrelayed]
    · intro _ _ _ hc
      cases hc
    · intro hno
      rw [kept_emit]
      show c.run.output.add _ = RunOutput.ofChunks cfg (c.run.kept ++ [_])
      rw [ofChunks_append hobj, h.output hno]
  | ended =>
    refine h.still ?_ rfl rfl rfl fun _ _ _ => id
    exact kept_finishAt
  | stop =>
    exact h.still (hsame Run.still_stop) stop_relayed Run.still_stop.output
      Run.still_stop.restored fun _ _ _ => id

end Call

variable {cfg : Config} {w : Manager}

theorem Move.whole {c c' : Call} (h : c.Whole cfg) (hm : Move cfg (NoLateChunk cfg) c c') :
    c'.Whole cfg := by
  cases hm with
  | create => exact h.still rfl rfl rfl rfl fun _ _ _ => id
  | «section» hg hs => exact (Call.section_of_step hs).whole h hg
  | ended => exact h.still Call.kept_finishAt rfl rfl rfl fun _ _ _ => id
  | stop =>
    exact h.still (Call.kept_of_events Run.still_stop.events) Call.stop_relayed
      Run.still_stop.output Run.still_stop.restored fun _ _ _ => id
  | _ => exact h.still rfl rfl rfl rfl fun _ _ _ => id

/-- In every run of the manager in which no chunk that fits is relayed to a run
that has refused one, the chunks a run keeps are the first of those relayed to
it, and its output is what they fold into. -/
theorem partial_output_whole
    (h : ReachesUnder (manager cfg) (Manager.Guard (NoLateChunk cfg)) w) (k : Nat)
    (hnew : (w.call k).run.restored = false) :
    (w.call k).run.kept <+: (w.call k).run.relayed ∧
      (w.call k).run.output = RunOutput.ofChunks cfg (w.call k).run.kept := by
  have hwhole : (w.call k).Whole cfg :=
    call_invariant Call.whole_fresh (fun _ => Call.whole_restored) (fun _ _ => Move.whole) h k
  exact ⟨hwhole.kept, hwhole.output hnew⟩

/-! ## A hole -/

def utf8 (s : String) : Bytes := s.toUTF8.toList

/-- The payload of a chunk that says `text`, and what it decodes to. -/
def chunkSaying (text : String) : Bytes :=
  utf8 ("\x7b\"choices\":[\x7b\"delta\":\x7b\"content\":\"" ++ text ++ "\"\x7d\x7d]\x7d")

def objectSaying (text : String) : StructuredOutput.Object :=
  [("choices", .arr [.obj [("delta", .obj [("content", .str text)])]])]

def relay (text : String) : Bytes := utf8 "data: " ++ chunkSaying text ++ [newline, newline]

def chatConfig : Config where
  unmarshal p :=
    if p = chunkSaying "Hello, " then some (objectSaying "Hello, ")
    else if p = chunkSaying "you" then some (objectSaying "you")
    else none
  envelope _ := none

/-- A chat of number `k` that is relayed two chunks in one write. -/
def helloChat (k : Nat) : List Event :=
  [.create "ada" .chat, .call k (.charge 106 0), .publish k, .call k .queued,
    .call k (.header true), .call k (.write (relay "Hello, " ++ relay "you")), .call k .event,
    .call k .charged, .call k .event, .call k .charged]

theorem hello_chat_whole :
    let r := (((manager chatConfig).after {} (helloChat 0)).call 0).run
    r.kept = [chunkSaying "Hello, ", chunkSaying "you"] ∧ r.output.content = "Hello, you" ∧
      r.kept <+: r.relayed ∧ r.output = RunOutput.ofChunks chatConfig r.kept := by
  have hr : ReachesUnder (manager chatConfig) (Manager.Guard (NoLateChunk chatConfig))
      ((manager chatConfig).after {} (helloChat 0)) :=
    reaches_under_after started_empty (by decide +kernel) (by decide +kernel)
  exact ⟨by decide +kernel, by decide +kernel, partial_output_whole hr 0 (by decide +kernel)⟩

/-- A finished chat of nearly 32 MiB, read back from its checkpoint. -/
def finishedChat : Call where
  create := .answered
  run :=
    { restored := true, status := .completed, endedAt := some 0, expiresAt := some 1800
      done := 1, held := 33554400 }

/-- Eight of them leave 256 bytes of the 256 MiB. -/
def fullManager : Manager where
  held := 8 * 33554400
  runs := List.range 8
  count := 8
  call k := if k < 8 then finishedChat else {}

theorem started_full : fullManager.Started where
  restored k hk := by
    have hcall : fullManager.call k = finishedChat := if_pos hk
    rw [hcall]
    exact ⟨rfl, rfl, rfl, rfl, rfl, rfl, rfl, rfl, rfl, rfl, rfl⟩
  fresh _ hk := if_neg (Nat.not_lt.mpr hk)
  runs _ := List.mem_range
  nodup := List.nodup_range
  held := by decide
  delete _ := rfl
  sweep _ := rfl
  stream _ := rfl

/-- The first chunk passes the total limit by four bytes and is dropped, and
the second, which is shorter, is kept. -/
theorem partial_output_has_hole :
    ¬ ∀ (cfg : Config) (w : Manager), Reachable (manager cfg) w → ∀ k,
      (w.call k).run.restored = false → (w.call k).run.kept <+: (w.call k).run.relayed := by
  intro hall
  have hr : Reachable (manager chatConfig)
      ((manager chatConfig).after fullManager (helloChat 8)) :=
    reachable_after started_full (by decide +kernel)
  have hbegins := hall chatConfig _ hr 8 (by decide +kernel)
  revert hbegins
  decide +kernel

end LocalBase.Runs
