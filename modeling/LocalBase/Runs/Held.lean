import LocalBase.Lib.Tally
import LocalBase.Runs.Stage

/-!
# What all the runs hold

`held` is changed by the request body of a new run, by every byte a run keeps
and by every path a run can be dropped on, under three different locks or
none. It is exact because each of these moves the counter by what it moves on
the run itself, or by an amount that is for the moment in the hands of one
goroutine: `weight` adds those amounts to what the run holds, and the sum of
the weights is the counter in every state.

That a dropped run holds nothing is a matter of who releases it last. A run
that goes out of the map is released by whoever took it out, and what it takes
after that is given back by `finish`, or by `create` when it never reached the
queue. `Owed` says that one of them is still to come.
-/

namespace LocalBase.Runs

open Machine Relation

/-- What an addition has counted for the run's body before the run has it. -/
def CreatePc.counted : CreatePc → Int
  | .exceeding size | .sized size | .refusing size _ => size
  | _ => 0

def WriterPc.counted : WriterPc → Int
  | .charging _ _ n _ => n
  | .added b | .exceeding b => b.length
  | _ => 0

def CreatePc.counting : CreatePc → Bool
  | .exceeding _ | .sized _ | .refusing _ _ => true
  | _ => false

def WriterPc.counting : WriterPc → Bool
  | .charging .. | .added _ | .exceeding _ => true
  | _ => false

theorem CreatePc.counted_eq_zero {pc : CreatePc} (h : pc.counting = false) : pc.counted = 0 := by
  cases pc <;> first | rfl | cases h

theorem WriterPc.counted_eq_zero {pc : WriterPc} (h : pc.counting = false) : pc.counted = 0 := by
  cases pc <;> first | rfl | cases h

/-- What the counter counts for a run. -/
def Call.weight (c : Call) : Int :=
  c.run.held + c.run.body + c.create.counted + c.writer.pc.counted

namespace Call

variable {cfg : Config} {held n : Int} {c c' : Call} {e : CallEvent}

theorem stopChunk_held {r : Run} {reason : Reason} : (r.stopChunk reason).held = r.held := by
  unfold Run.stopChunk
  split <;> rfl

theorem stopChunk_body {r : Run} {reason : Reason} : (r.stopChunk reason).body = r.body := by
  unfold Run.stopChunk
  split <;> rfl

theorem Section.weight (hs : Section cfg held e c c' n) : c'.weight = c.weight + n := by
  unfold Call.weight
  cases hs with
  | charge hc hpc => rcases hpc with rfl | rfl <;> simp [hc, CreatePc.counted] <;> omega
  | unsized hc | refused hc => simp [hc, CreatePc.counted]; omega
  | full hc => simp [hc, CreatePc.counted]
  | gaveBody => simp
  | answer hc | refuse hc => simp [hc, CreatePc.counted]
  | queued | admitted => simp [Run.setStatus, Run.emit]
  | finished => simp
  | writer hh _ hpc => rcases hpc with hpc | hpc <;> simp [hpc, hh.pc, WriterPc.counted]
  | body hh _ hpc => rcases hpc with hpc | hpc <;> simp [hpc, hh.pc, WriterPc.counted]
  | added hp => simp [hp, WriterPc.counted]; omega
  | exceeding hp => simp [hp, WriterPc.counted]
  | stopping hp => simp [hp, WriterPc.counted]
  | error hh => simp [hh.pc, WriterPc.counted, Run.emit]; omega
  | past hh => simp [stopChunk_held, stopChunk_body]
  | charging hh => simp [hh.pc, WriterPc.counted]
  | uncharged hp => simp [hp, WriterPc.counted, stopChunk_held, stopChunk_body]
  | charged hp => simp [hp, WriterPc.counted, Run.emit]; omega
  | returned => simp
  | finishBody => simp; omega
  | unseen => simp
  | ended => simp [Call.ended, Run.finishAt, Run.setStatus, Run.emit]; omega
  | finishRelease => simp [Run.release]; omega
  | stop => simp

end Call

/-! ## The counter is the sum of the weights -/

namespace Manager

variable {cfg : Config} {w w' : Manager} {k : Nat}

/-- The weights of all the runs there have been. -/
def total (w : Manager) : Int := ∑ k ∈ Finset.range w.count, (w.call k).weight

def Exact (w : Manager) : Prop := w.held = w.total

theorem Exact.setCall (h : w.Exact) {c : Call} {n : Int} (hk : k < w.count)
    (hc : c.weight = (w.call k).weight + n) : (w.setCall k c n).Exact := by
  have hsum := Tally.sum_update (Finset.mem_range.mpr hk) Call.weight w.call c
  unfold Exact total at h ⊢
  simp only [setCall_held, setCall_count]
  unfold Manager.setCall
  rw [hsum]
  omega

theorem Exact.release (h : w.Exact) (hk : k < w.count) : (w.release k).Exact := by
  refine h.setCall hk ?_
  unfold Call.weight
  simp only [Run.release]
  omega

theorem Exact.trimLoop (h : w.Exact) {n : Nat} {ks : List Nat} (hks : ∀ k ∈ ks, k < w.count) :
    (Manager.trimLoop n ks w).Exact := by
  induction ks generalizing n w with
  | nil =>
    cases n with
    | zero => exact h
    | succ n => exact h
  | cons k ks ih =>
    have hrest : ∀ l ∈ ks, l < w.count := fun l hl => hks l (List.mem_cons_of_mem _ hl)
    cases n with
    | zero => exact h
    | succ n =>
      rw [Manager.trimLoop]
      split
      · exact ih (w := w.drop k) (h.release (hks k List.mem_cons_self)) hrest
      · exact ih h hrest

theorem Exact.insert (h : w.Exact) (hw : w.Wired) {c : Call} (hk : k < w.count)
    (hc : c.weight = (w.call k).weight) : (w.insert k c).Exact := by
  have hset : ({ w.setCall k c 0 with runs := k :: w.runs } : Manager).Exact :=
    h.setCall hk (hc.trans (Int.add_zero _).symm)
  refine hset.trimLoop fun l hl => ?_
  rcases List.mem_cons.mp (List.mem_of_mem_filter ((List.mem_insertionSort _).mp hl)) with
    rfl | hl
  · exact hk
  · exact (hw.runs l hl).1

theorem Exact.publish (h : w.Exact) (hw : w.Wired) (hs : (w.call k).Sound) (hk : k < w.count)
    (hp : w.publish cfg k = some w') : w'.Exact := by
  simp only [Manager.publish] at hp
  split at hp
  · next size hc =>
    have hb := hs.before (by rw [hc]; rfl)
    cases hp
    split
    · exact h.setCall hk (by simp [Call.weight, hc, CreatePc.counted])
    · refine h.insert hw hk ?_
      simp [Call.weight, hc, CreatePc.counted, hb.held, hb.body]
  · next e hc =>
    cases hp
    split
    · exact h.setCall hk (by simp [Call.weight, hc, CreatePc.counted])
    · refine h.insert hw hk ?_
      simp [Call.weight, hc, CreatePc.counted, Run.finishAt, Run.setStatus, Run.emit]
  · cases hp

theorem Exact.delete_step (h : w.Exact) (hw : w.Wired) {j : Nat} {e : DeleteEvent}
    (hs : w.stepDelete j e = some w') : w'.Exact := by
  cases deletes_of_step hs with
  | find | leave | dismiss => exact h
  | @stop k hpc | @mark k hpc =>
    exact h.setCall (hw.delete j k (by rw [hpc]; rfl)) (by simp [Call.weight])
  | @release k hpc => exact h.release (hw.delete j k (by rw [hpc]; rfl))

theorem Exact.step (h : w.Exact) (hw : w.Wired) (hsound : ∀ k, (w.call k).Sound) {e : Event}
    (hs : w.step cfg e = some w') : w'.Exact := by
  cases e with
  | create owner target =>
    cases hs
    unfold Exact total at h ⊢
    simp only [setCall_held, Int.add_zero]
    rw [Finset.sum_range_succ, h]
    have hold : ∀ k ∈ Finset.range w.count, ((w.setCall w.count
        { create := if w.overActive owner = true then .refused .tooManyRuns else .reading
          run := { owner := owner, target := target } } 0).call k).weight =
        (w.call k).weight := fun k hk => by
      rw [setCall_of_ne (Nat.ne_of_lt (Finset.mem_range.mp hk))]
    rw [Finset.sum_congr rfl hold]
    simp only [setCall_self, Call.weight, WriterPc.counted]
    split <;> simp [CreatePc.counted]
  | call k e =>
    simp only [Manager.step] at hs
    split at hs
    · next hk =>
      obtain ⟨⟨c, n⟩, hc, rfl⟩ := Option.map_eq_some_iff.mp hs
      exact h.setCall hk (Call.section_of_step hc).weight
    · cases hs
  | publish k =>
    simp only [Manager.step] at hs
    split at hs
    · next hk => exact h.publish hw (hsound k) hk hs
    · cases hs
  | forget k =>
    simp only [Manager.step] at hs
    split at hs
    · next hc =>
      cases hs
      exact h.setCall (hw.lt_count (by rw [hc]; exact CreatePc.noConfusion))
        (by simp [Call.weight, hc, CreatePc.counted])
    · cases hs
  | forgetRelease k =>
    simp only [Manager.step] at hs
    split at hs
    · next hc =>
      split at hs
      · cases hs
      · cases hs
        refine h.setCall (hw.lt_count (by rw [hc]; exact CreatePc.noConfusion)) ?_
        simp only [Call.weight, hc, CreatePc.counted, Run.release]
        omega
    · cases hs
  | sweep i now =>
    simp only [Manager.step] at hs
    split at hs
    · cases hs
      exact h
    · cases hs
  | sweepRelease i =>
    simp only [Manager.step] at hs
    split at hs
    · next k ks hsweep =>
      split at hs
      · cases hs
      · cases hs
        exact h.release (hw.sweep i k (by rw [hsweep]; exact List.mem_cons_self))
    · cases hs
  | close =>
    cases hs
    exact h
  | delete j e => exact h.delete_step hw hs
  | stream i e =>
    obtain ⟨s, rfl⟩ := stepStream_eq hs
    exact h

theorem exact_init (h : w.Started) : w.Exact := by
  unfold Exact total
  rw [h.held]
  refine Finset.sum_congr rfl fun k hk => ?_
  have hr := h.restored k (Finset.mem_range.mp hk)
  simp [Call.weight, hr.body, hr.create, hr.writer, CreatePc.counted, WriterPc.counted]

theorem exact_of_reachable (h : Reachable (manager cfg) w) : w.Exact :=
  Reachable.invariant_with (J := Known) (I := Exact) (fun _ => known_of_reachable)
    (fun _ => exact_init) (fun _ _ _ hj _ hI hs => hI.step hj.wired hj.sound hs) h

end Manager

end LocalBase.Runs
