import LocalBase.Runs.Manager
import Mathlib.Logic.Relation

/-!
# What a section can do to a run

Most of what is said of runs is said of each of them by itself. `Move` lists
all that any section of the manager may do to one of them, `step_moves` reads
the moves off a step, and `call_invariant` turns what every move keeps into
what holds of every run in every reachable state.

A move carries a guard on the sections of the run's own goroutines, for the
results that hold only in the runs of the machine that meet one.
-/

namespace LocalBase.Runs

open Machine Relation

inductive Move (cfg : Config) (G : Int → Call → CallEvent → Prop) : Call → Call → Prop
  | create {owner : String} {target : Target} {pc : CreatePc} :
      pc = .reading ∨ pc = .refused .tooManyRuns →
      Move cfg G {} { create := pc, run := { owner := owner, target := target } }
  | section {c c' : Call} {held n : Int} {full : RunError} {e : CallEvent} :
      G held c e → c.step cfg held full e = some (c', n) → Move cfg G c c'
  | publish {c : Call} {size : Int} : c.create = .sized size →
      Move cfg G c { c with
        create := .waiting, inner := .running
        run := { c.run with body := size, cancel := true } }
  | ended {c : Call} {e : RunError} : c.create = .ended e →
      Move cfg G c { c with
        create := .answered
        run := { c.run with error := some e }.finishAt .failed (some .memoryLimit)
          c.run.createdAt cfg.retention }
  | refuse {c : Call} {size : Int} {why : Refusal} :
      c.create = .sized size ∨ size = 0 ∧ (∃ e, c.create = .ended e) →
      Move cfg G c { c with create := .refusing size why }
  | forget {c : Call} : c.create = .forgetting → Move cfg G c { c with create := .releasing }
  | forgotten {c : Call} : c.create = .releasing →
      Move cfg G c { c with create := .forgotten, run := c.run.release }
  | stop {c : Call} {cause : StopCause} :
      Move cfg G c { c with run := c.run.stop cause.status cause.reason }
  | dismissed {c : Call} : Move cfg G c { c with run := { c.run with dismissed := true } }
  | release {c : Call} : Move cfg G c { c with run := c.run.release }

variable {cfg : Config} {G : Int → Call → CallEvent → Prop} {w w' : Manager} {k l : Nat} {n : Int}
  {j i : Nat} {c : Call} {e : DeleteEvent} {pc : DeletePc} {ks : List Nat}

theorem Move.published {c' : Call} (h : Move cfg G c c') (hp : c.create.published = true) :
    c'.create.published = true := by
  cases h with
  | create => cases hp
  | «section» _ hs => exact (Call.section_of_step hs).published hp
  | refuse hc =>
    rcases hc with hc | ⟨_, e, hc⟩
    · rw [hc] at hp
      cases hp
    · rw [hc] at hp
      cases hp
  | publish | ended | forget | forgotten => rfl
  | stop | dismissed | release => exact hp

namespace Manager

/-! ## The calls after each operation -/

@[simp] theorem setCall_self : (w.setCall k c n).call k = c :=
  Function.update_self ..

theorem setCall_of_ne (h : l ≠ k) : (w.setCall k c n).call l = w.call l :=
  Function.update_of_ne h ..

@[simp] theorem setCall_runs : (w.setCall k c n).runs = w.runs := rfl
@[simp] theorem setCall_count : (w.setCall k c n).count = w.count := rfl
@[simp] theorem setCall_held : (w.setCall k c n).held = w.held + n := rfl
@[simp] theorem setCall_delete : (w.setCall k c n).delete = w.delete := rfl
@[simp] theorem setCall_sweep : (w.setCall k c n).sweep = w.sweep := rfl
@[simp] theorem setCall_stream : (w.setCall k c n).stream = w.stream := rfl

@[simp] theorem setDelete_call : (w.setDelete j pc).call = w.call := rfl
@[simp] theorem setDelete_stream :
    (w.setDelete j pc).stream = w.stream := rfl
@[simp] theorem setStream_call {s : Stream} : (w.setStream i s).call = w.call := rfl

@[simp] theorem release_self : (w.release k).call k =
    { w.call k with run := (w.call k).run.release } := setCall_self

theorem release_of_ne (h : l ≠ k) : (w.release k).call l = w.call l := setCall_of_ne h

theorem moves_of_update (h : Move cfg G (w.call k) c) (l : Nat) :
    ReflTransGen (Move cfg G) (w.call l) (Function.update w.call k c l) := by
  by_cases hl : l = k
  · subst hl
    rw [Function.update_self]
    exact ReflTransGen.single h
  · rw [Function.update_of_ne hl]

theorem moves_setCall (h : Move cfg G (w.call k) c) (l : Nat) :
    ReflTransGen (Move cfg G) (w.call l) ((w.setCall k c n).call l) := moves_of_update h l

theorem moves_release (l : Nat) :
    ReflTransGen (Move cfg G) (w.call l) ((w.release k).call l) := moves_setCall Move.release l

theorem moves_trimLoop {n : Nat} (l : Nat) :
    ReflTransGen (Move cfg G) (w.call l) ((trimLoop n ks w).call l) := by
  induction ks generalizing n w with
  | nil =>
    cases n with
    | zero => exact ReflTransGen.refl
    | succ n => exact ReflTransGen.refl
  | cons k ks ih =>
    cases n with
    | zero => exact ReflTransGen.refl
    | succ n =>
      rw [trimLoop]
      split
      · exact (moves_release (k := k) l).trans (ih (w := w.drop k))
      · exact ih

theorem moves_insert (h : Move cfg G (w.call k) c) (l : Nat) :
    ReflTransGen (Move cfg G) (w.call l) ((w.insert k c).call l) :=
  (moves_of_update h l).trans
    (moves_trimLoop (w := { w.setCall k c 0 with runs := k :: w.runs }) l)

theorem moves_publish (hs : w.publish cfg k = some w') (l : Nat) :
    ReflTransGen (Move cfg G) (w.call l) (w'.call l) := by
  simp only [publish] at hs
  split at hs
  · next size hc =>
    cases hs
    split
    · exact moves_setCall (Move.refuse (Or.inl hc)) l
    · exact moves_insert (Move.publish hc) l
  · next e hc =>
    cases hs
    split
    · exact moves_setCall (Move.refuse (Or.inr ⟨rfl, e, hc⟩)) l
    · exact moves_insert (Move.ended hc) l
  · cases hs

/-- What a DELETE's section does, with the run it is about. -/
inductive Deletes (w : Manager) (j : Nat) : DeleteEvent → Manager → Prop
  | find {k : Nat} : w.delete j = .idle → k ∈ w.runs →
      Deletes w j (.find k) (w.setDelete j (.found k))
  | stop {k : Nat} : w.delete j = .found k → Deletes w j .stop
      ((w.setCall k { w.call k with
        run := (w.call k).run.stop StopCause.stopped.status StopCause.stopped.reason } 0).setDelete
          j (.waiting k))
  | leave {k : Nat} : w.delete j = .waiting k → Deletes w j .leave (w.setDelete j .idle)
  | dismiss {k : Nat} : w.delete j = .waiting k →
      Deletes w j .dismiss ({ w with runs := w.runs.erase k }.setDelete j (.removed k))
  | mark {k : Nat} : w.delete j = .removed k → Deletes w j .mark
      ((w.setCall k { w.call k with run := { (w.call k).run with dismissed := true } } 0).setDelete
        j (.marked k))
  | release {k : Nat} : w.delete j = .marked k →
      Deletes w j .release ((w.release k).setDelete j .idle)

theorem deletes_of_step (hs : w.stepDelete j e = some w') :
    w.Deletes j e w' := by
  cases e with
  | find k =>
    simp only [stepDelete] at hs
    split at hs
    · next hpc =>
      split at hs <;> cases hs
      next hin => exact .find hpc hin
    · cases hs
  | leave | dismiss =>
    simp only [stepDelete] at hs
    split at hs <;> cases hs
    next hpc =>
      constructor
      exact hpc
  | stop | mark | release =>
    simp only [stepDelete] at hs
    split at hs
    · next hpc =>
      split at hs <;> cases hs
      constructor
      exact hpc
    · cases hs

theorem moves_delete (hs : w.stepDelete j e = some w') (l : Nat) :
    ReflTransGen (Move cfg G) (w.call l) (w'.call l) := by
  cases deletes_of_step hs with
  | find | leave | dismiss => exact ReflTransGen.refl
  | stop => exact moves_of_update Move.stop l
  | mark => exact moves_of_update Move.dismissed l
  | release => exact moves_of_update Move.release l

theorem stepStream_eq {e : StreamEvent} (hs : w.stepStream i e = some w') :
    ∃ s, w' = w.setStream i s := by
  cases e with
  | «open» k cursor =>
    simp only [stepStream] at hs
    split at hs
    · split at hs
      · cases hs
        exact ⟨_, rfl⟩
      · cases hs
    · cases hs
  | look =>
    simp only [stepStream] at hs
    split at hs
    · split at hs
      · cases hs
      · cases hs
        exact ⟨_, rfl⟩
    · cases hs
  | wake =>
    simp only [stepStream] at hs
    split at hs
    · split at hs
      · cases hs
        exact ⟨_, rfl⟩
      · cases hs
    · cases hs
  | send | sendFails | drained | ping | leave =>
    simp only [stepStream] at hs
    split at hs
    · cases hs
      exact ⟨_, rfl⟩
    · cases hs

/-! ## What a step does to every call -/

/-- The guard of a call's own sections, as one of the machine's events. -/
def Guard (G : Int → Call → CallEvent → Prop) (w : Manager) : Event → Prop
  | .call k e => G w.held (w.call k) e
  | _ => True

theorem guard_true (w : Manager) (e : Event) : Guard (fun _ _ _ => True) w e := by
  cases e <;> trivial

theorem step_moves {e : Event} (hfresh : ∀ k, w.count ≤ k → w.call k = {}) (hg : Guard G w e)
    (hs : w.step cfg e = some w') (l : Nat) :
    ReflTransGen (Move cfg G) (w.call l) (w'.call l) := by
  cases e with
  | create owner target =>
    cases hs
    refine moves_of_update ?_ l
    rw [hfresh _ (Nat.le_refl _)]
    refine Move.create ?_
    split
    · exact Or.inr rfl
    · exact Or.inl rfl
  | call k e =>
    simp only [step] at hs
    split at hs
    · obtain ⟨⟨c, n⟩, hc, rfl⟩ := Option.map_eq_some_iff.mp hs
      exact moves_setCall (Move.section hg hc) l
    · cases hs
  | publish k =>
    simp only [step] at hs
    split at hs
    · exact moves_publish hs l
    · cases hs
  | forget k =>
    simp only [step] at hs
    split at hs
    · next hc =>
      cases hs
      exact moves_of_update (Move.forget hc) l
    · cases hs
  | forgetRelease k =>
    simp only [step] at hs
    split at hs
    · next hc =>
      split at hs
      · cases hs
      · cases hs
        exact moves_setCall (Move.forgotten hc) l
    · cases hs
  | sweep i now =>
    simp only [step] at hs
    split at hs
    · cases hs
      exact ReflTransGen.refl
    · cases hs
  | sweepRelease i =>
    simp only [step] at hs
    split at hs
    · split at hs
      · cases hs
      · cases hs
        exact moves_release l
    · cases hs
  | close =>
    cases hs
    exact ReflTransGen.refl
  | delete j e => exact moves_delete hs l
  | stream i e =>
    obtain ⟨s, rfl⟩ := stepStream_eq hs
    exact ReflTransGen.refl

/-! ## Whom the numbers stand for -/

end Manager

def DeletePc.run? : DeletePc → Option Nat
  | .idle => none
  | .found k | .waiting k | .removed k | .marked k => some k

namespace Manager

/-- Every number in use is that of a `create`, and the map holds published
runs. -/
structure Wired (w : Manager) : Prop where
  fresh : ∀ k, w.count ≤ k → w.call k = {}
  runs : ∀ k ∈ w.runs, k < w.count ∧ (w.call k).create.published = true
  nodup : w.runs.Nodup
  delete : ∀ j k, (w.delete j).run? = some k → k < w.count
  sweep : ∀ i, ∀ k ∈ w.sweep i, k < w.count

theorem wired_init (h : w.Started) : w.Wired where
  fresh := h.fresh
  runs k hk := by
    have hlt := (h.runs k).mp hk
    refine ⟨hlt, ?_⟩
    rw [(h.restored k hlt).create]
    rfl
  nodup := h.nodup
  delete j k hk := by
    rw [h.delete j] at hk
    cases hk
  sweep i k hk := by
    rw [h.sweep i] at hk
    cases hk

namespace Wired

theorem setCall (h : w.Wired) (hk : k < w.count)
    (hp : (w.call k).create.published = true → c.create.published = true) :
    (w.setCall k c n).Wired where
  fresh l hl := by
    rw [setCall_of_ne (Nat.ne_of_gt (Nat.lt_of_lt_of_le hk hl))]
    exact h.fresh l hl
  runs l hl := by
    refine ⟨(h.runs l hl).1, ?_⟩
    by_cases hlk : l = k
    · subst hlk
      rw [setCall_self]
      exact hp (h.runs l hl).2
    · rw [setCall_of_ne hlk]
      exact (h.runs l hl).2
  nodup := h.nodup
  delete := h.delete
  sweep := h.sweep

theorem withRuns (h : w.Wired) {runs : List Nat}
    (hruns : ∀ k ∈ runs, k < w.count ∧ (w.call k).create.published = true)
    (hnodup : runs.Nodup) : { w with runs := runs }.Wired where
  fresh := h.fresh
  runs := hruns
  nodup := hnodup
  delete := h.delete
  sweep := h.sweep

theorem erase (h : w.Wired) : { w with runs := w.runs.erase k }.Wired :=
  h.withRuns (fun l hl => h.runs l (List.mem_of_mem_erase hl)) (h.nodup.erase k)

theorem setDelete (h : w.Wired)
    (hpc : ∀ k, pc.run? = some k → k < w.count) : (w.setDelete j pc).Wired where
  fresh := h.fresh
  runs := h.runs
  nodup := h.nodup
  delete i k hk := by
    by_cases hi : i = j
    · subst hi
      simp only [Manager.setDelete, Function.update_self] at hk
      exact hpc k hk
    · simp only [Manager.setDelete, Function.update_of_ne hi] at hk
      exact h.delete i k hk
  sweep := h.sweep

theorem setSweep (h : w.Wired) (hks : ∀ k ∈ ks, k < w.count) :
    { w with sweep := Function.update w.sweep i ks }.Wired where
  fresh := h.fresh
  runs := h.runs
  nodup := h.nodup
  delete := h.delete
  sweep j k hk := by
    by_cases hj : j = i
    · subst hj
      simp only [Function.update_self] at hk
      exact hks k hk
    · simp only [Function.update_of_ne hj] at hk
      exact h.sweep j k hk

theorem lt_count (h : w.Wired) (hk : (w.call k).create ≠ .idle) : k < w.count := by
  by_contra hle
  rw [h.fresh k (Nat.not_lt.mp hle)] at hk
  exact hk rfl

theorem setRun (h : w.Wired) {r : Run} (hk : k < w.count) :
    (w.setCall k { w.call k with run := r } n).Wired :=
  h.setCall hk fun hp => hp

theorem release (h : w.Wired) (hk : k < w.count) : (w.release k).Wired := h.setRun hk

theorem trimLoop (h : w.Wired) {n : Nat} (hks : ∀ k ∈ ks, k < w.count) :
    (Manager.trimLoop n ks w).Wired := by
  induction ks generalizing n w with
  | nil =>
    cases n with
    | zero => exact h
    | succ n => exact h
  | cons k ks ih =>
    have hrest : ∀ l ∈ ks, l < w.count := fun l hl => hks l (List.mem_cons_of_mem _ hl)
    cases n with
    | zero => exact h
    | succ n =>
      rw [Manager.trimLoop]
      split
      · exact ih (h.release (hks k List.mem_cons_self)).erase hrest
      · exact ih h hrest

theorem insert (h : w.Wired) (hk : k < w.count) (hnew : (w.call k).create.published = false)
    (hp : c.create.published = true) :
    (w.insert k c).Wired := by
  have hnotin : k ∉ w.runs := by
    intro hin
    rw [(h.runs k hin).2] at hnew
    cases hnew
  have hset := h.setCall (c := c) (n := 0) hk fun _ => hp
  have hruns : ∀ l ∈ k :: w.runs,
      l < w.count ∧ ((w.setCall k c 0).call l).create.published = true := by
    intro l hl
    rcases List.mem_cons.mp hl with rfl | hl
    · rw [setCall_self]
      exact ⟨hk, hp⟩
    · exact hset.runs l hl
  refine (hset.withRuns hruns (List.nodup_cons.mpr ⟨hnotin, h.nodup⟩)).trimLoop fun l hl => ?_
  exact (hruns l (List.mem_of_mem_filter ((List.mem_insertionSort _).mp hl))).1

theorem publish (h : w.Wired) (hk : k < w.count) (hs : w.publish cfg k = some w') : w'.Wired := by
  simp only [Manager.publish] at hs
  split at hs
  · next size hc =>
    have hnew : (w.call k).create.published = false := by rw [hc]; rfl
    cases hs
    split
    · exact h.setCall hk fun hp => absurd hp (by rw [hnew]; exact Bool.noConfusion)
    · exact h.insert hk hnew rfl
  · next e hc =>
    have hnew : (w.call k).create.published = false := by rw [hc]; rfl
    cases hs
    split
    · exact h.setCall hk fun hp => absurd hp (by rw [hnew]; exact Bool.noConfusion)
    · exact h.insert hk hnew rfl
  · cases hs

theorem delete_step (h : w.Wired) (hs : w.stepDelete j e = some w') :
    w'.Wired := by
  have hcall : ∀ k, (w.delete j).run? = some k → k < w.count := h.delete j
  cases deletes_of_step hs with
  | @find k _ hin =>
    refine h.setDelete fun l hl => ?_
    cases hl
    exact (h.runs k hin).1
  | @stop k hpc | @mark k hpc =>
    have hk := hcall k (by rw [hpc]; rfl)
    refine (h.setRun hk).setDelete fun l hl => ?_
    cases hl
    exact hk
  | leave => exact h.setDelete fun l hl => by cases hl
  | @dismiss k hpc =>
    have hk := hcall k (by rw [hpc]; rfl)
    refine h.erase.setDelete fun l hl => ?_
    cases hl
    exact hk
  | @release k hpc =>
    exact (h.release (hcall k (by rw [hpc]; rfl))).setDelete fun l hl => by cases hl

theorem step (h : w.Wired) {e : Event} (hs : w.step cfg e = some w') : w'.Wired := by
  cases e with
  | create owner target =>
    cases hs
    have hne : ∀ k, k < w.count → k ≠ w.count := fun k hk => Nat.ne_of_lt hk
    refine ⟨?_, ?_, h.nodup, ?_, ?_⟩
    · intro k hk
      have hlt : w.count < k := hk
      simp only [Manager.setCall, Function.update_of_ne (Nat.ne_of_gt hlt)]
      exact h.fresh k (Nat.le_of_lt hlt)
    · intro k hk
      have hin := h.runs k hk
      simp only [Manager.setCall, Function.update_of_ne (hne k hin.1)]
      exact ⟨Nat.lt_succ_of_lt hin.1, hin.2⟩
    · exact fun j k hk => Nat.lt_succ_of_lt (h.delete j k hk)
    · exact fun i k hk => Nat.lt_succ_of_lt (h.sweep i k hk)
  | call k e =>
    simp only [Manager.step] at hs
    split at hs
    · next hk =>
      obtain ⟨⟨c, n⟩, hc, rfl⟩ := Option.map_eq_some_iff.mp hs
      exact h.setCall hk (Call.section_of_step hc).published
    · cases hs
  | publish k =>
    simp only [Manager.step] at hs
    split at hs
    · next hk => exact h.publish hk hs
    · cases hs
  | forget k =>
    simp only [Manager.step] at hs
    split at hs
    · next hc =>
      cases hs
      have hk := h.lt_count (k := k) (by rw [hc]; exact CreatePc.noConfusion)
      exact (h.setCall hk fun _ => rfl).erase
    · cases hs
  | forgetRelease k =>
    simp only [Manager.step] at hs
    split at hs
    · next hc =>
      split at hs
      · cases hs
      · cases hs
        have hk := h.lt_count (k := k) (by rw [hc]; exact CreatePc.noConfusion)
        exact h.setCall hk fun _ => rfl
    · cases hs
  | sweep i now =>
    simp only [Manager.step] at hs
    split at hs
    · cases hs
      refine (h.setSweep fun k hk => ?_).withRuns ?_ (h.nodup.filter _)
      · exact (h.runs k (List.mem_of_mem_filter hk)).1
      · exact fun k hk => h.runs k (List.mem_of_mem_filter hk)
    · cases hs
  | sweepRelease i =>
    simp only [Manager.step] at hs
    split at hs
    · next k ks hsweep =>
      split at hs
      · cases hs
      · cases hs
        have hmem : ∀ l ∈ k :: ks, l < w.count := fun l hl => h.sweep i l (hsweep ▸ hl)
        exact (h.release (hmem k List.mem_cons_self)).setSweep
          fun l hl => hmem l (List.mem_cons_of_mem _ hl)
    · cases hs
  | close =>
    cases hs
    exact ⟨h.fresh, h.runs, h.nodup, h.delete, h.sweep⟩
  | delete j e => exact h.delete_step hs
  | stream i e =>
    obtain ⟨s, rfl⟩ := stepStream_eq hs
    exact ⟨h.fresh, h.runs, h.nodup, h.delete, h.sweep⟩

end Wired

theorem wired_of_reaches {G : Manager → Event → Prop} (h : ReachesUnder (manager cfg) G w) :
    w.Wired :=
  h.invariant (fun _ => wired_init) fun _ _ _ hw _ hs => hw.step hs

end Manager

/-! ## What every move keeps -/

/-- A fresh call has it, a restored run has it and every move keeps it: then
every run has it, wherever the guarded runs of the machine lead. -/
theorem call_invariant {I : Call → Prop} (hfresh : I {}) (hrestored : ∀ c : Call, c.Restored → I c)
    (hmove : ∀ c c', I c → Move cfg G c c' → I c')
    (h : ReachesUnder (manager cfg) (Manager.Guard G) w) (k : Nat) : I (w.call k) := by
  have hstart : ∀ w, (manager cfg).init w → ∀ k, I (w.call k) := by
    intro w hi k
    by_cases hk : k < w.count
    · exact hrestored _ (hi.restored k hk)
    · rw [hi.fresh k (Nat.not_lt.mp hk)]
      exact hfresh
  refine ReachesUnder.invariant_with (J := Manager.Wired) (I := fun w => ∀ k, I (w.call k))
    (fun _ hr => Manager.wired_of_reaches hr) hstart ?_ h k
  intro w e w' hw _ hI hg hs k
  have hmoves := Manager.step_moves hw.fresh hg hs k
  generalize w'.call k = c at hmoves
  induction hmoves with
  | refl => exact hI k
  | tail _ hlast ih => exact hmove _ _ ih hlast

theorem reaches_free (h : Reachable (manager cfg) w) :
    ReachesUnder (manager cfg) (Manager.Guard fun _ _ _ => True) w :=
  ReachesUnder.mono (fun w e _ _ => Manager.guard_true w e) h

end LocalBase.Runs
