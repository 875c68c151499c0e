import LocalBase.Video.Manager
import Mathlib.Logic.Relation

/-!
# What a step does

A step of the machine is a number of changes of the manager: moves of one job,
an end of one, evictions. What a move needs of the job is read off the section
that makes it, or is what the caller that makes it has been through before: it
holds the termination, the admission has settled, no artifact is being persisted
and the runtime has stopped.
-/

namespace LocalBase.Video

open Machine Relation

/-- Where `run` can go on without the rest of the job. -/
def Phase.Then (p q : Phase) : Prop :=
  p = .going ∧ (q = .going ∨ q = .leaving) ∨ p = .leaving ∧ q = .leaving

variable {j : Job}

namespace Job

/-- Nothing keeps the runner from going on with it. -/
structure Open (j : Job) : Prop where
  live : j.terminalAt = none
  terminating : j.terminating = none
  cancelled : j.cancelled = false

theorem open_of_not_closed (h : ¬ j.closed = true) : j.Open := by
  unfold closed at h
  simp only [Bool.or_eq_true, not_or, Bool.not_eq_true, Option.isSome_eq_false_iff,
    Option.isNone_iff_eq_none] at h
  exact ⟨h.1.1, h.1.2, h.2⟩

end Job

/-- A move of a job, by the runner or by the caller `a`. -/
inductive Move (a : Option Nat) : Job → Job → Prop
  | launch {j : Job} : j.runner = .unlaunched →
      Move a j { j with runner := .acquiring, deadline := true }
  | acquired {j : Job} {admission : Bool} {err : Option JobError} : j.runner = .acquiring →
      Move a j { j with admission := admission, runner := .admitting err }
  | admits {j : Job} {err : Option JobError} {pc : RunnerPc} : j.runner = .admitting err →
      pc.phase = .going ∨ pc.phase = .leaving → Move a j { j with admitted := true, runner := pc }
  | goes {j : Job} {pc : RunnerPc} : j.runner.phase.Then pc.phase →
      Move a j { j with runner := pc }
  | told {j : Job} {state : State} {id : String} {pc : RunnerPc} : j.Open →
      state.terminal = false → j.runner.phase.Then pc.phase →
      Move a j { j with state := state, backendID := id, runner := pc }
  | completing {j : Job} {media : Option Media} : j.Open → j.runner.phase = .going →
      Move a j
        { j with state := .inProgress, completing := true, runner := .preparing media }
  | prepared {j : Job} {media : Option Media} {prepared : Media} :
      j.runner = .preparing media → Move a j { j with runner := .rooming prepared }
  | unprepared {j : Job} {media : Option Media} {err : JobError} : j.runner = .preparing media →
      Move a j { j with runner := .persisted (.error err) }
  | roomless {j : Job} {media : Media} {err : JobError} : j.runner = .rooming media →
      Move a j { j with runner := .persisted (.error err) }
  | wrote {j : Job} {media : Media} : j.runner = .writing media →
      Move a j { j with file := media.size, runner := .persisted (.ok media.artifact) }
  | unwritten {j : Job} {media : Media} {n : Nat} {err : JobError} : j.runner = .writing media →
      n ≤ media.size → Move a j { j with file := n, runner := .persisted (.error err) }
  | unpersisted {j : Job} {err : JobError} : j.runner = .persisted (.error err) →
      Move a j { j with completing := false, runner := .failing err }
  | tooLate {j : Job} {artifact : Artifact} : j.runner = .persisted (.ok artifact) →
      j.settling = true → Move a j { j with completing := false, runner := .applied }
  | fired {j : Job} : Move a j { j with deadline := false }
  | enter {j : Job} {c : Nat} : a = some c → j.terminalAt = none → j.terminating = none →
      Move a j { j with terminating := some c }
  | cancel {j : Job} {c : Nat} : a = some c → j.terminating = some c →
      Move a j { j with cancelled := true }
  | stop {j : Job} {c : Nat} : a = some c → j.terminating = some c →
      Move a j { j with stopped := true }
  | unstop {j : Job} {c : Nat} : a = some c → j.terminating = some c → j.cancelled = true →
      Move a j { j with terminating := none }

/-- What makes a job final, up to `finish`. -/
inductive Ending (a : Option Nat) : Job → Job → Prop
  | completed {j : Job} {artifact : Artifact} : a = none → j.runner = .persisted (.ok artifact) →
      j.terminalAt = none → j.terminating = none →
      Ending a j
        { j with
          completing := false, artifact := some artifact, state := .completed, runner := .applied }
  | failed {j : Job} : a = none → j.Open → j.runner.phase = .going →
      Ending a j { j with failure := some .backendFailed, state := .failed, runner := .applied }
  | cancelled {j : Job} : a = none → j.Open → j.runner.phase = .going →
      Ending a j { j with reason := "backend", state := .cancelled, runner := .applied }
  | settled {j : Job} {c : Nat} {caller : Caller} {rm : Option JobError} : a = some c →
      j.terminating = some c → j.terminalAt = none → j.admitted = true → j.completing = false →
      j.stopped = true → Ending a j (World.settled caller j rm)

namespace Manager

def Evict (m m' : Manager) : Prop := ∃ k, (m.job k).terminal = true ∧ m' = m.remove k

/-- How many finished jobs are kept. -/
def terminalCount (m : Manager) : Nat := m.jobs.countP fun k => (m.job k).terminal

/-- The job is final and no longer active. -/
def ended (m : Manager) (k : Nat) (j : Job) (now : Nat) : Manager :=
  { m.setJob k (j.finish now) with active := if m.active = some k then none else m.active }

/-- One change of the manager, in a step of `a`. -/
inductive Change (o : Options) (a : Option Nat) (m : Manager) : Manager → Prop
  | move {k : Nat} {j : Job} : k < m.count → Move a (m.job k) j → Change o a m (m.setJob k j)
  | room {k : Nat} {media : Media} : k < m.count → (m.job k).runner = .rooming media →
      m.artifactBytes + media.size ≤ o.maxArtifactBytesTotal →
      Change o a m
        (m.setJob k { m.job k with pending := media.size, runner := .writing media })
  | evict {m' : Manager} : m.Evict m' → Change o a m m'
  | start {owner : String} {now : Nat} : m.active = none →
      Change o a m
        { m.setJob m.count { owner := owner, created := now } with
          jobs := m.count :: m.jobs, active := some m.count, count := m.count + 1 }
  | finish {k : Nat} {j : Job} {now : Nat} {m' : Manager} : k < m.count →
      Ending a (m.job k) j → ReflTransGen Evict (m.ended k j now) m' →
      m'.terminalCount ≤ o.maxTerminalJobs → Change o a m m'
  | stopping : Change o a m { m with stopping := true }
  | reorder {ids : List Nat} : ids.Perm m.jobs → Change o a m { m with jobs := ids }

variable {o : Options} {a : Option Nat} {m m' : Manager} {k : Nat} {now : Nat}

/-! ## Evictions -/

theorem mem_terminalJobs : k ∈ m.terminalJobs ↔ k ∈ m.jobs ∧ (m.job k).terminal = true := by
  unfold terminalJobs
  rw [List.mem_insertionSort, List.mem_filter]

theorem length_terminalJobs : m.terminalJobs.length = m.terminalCount := by
  unfold terminalJobs terminalCount
  rw [List.length_insertionSort, List.countP_eq_length_filter]

@[simp] theorem remove_job_terminal {l : Nat} :
    ((m.remove k).job l).terminal = (m.job l).terminal := by
  unfold remove setJob
  by_cases hl : l = k
  · subst hl
    simp only [Function.update_self]
    rfl
  · simp only [Function.update_of_ne hl]

theorem terminalCount_remove (hk : k ∈ m.jobs) (ht : (m.job k).terminal = true) :
    (m.remove k).terminalCount + 1 = m.terminalCount := by
  have hsame : (m.remove k).terminalCount =
      (m.jobs.erase k).countP fun l => (m.job l).terminal := by
    unfold terminalCount
    simp only [remove_job_terminal]
    rfl
  have hperm := (List.perm_cons_erase hk).countP_eq fun l => (m.job l).terminal
  rw [List.countP_cons, if_pos ht] at hperm
  rw [hsame]
  exact hperm.symm

theorem evicts_foldl {ks : List Nat} (hks : ∀ k ∈ ks, (m.job k).terminal = true) :
    ReflTransGen Evict m (ks.foldl remove m) := by
  induction ks generalizing m with
  | nil => exact ReflTransGen.refl
  | cons k ks ih =>
    have hk := hks k List.mem_cons_self
    refine ReflTransGen.head ⟨k, hk, rfl⟩ (ih fun l hl => ?_)
    rw [remove_job_terminal]
    exact hks l (List.mem_cons_of_mem k hl)

theorem evicts_pruneLoop {n : Nat} : ReflTransGen Evict m (m.pruneLoop o n) := by
  induction n generalizing m with
  | zero => exact ReflTransGen.refl
  | succ n ih =>
    rw [pruneLoop]
    split
    · next k ks hlist =>
      split
      · have hk := mem_terminalJobs.mp (hlist ▸ List.mem_cons_self)
        exact ReflTransGen.head ⟨k, hk.2, rfl⟩ ih
      · exact ReflTransGen.refl
    · exact ReflTransGen.refl

theorem evicts_prune : ReflTransGen Evict m (m.prune o now) := by
  unfold prune pruneExpired
  refine (evicts_foldl fun k hk => ?_).trans evicts_pruneLoop
  exact (mem_terminalJobs.mp (List.mem_filter.mp hk).1).2

theorem pruneLoop_count {n : Nat} (hn : m.terminalCount ≤ o.maxTerminalJobs + n) :
    (m.pruneLoop o n).terminalCount ≤ o.maxTerminalJobs := by
  induction n generalizing m with
  | zero => exact hn
  | succ n ih =>
    rw [pruneLoop]
    split
    · next k ks hlist =>
      split
      · obtain ⟨hk, ht⟩ := mem_terminalJobs.mp (hlist ▸ List.mem_cons_self)
        refine ih ?_
        have hone := terminalCount_remove hk ht
        omega
      · next hfew =>
        rw [length_terminalJobs] at hfew
        omega
    · next hnone =>
      rw [← length_terminalJobs, hnone]
      exact Nat.zero_le _

theorem prune_count : (m.prune o now).terminalCount ≤ o.maxTerminalJobs := by
  refine pruneLoop_count ?_
  exact Nat.le_trans List.countP_le_length (Nat.le_add_left ..)

theorem makeRoomLoop_spec {n size : Nat} {err : Option JobError}
    (h : m.makeRoomLoop o size n = (m', err)) :
    ReflTransGen Evict m m' ∧
      (err = none → m'.artifactBytes + size ≤ o.maxArtifactBytesTotal) := by
  induction n generalizing m with
  | zero =>
    cases h
    exact ⟨ReflTransGen.refl, fun h => by cases h⟩
  | succ n ih =>
    rw [makeRoomLoop] at h
    split at h
    · next hroom =>
      cases h
      exact ⟨ReflTransGen.refl, fun _ => hroom.2⟩
    · split at h
      · next k ks hlist =>
        have hk := mem_terminalJobs.mp (hlist ▸ List.mem_cons_self)
        obtain ⟨hev, hroom⟩ := ih h
        exact ⟨ReflTransGen.head ⟨k, hk.2, rfl⟩ hev, hroom⟩
      · cases h
        exact ⟨ReflTransGen.refl, fun h => by cases h⟩

theorem makeRoom_spec {size : Nat} {err : Option JobError}
    (h : m.makeRoom o size now = (m', err)) :
    ReflTransGen Evict m m' ∧
      (err = none → m'.artifactBytes + size ≤ o.maxArtifactBytesTotal) := by
  unfold makeRoom at h
  split at h
  · cases h
    exact ⟨ReflTransGen.refl, fun h => by cases h⟩
  · obtain ⟨hev, hroom⟩ := makeRoomLoop_spec h
    exact ⟨evicts_prune.trans hev, hroom⟩

theorem changes_of_evicts (h : ReflTransGen Evict m m') : ReflTransGen (Change o a) m m' :=
  ReflTransGen.mono (fun _ _ => Change.evict) _ _ h

theorem changes_prune : ReflTransGen (Change o a) m (m.prune o now) :=
  changes_of_evicts evicts_prune

theorem Evict.job (h : m.Evict m') (l : Nat) :
    m'.job l = m.job l ∨ (m.job l).terminal = true ∧ m'.job l = { m.job l with file := 0 } := by
  obtain ⟨k, hk, rfl⟩ := h
  unfold remove setJob
  by_cases hl : l = k
  · subst hl
    exact Or.inr ⟨hk, Function.update_self ..⟩
  · exact Or.inl (Function.update_of_ne hl ..)

theorem Evict.count (h : m.Evict m') : m'.count = m.count := by
  obtain ⟨k, _, rfl⟩ := h
  rfl

theorem evicts_keep (h : ReflTransGen Evict m m') (l : Nat) :
    m'.count = m.count ∧ m'.active = m.active ∧ (m'.job l).runner = (m.job l).runner := by
  induction h with
  | refl => exact ⟨rfl, rfl, rfl⟩
  | @tail b d _ hlast ih =>
    obtain ⟨hcount, hactive, hrunner⟩ := ih
    refine ⟨hlast.count.trans hcount, ?_, ?_⟩
    · obtain ⟨k, _, rfl⟩ := hlast
      exact hactive
    · rcases hlast.job l with hjob | ⟨_, hjob⟩
      · rw [hjob]
        exact hrunner
      · rw [hjob]
        exact hrunner

@[simp] theorem setJob_self : (m.setJob k j).job k = j := Function.update_self ..

theorem setJob_of_ne {l : Nat} (h : l ≠ k) : (m.setJob k j).job l = m.job l :=
  Function.update_of_ne h ..

theorem change_finish {now' : Nat} (hk : k < m.count) (he : Ending a (m.job k) j)
    (hlive : j.terminalAt = none) : Change o a m ((m.setJob k j).finish o k now now') := by
  have heq : (m.setJob k j).finish o k now now' = (m.ended k j now).prune o now' := by
    have hopen : ¬ ((m.setJob k j).job k).terminal = true := by
      rw [setJob_self]
      unfold Job.terminal
      rw [hlive]
      simp
    unfold finish
    rw [if_neg hopen]
    simp only [setJob, ended, Function.update_self, Function.update_idem]
    rfl
  rw [heq]
  exact Change.finish hk he evicts_prune prune_count

/-! ## The runner's steps -/

theorem RunnerPc.Then.of_ask {pc pc' : RunnerPc} (h : pc.afterAsk j = some pc') :
    pc.phase.Then pc'.phase := by
  have hgoing : ∀ (b : Bool) (p q : RunnerPc), p.phase = .leaving → q.phase = .going →
      Phase.Then .going (if b then p else q).phase := by
    intro b p q hp hq
    cases b with
    | true => exact Or.inl ⟨rfl, Or.inr hp⟩
    | false => exact Or.inl ⟨rfl, Or.inl hq⟩
  cases pc with
  | admitted =>
    cases h
    cases j.settling with
    | true => exact Or.inl ⟨rfl, Or.inr rfl⟩
    | false =>
      cases j.admission with
      | true => exact Or.inl ⟨rfl, Or.inl rfl⟩
      | false => exact Or.inl ⟨rfl, Or.inr rfl⟩
  | ready | looping | applied =>
    cases h
    exact hgoing _ _ _ rfl rfl
  | _ => cases h

theorem apply_changes {update : BackendJob} {now' : Nat} (hk : k < m.count)
    (hr : (m.job k).runner = .applying update) :
    ReflTransGen (Change o none) m (m.apply o k update now now') := by
  have hphase : (m.job k).runner.phase = .going := by rw [hr]; rfl
  have hthen : ∀ pc : RunnerPc, pc.phase = .going ∨ pc.phase = .leaving →
      (m.job k).runner.phase.Then pc.phase := fun pc h => Or.inl ⟨hphase, h⟩
  unfold apply
  simp only []
  split
  · exact ReflTransGen.single (.move hk (.goes (hthen _ (Or.inl rfl))))
  · next hopen =>
    have ho := Job.open_of_not_closed hopen
    split
    · exact ReflTransGen.single (.move hk (.goes (hthen _ (Or.inr rfl))))
    · split
      · exact ReflTransGen.single (.move hk (.told ho rfl (hthen _ (Or.inl rfl))))
      · exact ReflTransGen.single (.move hk (.told ho rfl (hthen _ (Or.inl rfl))))
      · exact ReflTransGen.single (.move hk (.completing ho hphase))
      · exact ReflTransGen.single (change_finish hk (.failed rfl ho hphase) ho.live)
      · exact ReflTransGen.single (change_finish hk (.cancelled rfl ho hphase) ho.live)

theorem persisted_changes {result : Except JobError Artifact} {now' : Nat} (hk : k < m.count)
    (hr : (m.job k).runner = .persisted result) :
    ReflTransGen (Change o none) m (m.persisted o k result now now') := by
  unfold persisted
  cases result with
  | error e => exact ReflTransGen.single (.move hk (.unpersisted hr))
  | ok artifact =>
    simp only []
    split
    · next hlate => exact ReflTransGen.single (.move hk (.tooLate hr hlate))
    · next hopen =>
      simp only [Job.settling, Bool.or_eq_true, not_or, Bool.not_eq_true,
        Option.isSome_eq_false_iff, Option.isNone_iff_eq_none] at hopen
      exact ReflTransGen.single (change_finish hk (.completed rfl hr hopen.1 hopen.2) hopen.1)

theorem run_changes {e : RunnerEvent} (hk : k < m.count) (hs : m.run o k e = some m') :
    ReflTransGen (Change o none) m m' := by
  cases e with
  | launch =>
    simp only [run] at hs
    split at hs <;> cases hs
    next hr => exact ReflTransGen.single (.move hk (.launch hr))
  | acquired admission err =>
    simp only [run] at hs
    split at hs <;> cases hs
    next hr => exact ReflTransGen.single (.move hk (.acquired hr))
  | admits =>
    simp only [run] at hs
    split at hs <;> cases hs
    · next hr => exact ReflTransGen.single (.move hk (.admits hr (Or.inl rfl)))
    · next hr => exact ReflTransGen.single (.move hk (.admits hr (Or.inr rfl)))
  | ask =>
    obtain ⟨pc, hpc, rfl⟩ := Option.map_eq_some_iff.mp hs
    exact ReflTransGen.single (.move hk (.goes (RunnerPc.Then.of_ask hpc)))
  | ready err =>
    simp only [run] at hs
    split at hs <;> cases hs
    next hr =>
      refine ReflTransGen.single (.move hk (.goes (Or.inl ⟨by rw [hr]; rfl, ?_⟩)))
      cases err with
      | none => exact Or.inl rfl
      | some e => exact Or.inr rfl
  | submit result | poll result =>
    simp only [run] at hs
    split at hs <;> cases hs
    next hr =>
      refine ReflTransGen.single (.move hk (.goes (Or.inl ⟨by rw [hr]; rfl, ?_⟩)))
      cases result with
      | ok b => exact Or.inl rfl
      | error e => exact Or.inr rfl
  | accept =>
    simp only [run] at hs
    split at hs
    · next sub hr =>
      have hphase : (m.job k).runner.phase = .going := by rw [hr]; rfl
      split at hs
      · cases hs
        exact ReflTransGen.single (.move hk (.goes (Or.inl ⟨hphase, Or.inr rfl⟩)))
      · next hopen =>
        cases hs
        refine ReflTransGen.single (.move hk (.told (Job.open_of_not_closed hopen) ?_
          (Or.inl ⟨hphase, Or.inl rfl⟩)))
        split <;> rfl
    · cases hs
  | apply now now' =>
    simp only [run] at hs
    split at hs <;> cases hs
    next hr => exact apply_changes hk hr
  | prepare converted =>
    simp only [run] at hs
    split at hs <;> cases hs
    next hr =>
      refine ReflTransGen.single (.move hk ?_)
      split
      · exact .prepared hr
      · exact .unprepared hr
  | room now =>
    simp only [run] at hs
    split at hs
    · next media hr =>
      cases hroom : m.makeRoom o media.size now with
      | mk m1 err =>
        rw [hroom] at hs
        cases hs
        obtain ⟨hev, hbytes⟩ := makeRoom_spec hroom
        obtain ⟨hcount, _, hrunner⟩ := evicts_keep hev k
        refine (changes_of_evicts hev).tail ?_
        rw [← hcount] at hk
        rw [← hrunner] at hr
        cases err with
        | none => exact .room hk hr (hbytes rfl)
        | some e => exact .move hk (.roomless hr)
    · cases hs
  | write n err =>
    simp only [run] at hs
    split at hs
    · next media hr =>
      cases err with
      | none =>
        cases hs
        exact ReflTransGen.single (.move hk (.wrote hr))
      | some e =>
        simp only [] at hs
        split at hs <;> cases hs
        next hn => exact ReflTransGen.single (.move hk (.unwritten hr hn))
    · cases hs
  | persisted now now' =>
    simp only [run] at hs
    split at hs <;> cases hs
    next hr => exact persisted_changes hk hr
  | slept done =>
    simp only [run] at hs
    split at hs
    · next hr =>
      have hphase : (m.job k).runner.phase = .going := by rw [hr]; rfl
      split at hs
      · split at hs <;> cases hs
        exact ReflTransGen.single (.move hk (.goes (Or.inl ⟨hphase, Or.inr rfl⟩)))
      · cases hs
        exact ReflTransGen.single (.move hk (.goes (Or.inl ⟨hphase, Or.inl rfl⟩)))
    · cases hs
  | fail =>
    simp only [run] at hs
    split at hs <;> cases hs
    next hr =>
      refine ReflTransGen.single (.move hk (.goes (Or.inr ⟨by rw [hr]; rfl, ?_⟩)))
      split <;> rfl

end Manager

end LocalBase.Video
