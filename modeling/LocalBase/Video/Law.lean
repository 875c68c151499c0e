import LocalBase.Video.Callers
import Mathlib.Algebra.Order.BigOperators.Group.Finset
import Mathlib.Algebra.Order.Ring.Nat

/-!
# The law of the video jobs

What every reachable manager keeps: of each job, that its state, its artifact,
its snapshot and its admission agree on whether it is final; and of all of them,
that one at most is not, and that those retained stay within the limits.

A job that is final has been accounted for: it holds no admission, and what its state
says it has, or has not, is so. The two sides are kept together, since each step
moves a job and its account at once.
-/

namespace LocalBase.Video

open Machine Relation

/-- The artifact is being persisted, and no room has been made for it yet. -/
def RunnerPc.unroomed : RunnerPc → Bool
  | .preparing _ | .rooming _ => true
  | _ => false

/-- What a job's record says of its end. -/
structure Job.Final (j : Job) : Prop where
  state : j.terminal = j.state.terminal
  artifact : j.artifact.isSome = decide (j.state = .completed)
  sent : j.sent = if j.terminal then [j.snapshot] else []
  released : j.released = if j.terminal && j.admission then 1 else 0

/-- What follows from where the runner is. -/
structure Job.Placed (j : Job) : Prop where
  admitted : j.admitted = decide (j.runner.phase ≠ .early)
  settled : j.terminal = true → j.admitted = true
  completing : j.completing = decide (j.runner.phase = .persisting)
  persisting : j.runner.phase = .persisting → j.terminalAt = none
  unroomed : j.runner.unroomed = true → j.pending = 0 ∧ j.file = 0
  writing : ∀ media, j.runner = .writing media → j.pending = media.size
  written : ∀ a, j.runner = .persisted (.ok a) → j.pending = a.bytes
  /-- Whatever may still be persisted, nothing has been yet. -/
  clean : j.Open → j.runner.phase = .early ∨ j.runner.phase = .going → j.pending = 0 ∧ j.file = 0
  file : j.file ≤ j.weight

structure Job.Sound (j : Job) : Prop where
  final : j.Final
  placed : j.Placed

theorem Phase.Then.left {p q : Phase} (h : p.Then q) : p = .going ∨ p = .leaving := by
  rcases h with ⟨hp, _⟩ | ⟨hp, _⟩
  · exact Or.inl hp
  · exact Or.inr hp

theorem Phase.Then.right {p q : Phase} (h : p.Then q) : q = .going ∨ q = .leaving := by
  rcases h with ⟨_, hq⟩ | ⟨_, hq⟩
  · exact hq
  · exact Or.inr hq

theorem Phase.Then.going {p q : Phase} (h : p.Then q) (hq : q = .early ∨ q = .going) :
    p = .going := by
  rcases h with ⟨hp, _⟩ | ⟨_, hl⟩
  · exact hp
  · rw [hl] at hq
    rcases hq with hq | hq <;> cases hq

variable {now : Nat}

namespace Job

variable {j : Job}

theorem sound_new {owner : String} :
    Sound { owner := owner, created := now } where
  final := ⟨rfl, rfl, rfl, rfl⟩
  placed :=
    { admitted := rfl
      settled := fun h => by cases h
      completing := rfl
      persisting := fun h => by cases h
      unroomed := fun h => by cases h
      writing := fun _ h => by cases h
      written := fun _ h => by cases h
      clean := fun _ _ => ⟨rfl, rfl⟩
      file := Nat.le_refl 0 }

/-- A job that is not final has no artifact, has sent nothing and released nothing. -/
structure Unended (j : Job) : Prop where
  state : j.state.terminal = false
  artifact : j.artifact = none
  sent : j.sent = []
  released : j.released = 0

theorem Final.unended (h : j.Final) (hl : j.terminalAt = none) : j.Unended := by
  have ht : j.terminal = false := by
    unfold terminal
    rw [hl]
    rfl
  have hstate := h.state
  have hartifact := h.artifact
  have hsent := h.sent
  have hreleased := h.released
  rw [ht] at hstate hsent hreleased
  have hne : j.state ≠ .completed := by
    intro hc
    rw [hc] at hstate
    cases hstate
  rw [decide_eq_false hne] at hartifact
  exact ⟨hstate.symm, by simpa using hartifact, hsent, hreleased⟩

theorem Unended.weight (h : j.Unended) : j.weight = j.pending := by
  unfold Job.weight
  rw [h.artifact]

theorem placed_calm (hphase : j.runner.phase ≠ .persisting)
    (hadm : j.admitted = decide (j.runner.phase ≠ .early))
    (hsettled : j.terminal = true → j.admitted = true) (hcomp : j.completing = false)
    (hclean : j.Open → j.runner.phase = .early ∨ j.runner.phase = .going →
      j.pending = 0 ∧ j.file = 0) (hfile : j.file ≤ j.weight) : j.Placed where
  admitted := hadm
  settled := hsettled
  completing := hcomp.trans (decide_eq_false hphase).symm
  persisting h := absurd h hphase
  unroomed h := by
    refine absurd ?_ hphase
    revert h
    cases j.runner <;> intro h <;> first | rfl | cases h
  writing _ h := absurd (by rw [h]; rfl) hphase
  written _ h := absurd (by rw [h]; rfl) hphase
  clean := hclean
  file := hfile

theorem Placed.not_completing (h : j.Placed) (hp : j.runner.phase ≠ .persisting) :
    j.completing = false :=
  h.completing.trans (decide_eq_false hp)

theorem Placed.is_admitted (h : j.Placed) (hp : j.runner.phase ≠ .early) : j.admitted = true :=
  h.admitted.trans (decide_eq_true hp)

end Job

/-! ## The moves -/

variable {a : Option Nat} {j j' : Job} {media : Media}

theorem Move.final (hm : Move a j j') (h : j.Sound) : j'.Final := by
  have hf := h.final
  cases hm with
  | acquired hr =>
    have hlive : j.terminal = false := by
      by_contra ht
      have hadm := h.placed.settled (Bool.not_eq_false _ ▸ ht)
      rw [h.placed.admitted, hr] at hadm
      cases hadm
    refine ⟨hf.state, hf.artifact, hf.sent, ?_⟩
    have hrel := hf.released
    rw [hlive] at hrel
    change j.released = if j.terminal && _ then 1 else 0
    rw [hlive]
    exact hrel
  | @told state _ _ ho hs =>
    have hu := hf.unended ho.live
    have ht : j.terminal = false := by
      rw [hf.state]
      exact hu.state
    refine ⟨ht.trans hs.symm, ?_, ?_, hf.released⟩
    · change j.artifact.isSome = _
      rw [hu.artifact, decide_eq_false]
      · rfl
      · intro hc
        change state = .completed at hc
        rw [hc] at hs
        cases hs
    · change j.sent = if j.terminal then _ else []
      rw [ht]
      exact hu.sent
  | completing ho =>
    have hu := hf.unended ho.live
    have ht : j.terminal = false := by
      rw [hf.state]
      exact hu.state
    refine ⟨ht, ?_, ?_, hf.released⟩
    · change j.artifact.isSome = _
      rw [hu.artifact]
      rfl
    · change j.sent = if j.terminal then _ else []
      rw [ht]
      exact hu.sent
  | _ => exact ⟨hf.state, hf.artifact, hf.sent, hf.released⟩

theorem Move.placed (hm : Move a j j') (h : j.Sound) : j'.Placed := by
  have hp := h.placed
  cases hm with
  | launch hr | acquired hr =>
    refine Job.placed_calm (by simp [RunnerPc.phase]) ?_ hp.settled
      (hp.not_completing (by rw [hr]; simp [RunnerPc.phase])) (fun ho _ => ?_) hp.file
    · exact hp.admitted.trans (by rw [hr]; rfl)
    · exact hp.clean ⟨ho.live, ho.terminating, ho.cancelled⟩ (Or.inl (by rw [hr]; rfl))
  | admits hr hphase =>
    refine Job.placed_calm ?_ ?_ (fun _ => rfl)
      (hp.not_completing (by rw [hr]; simp [RunnerPc.phase])) (fun ho _ => ?_) hp.file
    · rcases hphase with hphase | hphase <;> rw [hphase] <;> simp
    · rcases hphase with hphase | hphase <;> rw [hphase] <;> rfl
    · exact hp.clean ⟨ho.live, ho.terminating, ho.cancelled⟩ (Or.inl (by rw [hr]; rfl))
  | goes hthen | told _ _ hthen =>
    have hne : j.runner.phase ≠ .persisting := by
      rcases hthen.left with hl | hl <;> rw [hl] <;> simp
    refine Job.placed_calm ?_ ?_ hp.settled (hp.not_completing hne) (fun ho hg => ?_) hp.file
    · rcases hthen.right with hr | hr <;> rw [hr] <;> simp
    · have hadm := hp.admitted
      rcases hthen.left with hl | hl
      · rw [hl] at hadm
        rcases hthen.right with hr | hr <;> rw [hr] <;> exact hadm
      · rw [hl] at hadm
        rcases hthen.right with hr | hr <;> rw [hr] <;> exact hadm
    · exact hp.clean ⟨ho.live, ho.terminating, ho.cancelled⟩ (Or.inr (hthen.going hg))
  | completing ho hg =>
    have hclean := hp.clean ho (Or.inr hg)
    exact
      { admitted := hp.is_admitted (by rw [hg]; simp)
        settled := hp.settled
        completing := rfl
        persisting := fun _ => ho.live
        unroomed := fun _ => hclean
        writing := fun _ h => by cases h
        written := fun _ h => by cases h
        clean := fun _ h => by rcases h with h | h <;> cases h
        file := hp.file }
  | prepared hr | unprepared hr | roomless hr =>
    exact
      { admitted := hp.is_admitted (by rw [hr]; simp [RunnerPc.phase])
        settled := hp.settled
        completing := hp.completing.trans (by rw [hr]; rfl)
        persisting := fun _ => hp.persisting (by rw [hr]; rfl)
        unroomed := fun _ => hp.unroomed (by rw [hr]; rfl)
        writing := fun _ h => by cases h
        written := fun _ h => by cases h
        clean := fun _ h => by rcases h with h | h <;> cases h
        file := hp.file }
  | wrote hr =>
    have hlive := hp.persisting (by rw [hr]; rfl)
    have hpend := hp.writing _ hr
    exact
      { admitted := hp.is_admitted (by rw [hr]; simp [RunnerPc.phase])
        settled := hp.settled
        completing := hp.completing.trans (by rw [hr]; rfl)
        persisting := fun _ => hlive
        unroomed := fun h => by cases h
        writing := fun _ h => by cases h
        written := fun _ h => by
          cases h
          exact hpend
        clean := fun _ h => by rcases h with h | h <;> cases h
        file := by
          have hw := (h.final.unended hlive).weight
          change _ ≤ j.weight
          rw [hw, hpend] }
  | unwritten hr hn =>
    have hlive := hp.persisting (by rw [hr]; rfl)
    have hpend := hp.writing _ hr
    exact
      { admitted := hp.is_admitted (by rw [hr]; simp [RunnerPc.phase])
        settled := hp.settled
        completing := hp.completing.trans (by rw [hr]; rfl)
        persisting := fun _ => hlive
        unroomed := fun h => by cases h
        writing := fun _ h => by cases h
        written := fun _ h => by cases h
        clean := fun _ h => by rcases h with h | h <;> cases h
        file := by
          have hw := (h.final.unended hlive).weight
          change _ ≤ j.weight
          rw [hw, hpend]
          exact hn }
  | unpersisted hr =>
    refine Job.placed_calm (by simp [RunnerPc.phase]) ?_ hp.settled rfl (fun _ hg => ?_) hp.file
    · exact hp.is_admitted (by rw [hr]; simp [RunnerPc.phase])
    · rcases hg with hg | hg <;> cases hg
  | tooLate hr hlate =>
    refine Job.placed_calm (by simp [RunnerPc.phase]) ?_ hp.settled rfl (fun ho _ => ?_) hp.file
    · exact hp.is_admitted (by rw [hr]; simp [RunnerPc.phase])
    · have hlive : j.terminalAt = none := ho.live
      have hfree : j.terminating = none := ho.terminating
      unfold Job.settling at hlate
      rw [hlive, hfree] at hlate
      cases hlate
  | fired => exact ⟨hp.admitted, hp.settled, hp.completing, hp.persisting, hp.unroomed, hp.writing,
      hp.written, fun ho => hp.clean ⟨ho.live, ho.terminating, ho.cancelled⟩, hp.file⟩
  | stop => exact ⟨hp.admitted, hp.settled, hp.completing, hp.persisting, hp.unroomed, hp.writing,
      hp.written, fun ho => hp.clean ⟨ho.live, ho.terminating, ho.cancelled⟩, hp.file⟩
  | enter => exact ⟨hp.admitted, hp.settled, hp.completing, hp.persisting, hp.unroomed, hp.writing,
      hp.written, fun ho => absurd ho.terminating (by simp), hp.file⟩
  | cancel => exact ⟨hp.admitted, hp.settled, hp.completing, hp.persisting, hp.unroomed,
      hp.writing, hp.written, fun ho => absurd ho.cancelled (by simp), hp.file⟩
  | unstop _ _ hcancelled => exact ⟨hp.admitted, hp.settled, hp.completing, hp.persisting,
      hp.unroomed, hp.writing, hp.written,
      fun ho => absurd (hcancelled.symm.trans ho.cancelled) (by simp), hp.file⟩

theorem Move.sound (hm : Move a j j') (h : j.Sound) : j'.Sound := ⟨hm.final h, hm.placed h⟩

/-! ## The end of a job -/

namespace Job

theorem sound_finish (h : j.Sound) (hlive : j.terminalAt = none) (hsent : j'.sent = j.sent)
    (hreleased : j'.released = j.released) (hstate : j'.state.terminal = true)
    (hartifact : j'.artifact.isSome = decide (j'.state = .completed))
    (hadmitted : j'.admitted = true) (hearly : j'.runner.phase ≠ .early)
    (hphase : j'.runner.phase ≠ .persisting) (hcomp : j'.completing = false)
    (hfile : j'.file ≤ j'.weight) : (j'.finish now).Sound := by
  have hu := h.final.unended hlive
  refine ⟨⟨hstate.symm, hartifact, ?_, ?_⟩, ?_⟩
  · change j'.sent ++ _ = _
    rw [hsent, hu.sent]
    rfl
  · change (if j'.admission then j'.released + 1 else j'.released) = _
    rw [hreleased, hu.released]
    rfl
  · exact placed_calm hphase (hadmitted.trans (decide_eq_true hearly).symm) (fun _ => hadmitted)
      hcomp (fun ho _ => absurd ho.live (by simp [finish])) hfile

end Job

theorem Ending.sound (he : Ending a j j') (h : j.Sound) : (j'.finish now).Sound := by
  have hp := h.placed
  cases he with
  | completed _ hr hlive =>
    refine Job.sound_finish h hlive rfl rfl rfl rfl ?_ (by simp [RunnerPc.phase])
      (by simp [RunnerPc.phase]) rfl ?_
    · exact hp.is_admitted (by rw [hr]; simp [RunnerPc.phase])
    · have hfile := hp.file
      rw [(h.final.unended hlive).weight, hp.written _ hr] at hfile
      exact hfile
  | failed _ ho hg | cancelled _ ho hg =>
    have hu := h.final.unended ho.live
    refine Job.sound_finish h ho.live rfl rfl rfl ?_ ?_ (by simp [RunnerPc.phase])
      (by simp [RunnerPc.phase]) ?_ hp.file
    · change j.artifact.isSome = _
      rw [hu.artifact]
      rfl
    · exact hp.is_admitted (by rw [hg]; simp)
    · exact hp.not_completing (by rw [hg]; simp)
  | @settled c caller rm _ _ hlive hadm hcomp _ =>
    have hu := h.final.unended hlive
    have hearly : j.runner.phase ≠ .early := by
      rw [hp.admitted] at hadm
      exact of_decide_eq_true hadm
    have hphase : j.runner.phase ≠ .persisting := by
      rw [hp.completing] at hcomp
      exact of_decide_eq_false hcomp
    cases rm with
    | some e =>
      refine Job.sound_finish h hlive rfl rfl rfl ?_ hadm hearly hphase hcomp hp.file
      change j.artifact.isSome = _
      rw [hu.artifact]
      rfl
    | none =>
      cases hfail : caller.failure with
      | some e =>
        have heq : World.settled caller j none =
            { j with pending := 0, file := 0, failure := some e, state := .failed } := by
          simp only [World.settled, hfail]
        rw [heq]
        refine Job.sound_finish h hlive rfl rfl rfl ?_ hadm hearly hphase hcomp
          (Nat.zero_le _)
        change j.artifact.isSome = _
        rw [hu.artifact]
        rfl
      | none =>
        have heq : World.settled caller j none =
            { j with
              pending := 0, file := 0, reason := caller.reason, state := .cancelled } := by
          simp only [World.settled, hfail]
        rw [heq]
        refine Job.sound_finish h hlive rfl rfl rfl ?_ hadm hearly hphase hcomp
          (Nat.zero_le _)
        change j.artifact.isSome = _
        rw [hu.artifact]
        rfl

namespace Job

theorem Sound.remove (h : j.Sound) : Sound { j with file := 0 } where
  final := ⟨h.final.state, h.final.artifact, h.final.sent, h.final.released⟩
  placed := ⟨h.placed.admitted, h.placed.settled, h.placed.completing, h.placed.persisting,
    fun hr => ⟨(h.placed.unroomed hr).1, rfl⟩, h.placed.writing, h.placed.written,
    fun ho hg => ⟨(h.placed.clean ⟨ho.live, ho.terminating, ho.cancelled⟩ hg).1, rfl⟩,
    Nat.zero_le _⟩

theorem Sound.room (h : j.Sound) (hr : j.runner = .rooming media) :
    Sound { j with pending := media.size, runner := .writing media } where
  final := ⟨h.final.state, h.final.artifact, h.final.sent, h.final.released⟩
  placed :=
    { admitted := h.placed.is_admitted (by rw [hr]; simp [RunnerPc.phase])
      settled := h.placed.settled
      completing := h.placed.completing.trans (by rw [hr]; rfl)
      persisting := fun _ => h.placed.persisting (by rw [hr]; rfl)
      unroomed := fun hu => by cases hu
      writing := fun _ hw => by
        cases hw
        rfl
      written := fun _ hw => by cases hw
      clean := fun _ hg => by rcases hg with hg | hg <;> cases hg
      file := by
        have hfile := (h.placed.unroomed (by rw [hr]; rfl)).2
        change j.file ≤ _
        rw [hfile]
        exact Nat.zero_le _ }

end Job

/-! ## The jobs of the manager -/

/-- What a move leaves of a job as the manager sees it. -/
structure Job.Same (j j' : Job) : Prop where
  terminalAt : j'.terminalAt = j.terminalAt
  weight : j'.weight = j.weight
  file : j'.file = j.file ∨ j.runner.phase = .persisting

theorem Move.same (hm : Move a j j') : j.Same j' := by
  cases hm with
  | wrote hr | unwritten hr => exact ⟨rfl, rfl, Or.inr (by rw [hr]; rfl)⟩
  | _ => exact ⟨rfl, rfl, Or.inl rfl⟩

theorem Ending.live (he : Ending a j j') : j.terminalAt = none := by
  cases he with
  | completed _ _ hl => exact hl
  | failed _ ho | cancelled _ ho => exact ho.live
  | settled _ _ hl => exact hl

theorem Ending.weight (he : Ending a j j') (h : j.Sound) : j'.weight ≤ j.weight := by
  have hw := (h.final.unended he.live).weight
  have hnone := (h.final.unended he.live).artifact
  cases he with
  | completed _ hr =>
    rw [hw, h.placed.written _ hr]
    exact Nat.le_refl _
  | failed | cancelled => exact Nat.le_refl _
  | @settled _ caller rm =>
    cases rm with
    | some e => exact Nat.le_refl _
    | none =>
      have hzero : (World.settled caller j none).weight = 0 := by
        unfold World.settled
        simp only []
        split <;> simp only [Job.weight, hnone]
      rw [hzero]
      exact Nat.zero_le _

namespace Manager

variable {o : Options} {m m' : Manager} {k : Nat} {j : Job}

/-- The weight of the retained jobs, the active one among them. -/
def bytes (m : Manager) : Nat := (m.jobs.map fun k => (m.job k).weight).sum

structure Kept (o : Options) (m : Manager) : Prop where
  jobs : ∀ k, (m.job k).Sound
  live : ∀ k, k < m.count → ((m.job k).terminalAt = none ↔ m.active = some k)
  retained : ∀ k, m.active = some k → k ∈ m.jobs
  numbered : m.Numbered
  nodup : m.jobs.Nodup
  gone : ∀ k, k < m.count → k ∉ m.jobs → (m.job k).file = 0
  bytes : m.bytes ≤ o.maxArtifactBytesTotal

theorem bytes_le (h : j.weight ≤ (m.job k).weight) : (m.setJob k j).bytes ≤ m.bytes := by
  unfold bytes
  refine List.sum_le_sum fun l _ => ?_
  by_cases hl : l = k
  · subst hl
    rw [setJob_self]
    exact h
  · rw [setJob_of_ne hl]

theorem bytes_update_le (hn : m.jobs.Nodup) :
    (m.setJob k j).bytes ≤ m.bytes + j.weight := by
  unfold bytes
  have hrest : ∀ l : List Nat, l.Nodup →
      (l.map fun i => ((m.setJob k j).job i).weight).sum ≤
        (l.map fun i => (m.job i).weight).sum + j.weight := by
    intro l hl
    induction l with
    | nil => exact Nat.zero_le _
    | cons x l ih =>
      obtain ⟨hx, hl⟩ := List.nodup_cons.mp hl
      simp only [List.map_cons, List.sum_cons]
      by_cases hxk : x = k
      · subst hxk
        have hsame : (l.map fun i => ((m.setJob x j).job i).weight) =
            l.map fun i => (m.job i).weight := by
          refine List.map_congr_left fun i hi => ?_
          have hne : i ≠ x := fun h => hx (h ▸ hi)
          rw [setJob_of_ne hne]
        rw [hsame, setJob_self]
        omega
      · rw [setJob_of_ne hxk]
        have hle := ih hl
        omega
  exact hrest m.jobs hn

theorem artifactBytes_eq : m.artifactBytes =
    ((m.jobs.filter fun l => (m.job l).terminal).map fun l => (m.job l).weight).sum :=
  ((List.perm_insertionSort _ _).map _).sum_eq

theorem bytes_eq_artifactBytes
    (h : ∀ l ∈ m.jobs, (m.job l).terminal = false → (m.job l).weight = 0) :
    m.bytes = m.artifactBytes := by
  rw [artifactBytes_eq]
  unfold bytes
  generalize m.jobs = l at h
  induction l with
  | nil => rfl
  | cons x l ih =>
    have hrest := ih fun i hi => h i (List.mem_cons_of_mem x hi)
    cases hx : (m.job x).terminal with
    | true =>
      rw [List.filter_cons, if_pos hx]
      simp only [List.map_cons, List.sum_cons, hrest]
    | false =>
      rw [List.filter_cons, if_neg (by rw [hx]; simp)]
      simp only [List.map_cons, List.sum_cons, hrest, h x List.mem_cons_self hx, Nat.zero_add]

theorem artifactBytes_le : m.artifactBytes ≤ m.bytes := by
  rw [artifactBytes_eq]
  exact (List.filter_sublist.map _).sum_le_sum fun _ _ => Nat.zero_le _

theorem Evict.kept (he : m.Evict m') (h : m.Kept o) : m'.Kept o := by
  obtain ⟨k, hk, rfl⟩ := he
  have hjob : ∀ l, ((m.remove k).job l).terminalAt = (m.job l).terminalAt ∧
      ((m.remove k).job l).weight = (m.job l).weight := by
    intro l
    rcases Evict.job ⟨k, hk, rfl⟩ l with hl | ⟨_, hl⟩
    · rw [hl]
      exact ⟨rfl, rfl⟩
    · rw [hl]
      exact ⟨rfl, rfl⟩
  refine ⟨?_, ?_, ?_, Evict.numbered ⟨k, hk, rfl⟩ h.numbered, h.nodup.erase k, ?_, ?_⟩
  · intro l
    rcases Evict.job ⟨k, hk, rfl⟩ l with hl | ⟨_, hl⟩
    · rw [hl]
      exact h.jobs l
    · rw [hl]
      exact (h.jobs l).remove
  · intro l hl
    rw [(hjob l).1]
    exact h.live l hl
  · intro l hl
    have hne : l ≠ k := by
      rintro rfl
      have hlive := (h.live l (h.numbered.active l hl)).mpr hl
      unfold Job.terminal at hk
      rw [hlive] at hk
      cases hk
    exact (List.mem_erase_of_ne hne).mpr (h.retained l hl)
  · intro l hl hnot
    by_cases hlk : l = k
    · subst hlk
      simp only [remove, setJob, Function.update_self]
    · have hsame : (m.remove k).job l = m.job l := setJob_of_ne hlk
      rw [hsame]
      exact h.gone l hl fun hin => hnot ((List.mem_erase_of_ne hlk).mpr hin)
  · have hle : (m.remove k).bytes ≤ m.bytes := by
      have hsame : (m.remove k).bytes =
          ((m.jobs.erase k).map fun l => (m.job l).weight).sum := by
        unfold bytes
        simp only [hjob]
        rfl
      rw [hsame]
      exact (List.erase_sublist.map _).sum_le_sum fun _ _ => Nat.zero_le _
    exact Nat.le_trans hle h.bytes

theorem evicts_kept (he : ReflTransGen Evict m m') (h : m.Kept o) : m'.Kept o := by
  induction he with
  | refl => exact h
  | tail _ hlast ih => exact hlast.kept ih

theorem Kept.no_weight (h : m.Kept o) (hk : k < m.count)
    (hr : (m.job k).runner = .rooming media) :
    ∀ l ∈ m.jobs, (m.job l).terminal = false → (m.job l).weight = 0 := by
  intro l hl ht
  have hlive : (m.job l).terminalAt = none := by
    unfold Job.terminal at ht
    simpa using ht
  have hactive := (h.live l (h.numbered.jobs l hl)).mp hlive
  have hkl := (h.live k hk).mp ((h.jobs k).placed.persisting (by rw [hr]; rfl))
  rw [hactive] at hkl
  cases hkl
  rw [((h.jobs k).final.unended hlive).weight]
  exact ((h.jobs k).placed.unroomed (by rw [hr]; rfl)).1

theorem Kept.set_job (h : m.Kept o) (hnumbered : (m.setJob k j).Numbered) (hj : j.Sound)
    (hend : j.terminalAt = (m.job k).terminalAt) (hgone : k < m.count → k ∉ m.jobs → j.file = 0)
    (hbytes : (m.setJob k j).bytes ≤ o.maxArtifactBytesTotal) : (m.setJob k j).Kept o := by
  refine ⟨?_, ?_, h.retained, hnumbered, h.nodup, ?_, hbytes⟩
  · intro l
    by_cases hl : l = k
    · subst hl
      rw [setJob_self]
      exact hj
    · rw [setJob_of_ne hl]
      exact h.jobs l
  · intro l hl
    by_cases hlk : l = k
    · subst hlk
      rw [setJob_self, hend]
      exact h.live l hl
    · rw [setJob_of_ne hlk]
      exact h.live l hl
  · intro l hl hnot
    by_cases hlk : l = k
    · subst hlk
      rw [setJob_self]
      exact hgone hl hnot
    · rw [setJob_of_ne hlk]
      exact h.gone l hl hnot

theorem Kept.live_retained (h : m.Kept o) (hk : k < m.count)
    (hlive : (m.job k).terminalAt = none) : k ∈ m.jobs :=
  h.retained k ((h.live k hk).mp hlive)

theorem Kept.move (h : m.Kept o) (hk : k < m.count) (hm : Move a (m.job k) j) :
    (m.setJob k j).Kept o := by
  have hsame := hm.same
  refine h.set_job (Change.numbered (o := o) (.move hk hm) h.numbered) (hm.sound (h.jobs k))
    hsame.terminalAt (fun hk hnot => ?_) (Nat.le_trans (bytes_le hsame.weight.le) h.bytes)
  rcases hsame.file with hfile | hphase
  · rw [hfile]
    exact h.gone k hk hnot
  · -- It is being written.
    exact absurd (h.live_retained hk ((h.jobs k).placed.persisting hphase)) hnot

theorem Kept.room (h : m.Kept o) (hk : k < m.count) (hr : (m.job k).runner = .rooming media)
    (hroom : m.artifactBytes + media.size ≤ o.maxArtifactBytesTotal) :
    (m.setJob k { m.job k with pending := media.size, runner := .writing media }).Kept o := by
  have hlive := (h.jobs k).placed.persisting (by rw [hr]; rfl)
  refine h.set_job (Change.numbered (a := none) (.room hk hr hroom) h.numbered)
    ((h.jobs k).room hr) rfl (fun hk hnot => absurd (h.live_retained hk hlive) hnot) ?_
  have hweight : Job.weight { m.job k with pending := media.size, runner := .writing media } =
      media.size := by
    unfold Job.weight
    rw [((h.jobs k).final.unended hlive).artifact]
  have hle := bytes_update_le (k := k)
    (j := { m.job k with pending := media.size, runner := .writing media }) h.nodup
  rw [hweight, bytes_eq_artifactBytes (h.no_weight hk hr)] at hle
  exact Nat.le_trans hle hroom

theorem Kept.start {owner : String} (h : m.Kept o) (hfree : m.active = none) :
    Kept o { m.setJob m.count { owner := owner, created := now } with
      jobs := m.count :: m.jobs, active := some m.count, count := m.count + 1 } := by
  have hold : ∀ l, l ≠ m.count →
      (m.setJob m.count { owner := owner, created := now }).job l = m.job l :=
    fun l hl => setJob_of_ne hl
  have hnew : ∀ l ∈ m.jobs, l ≠ m.count := fun l hl => Nat.ne_of_lt (h.numbered.jobs l hl)
  refine ⟨?_, ?_, ?_, Change.numbered (o := o) (a := none) (.start hfree) h.numbered,
    ?_, ?_, ?_⟩
  · intro l
    by_cases hl : l = m.count
    · subst hl
      simp only [setJob_self]
      exact Job.sound_new
    · simp only [hold l hl]
      exact h.jobs l
  · intro l hl
    by_cases hlk : l = m.count
    · subst hlk
      simp only [setJob_self]
    · simp only [hold l hlk]
      have hlive := h.live l (Nat.lt_of_le_of_ne (Nat.le_of_lt_succ hl) hlk)
      rw [hfree] at hlive
      rw [hlive]
      refine ⟨fun hno => absurd hno (by simp), fun heq => ?_⟩
      cases heq
      exact absurd rfl hlk
  · intro l hl
    cases hl
    exact List.mem_cons_self
  · exact List.nodup_cons.mpr ⟨fun hin => hnew _ hin rfl, h.nodup⟩
  · intro l hl hnot
    have hlk : l ≠ m.count := fun heq => hnot (heq ▸ List.mem_cons_self)
    simp only [hold l hlk]
    exact h.gone l (Nat.lt_of_le_of_ne (Nat.le_of_lt_succ hl) hlk)
      fun hin => hnot (List.mem_cons_of_mem _ hin)
  · unfold Manager.bytes
    have hsame : (m.jobs.map fun l =>
        ((m.setJob m.count { owner := owner, created := now }).job l).weight) =
        m.jobs.map fun l => (m.job l).weight :=
      List.map_congr_left fun l hl => by rw [hold l (hnew l hl)]
    simp only [List.map_cons, List.sum_cons, hsame, setJob_self]
    exact (Nat.zero_add _).le.trans h.bytes

theorem Kept.ended (h : m.Kept o) (hk : k < m.count)
    (he : Ending a (m.job k) j) : (m.ended k j now).Kept o := by
  have hactive := (h.live k hk).mp he.live
  have hnone : (m.ended k j now).active = none := if_pos hactive
  have hold : ∀ l, l ≠ k → (m.ended k j now).job l = m.job l := fun l hl => setJob_of_ne hl
  have hself : (m.ended k j now).job k = j.finish now := setJob_self
  refine ⟨?_, ?_, ?_, ⟨h.numbered.jobs, ?_⟩, h.nodup, ?_, ?_⟩
  · intro l
    by_cases hl : l = k
    · subst hl
      rw [hself]
      exact he.sound (h.jobs l)
    · rw [hold l hl]
      exact h.jobs l
  · intro l hl
    rw [hnone]
    refine ⟨fun hlive => ?_, fun hno => by cases hno⟩
    by_cases hlk : l = k
    · subst hlk
      rw [hself] at hlive
      cases hlive
    · rw [hold l hlk] at hlive
      have heq := (h.live l hl).mp hlive
      rw [hactive] at heq
      cases heq
      exact absurd rfl hlk
  · intro l hl
    rw [hnone] at hl
    cases hl
  · intro l hl
    rw [hnone] at hl
    cases hl
  · intro l hl hnot
    by_cases hlk : l = k
    · subst hlk
      exact absurd (h.retained l hactive) hnot
    · rw [hold l hlk]
      exact h.gone l hl hnot
  · exact Nat.le_trans (bytes_le (j := j.finish now) (he.weight (h.jobs k))) h.bytes

theorem Change.kept (hc : Change o a m m') (h : m.Kept o) : m'.Kept o := by
  have hnumbered := hc.numbered h.numbered
  cases hc with
  | move hk hm => exact h.move hk hm
  | room hk hr hroom => exact h.room hk hr hroom
  | evict he => exact he.kept h
  | start hfree => exact h.start hfree
  | finish hk he hev => exact evicts_kept hev (h.ended hk he)
  | stopping =>
    exact ⟨h.jobs, h.live, h.retained, hnumbered, h.nodup, h.gone, h.bytes⟩
  | reorder hperm =>
    refine ⟨h.jobs, h.live, fun l hl => hperm.mem_iff.mpr (h.retained l hl), hnumbered,
      hperm.nodup_iff.mpr h.nodup,
      fun l hl hnot => h.gone l hl fun hin => hnot (hperm.mem_iff.mpr hin), ?_⟩
    exact (hperm.map _).sum_eq.le.trans h.bytes

theorem kept_empty : Kept o {} where
  jobs _ := Job.sound_new
  live _ hk := absurd hk (Nat.not_lt_zero _)
  retained _ hk := by cases hk
  numbered := ⟨fun _ hk => absurd hk List.not_mem_nil, fun _ hk => by cases hk⟩
  nodup := List.nodup_nil
  gone _ hk := absurd hk (Nat.not_lt_zero _)
  bytes := Nat.zero_le _

theorem Evict.few (he : m.Evict m') (h : m.terminalCount ≤ o.maxTerminalJobs) :
    m'.terminalCount ≤ o.maxTerminalJobs := by
  obtain ⟨k, hk, rfl⟩ := he
  refine Nat.le_trans ?_ h
  unfold terminalCount
  simp only [remove_job_terminal]
  exact List.Sublist.countP_le List.erase_sublist

theorem Change.few (hc : Change o a m m') (hk : m.Kept o)
    (h : m.terminalCount ≤ o.maxTerminalJobs) : m'.terminalCount ≤ o.maxTerminalJobs := by
  have hset : ∀ {k : Nat} {j : Job}, j.terminalAt = (m.job k).terminalAt →
      (m.setJob k j).terminalCount = m.terminalCount := by
    intro k j hj
    refine List.countP_congr fun l _ => ?_
    by_cases hl : l = k
    · subst hl
      rw [setJob_self]
      unfold Job.terminal
      rw [hj]
    · rw [setJob_of_ne hl]
  cases hc with
  | move _ hm =>
    rw [hset hm.same.terminalAt]
    exact h
  | room =>
    refine (hset ?_).le.trans h
    rfl
  | evict he => exact he.few h
  | @start owner now _ =>
    have hold : (m.jobs.countP fun l =>
        ((m.setJob m.count { owner := owner, created := now }).job l).terminal) =
        m.jobs.countP fun l => (m.job l).terminal := by
      refine List.countP_congr fun l hl => ?_
      rw [setJob_of_ne (Nat.ne_of_lt (hk.numbered.jobs l hl))]
    unfold terminalCount
    rw [List.countP_cons_of_neg]
    · exact hold.le.trans h
    · change ¬ ((m.setJob m.count _).job m.count).terminal = true
      rw [setJob_self]
      simp [Job.terminal]
  | finish _ _ _ hfew => exact hfew
  | stopping => exact h
  | reorder hperm => exact (hperm.countP_eq _).le.trans h

/-! ## What is final stays -/

end Manager

/-- A final job's outcome is what it was. -/
structure Job.Frozen (j j' : Job) : Prop where
  terminal : j'.terminal = true
  snapshot : j'.snapshot = j.snapshot
  stopped : j.stopped = true → j'.stopped = true

theorem Move.frozen (hm : Move a j j') (ht : j.terminal = true) : j.Frozen j' := by
  have hlive : ∀ {p : Prop}, j.terminalAt = none → p := fun hl => by
    unfold Job.terminal at ht
    rw [hl] at ht
    cases ht
  cases hm with
  | told ho | completing ho => exact hlive ho.live
  | stop => exact ⟨ht, rfl, fun _ => rfl⟩
  | _ => exact ⟨ht, rfl, id⟩

namespace Manager

variable {o : Options} {m m' : Manager} {k : Nat}

theorem evicts_frozen (he : ReflTransGen Evict m m') (ht : (m.job k).terminal = true) :
    (m.job k).Frozen (m'.job k) := by
  induction he with
  | refl => exact ⟨ht, rfl, id⟩
  | tail _ hlast ih =>
    rcases hlast.job k with hjob | ⟨_, hjob⟩
    · rw [hjob]
      exact ih
    · rw [hjob]
      exact ⟨ih.terminal, ih.snapshot, ih.stopped⟩

theorem Change.frozen (hc : Change o a m m') (hk : k < m.count)
    (ht : (m.job k).terminal = true) : (m.job k).Frozen (m'.job k) := by
  have hsame : (m.job k).Frozen (m.job k) := ⟨ht, rfl, id⟩
  cases hc with
  | @move l j _ hm =>
    by_cases hkl : k = l
    · subst hkl
      rw [setJob_self]
      exact hm.frozen ht
    · rw [setJob_of_ne hkl]
      exact hsame
  | @room l media =>
    by_cases hkl : k = l
    · subst hkl
      rw [setJob_self]
      exact ⟨ht, rfl, id⟩
    · rw [setJob_of_ne hkl]
      exact hsame
  | evict he => exact evicts_frozen (ReflTransGen.single he) ht
  | start =>
    change (m.job k).Frozen ((m.setJob m.count _).job k)
    rw [setJob_of_ne (Nat.ne_of_lt hk)]
    exact hsame
  | @finish l j now _ _ he hev =>
    have hkl : k ≠ l := by
      rintro rfl
      unfold Job.terminal at ht
      rw [he.live] at ht
      cases ht
    have hended : (m.ended l j now).job k = m.job k := setJob_of_ne hkl
    rw [← hended] at ht ⊢
    exact evicts_frozen hev ht
  | stopping | reorder => exact hsame

theorem changes_frozen (hc : ReflTransGen (Change o a) m m') (hk : k < m.count)
    (ht : (m.job k).terminal = true) : (m.job k).Frozen (m'.job k) := by
  induction hc with
  | refl => exact ⟨ht, rfl, id⟩
  | tail hrest hlast ih =>
    have hf := hlast.frozen (Nat.lt_of_lt_of_le hk (changes_count hrest)) ih.terminal
    exact ⟨hf.terminal, hf.snapshot.trans ih.snapshot, hf.stopped ∘ ih.stopped⟩

end Manager

/-- How a job may have become final in a step of `a`: with its artifact, or as
the backend said, or by a caller of `terminate` that has stopped its runtime. -/
def Job.EndedBy (a : Option Nat) (j : Job) : Prop :=
  j.state = .completed ∨
    a = none ∧ (j.state = .failed ∧ j.failure = some .backendFailed ∨
      j.state = .cancelled ∧ j.reason = "backend") ∨
    a.isSome = true ∧ j.stopped = true

theorem Job.Frozen.ended_by (hf : j.Frozen j') (h : j.EndedBy a) : j'.EndedBy a := by
  have hs := hf.snapshot
  simp only [Job.snapshot, Snapshot.mk.injEq] at hs
  obtain ⟨hstate, _, _, _, hfailure, hreason⟩ := hs
  unfold Job.EndedBy at h ⊢
  rw [hstate, hfailure, hreason]
  exact h.imp_right fun h => h.imp_right fun h => ⟨h.1, hf.stopped h.2⟩

theorem Ending.ended_by (he : Ending a j j') : (j'.finish now).EndedBy a := by
  cases he with
  | completed => exact Or.inl rfl
  | failed ha => exact Or.inr (Or.inl ⟨ha, Or.inl ⟨rfl, rfl⟩⟩)
  | cancelled ha => exact Or.inr (Or.inl ⟨ha, Or.inr ⟨rfl, rfl⟩⟩)
  | @settled c caller rm ha _ _ _ _ hstopped =>
    refine Or.inr (Or.inr ⟨by rw [ha]; rfl, ?_⟩)
    change (World.settled caller j rm).stopped = true
    unfold World.settled
    split
    · exact hstopped
    · simp only []
      split <;> exact hstopped

namespace Manager

variable {o : Options} {m m' : Manager} {k : Nat}

theorem Change.ended_by (hc : Change o a m m') (hk : k < m.count)
    (hlive : (m.job k).terminal = false) (ht : (m'.job k).terminal = true) :
    (m'.job k).EndedBy a := by
  have hno : ∀ {p : Prop}, (m.job k).terminal = true → p := fun h => by
    rw [hlive] at h
    cases h
  cases hc with
  | @move l j _ hm =>
    by_cases hkl : k = l
    · subst hkl
      rw [setJob_self] at ht
      unfold Job.terminal at ht
      rw [hm.same.terminalAt] at ht
      exact hno ht
    · rw [setJob_of_ne hkl] at ht
      exact hno ht
  | @room l media =>
    by_cases hkl : k = l
    · subst hkl
      rw [setJob_self] at ht
      exact hno ht
    · rw [setJob_of_ne hkl] at ht
      exact hno ht
  | evict he =>
    rcases he.job k with hjob | ⟨hdone, _⟩
    · rw [hjob] at ht
      exact hno ht
    · exact hno hdone
  | start =>
    change ((m.setJob m.count _).job k).terminal = true at ht
    rw [setJob_of_ne (Nat.ne_of_lt hk)] at ht
    exact hno ht
  | @finish l j now _ _ he hev =>
    by_cases hkl : k = l
    · subst hkl
      have hself : (m.ended k j now).job k = j.finish now := setJob_self
      have hfrozen := evicts_frozen (k := k) hev (by rw [hself]; rfl)
      rw [hself] at hfrozen
      exact hfrozen.ended_by he.ended_by
    · have hother : (m.ended l j now).job k = m.job k := setJob_of_ne hkl
      have hsame : ∀ {b : Manager}, ReflTransGen Evict (m.ended l j now) b →
          (b.job k).terminal = (m.job k).terminal := by
        intro b hb
        induction hb with
        | refl => rw [hother]
        | tail _ hlast ih =>
          rcases hlast.job k with hjob | ⟨_, hjob⟩
          · rw [hjob]
            exact ih
          · rw [hjob]
            exact ih
      rw [hsame hev] at ht
      exact hno ht
  | stopping | reorder => exact hno ht

theorem changes_ended_by (hc : ReflTransGen (Change o a) m m') (hk : k < m.count)
    (hlive : (m.job k).terminal = false) (ht : (m'.job k).terminal = true) :
    (m'.job k).EndedBy a := by
  induction hc with
  | refl =>
    rw [hlive] at ht
    cases ht
  | @tail b d hrest hlast ih =>
    have hkb := Nat.lt_of_lt_of_le hk (changes_count hrest)
    cases hb : (b.job k).terminal with
    | true => exact (hlast.frozen hkb hb).ended_by (ih hb)
    | false => exact hlast.ended_by hkb hb ht

end Manager

/-! ## The law -/

/-- What holds of every reachable manager. -/
structure World.Lawful (o : Options) (w : World) : Prop where
  /-- At most one job is not final. -/
  one : ∀ k l, k < w.m.count → l < w.m.count → (w.m.job k).terminal = false →
    (w.m.job l).terminal = false → k = l
  /-- A final job, and no other, has sent its snapshot and released its
  admission, each once; a completed job, and no other, has an artifact. -/
  final : ∀ k, k < w.m.count → (w.m.job k).Final
  /-- Few final jobs are retained, with few bytes, on disk as in the record. -/
  few : w.m.terminalJobs.length ≤ o.maxTerminalJobs
  bytes : w.m.artifactBytes ≤ o.maxArtifactBytesTotal
  files : ∑ k ∈ Finset.range w.m.count, (w.m.job k).file ≤ o.maxArtifactBytesTotal

namespace Manager

variable {o : Options} {m m' : Manager}

theorem Kept.files (h : m.Kept o) :
    ∑ k ∈ Finset.range m.count, (m.job k).file ≤ o.maxArtifactBytesTotal := by
  have hsub : m.jobs.toFinset ⊆ Finset.range m.count := by
    intro k hk
    exact Finset.mem_range.mpr (h.numbered.jobs k (List.mem_toFinset.mp hk))
  have hgone : ∀ k ∈ Finset.range m.count, k ∉ m.jobs.toFinset → (m.job k).file = 0 :=
    fun k hk hnot => h.gone k (Finset.mem_range.mp hk) fun hin => hnot (List.mem_toFinset.mpr hin)
  calc ∑ k ∈ Finset.range m.count, (m.job k).file
      = ∑ k ∈ m.jobs.toFinset, (m.job k).file := (Finset.sum_subset hsub hgone).symm
    _ ≤ ∑ k ∈ m.jobs.toFinset, (m.job k).weight :=
        Finset.sum_le_sum fun k _ => (h.jobs k).placed.file
    _ = m.bytes := List.sum_toFinset _ h.nodup
    _ ≤ o.maxArtifactBytesTotal := h.bytes

theorem changes_kept (hc : ReflTransGen (Change o a) m m') (h : m.Kept o)
    (hf : m.terminalCount ≤ o.maxTerminalJobs) :
    m'.Kept o ∧ m'.terminalCount ≤ o.maxTerminalJobs := by
  induction hc with
  | refl => exact ⟨h, hf⟩
  | tail _ hlast ih => exact ⟨hlast.kept ih.1, hlast.few ih.1 ih.2⟩

end Manager

variable {o : Options} {w w' : World}

theorem kept_of_reachable (h : Reachable (manager o) w) :
    w.m.Kept o ∧ w.m.terminalCount ≤ o.maxTerminalJobs := by
  refine Reachable.invariant_with (J := World.Callers)
    (I := fun w => w.m.Kept o ∧ w.m.terminalCount ≤ o.maxTerminalJobs)
    (fun _ => World.callers_of_reachable) ?_ ?_ h
  · rintro _ rfl
    exact ⟨Manager.kept_empty, Nat.zero_le _⟩
  · intro w e w' hw _ hI hs
    exact Manager.changes_kept (hw.step hs).changes hI.1 hI.2

theorem lawful_of_reachable (h : Reachable (manager o) w) : w.Lawful o := by
  obtain ⟨hk, hf⟩ := kept_of_reachable h
  have hactive : ∀ k, k < w.m.count → (w.m.job k).terminal = false → w.m.active = some k := by
    intro k hlt ht
    refine (hk.live k hlt).mp ?_
    unfold Job.terminal at ht
    simpa using ht
  refine ⟨?_, fun k _ => (hk.jobs k).final, ?_, ?_, hk.files⟩
  · intro k l hkl hll htk htl
    have heq := (hactive k hkl htk).symm.trans (hactive l hll htl)
    exact Option.some.inj heq
  · rw [Manager.length_terminalJobs]
    exact hf
  · exact Nat.le_trans Manager.artifactBytes_le hk.bytes

theorem frozen_of_run {es : List Event} {k : Nat} (h : Reachable (manager o) w)
    (hr : (manager o).run w es = some w') (hk : k < w.m.count)
    (ht : (w.m.job k).terminal = true) : (w.m.job k).Frozen (w'.m.job k) := by
  induction es generalizing w with
  | nil =>
    cases hr
    exact ⟨ht, rfl, id⟩
  | cons e es ih =>
    obtain ⟨v, hv, hrest⟩ := run_cons hr
    have hs := (World.callers_of_reachable h).step hv
    have hf := Manager.changes_frozen hs.changes hk ht
    have hl := ih (h.step hv) hrest (Nat.lt_of_lt_of_le hk (Manager.changes_count hs.changes))
      hf.terminal
    exact ⟨hl.terminal, hl.snapshot.trans hf.snapshot, hl.stopped ∘ hf.stopped⟩

/-- Every reachable manager is lawful; what is final stays so, whatever happens
next; and a job becomes final with its artifact, or as the backend reported it,
or in `terminate`, after a successful stop of its runtime. -/
theorem video_jobs_lawful (h : Reachable (manager o) w) :
    w.Lawful o ∧
    (∀ es w' k, (manager o).run w es = some w' → k < w.m.count → (w.m.job k).terminal = true →
      (w'.m.job k).terminal = true ∧ (w'.m.job k).snapshot = (w.m.job k).snapshot) ∧
    ∀ e w' k, w.step o e = some w' → k < w.m.count → (w.m.job k).terminal = false →
      (w'.m.job k).terminal = true → (w'.m.job k).EndedBy e.actor := by
  refine ⟨lawful_of_reachable h, fun es w' k hr hk ht => ?_, fun e w' k hs hk hlive ht => ?_⟩
  · have hf := frozen_of_run h hr hk ht
    exact ⟨hf.terminal, hf.snapshot⟩
  · exact Manager.changes_ended_by ((World.callers_of_reachable h).step hs).changes hk hlive ht

/-! ## Two runs -/

def defaults : Options := Options.ofRaw false 0 0 0 0

/-- A job up to its first question, with its admission. -/
def admittedJob : List Event :=
  [.start "ada" 1 none, .run 0 .launch, .run 0 (.acquired true none), .run 0 .admits]

/-- A shutdown and a cancel at once: the first stop fails, and both hear so. A
second cancel stops the runtime. -/
def cancelledTwice : List Event :=
  admittedJob ++
  [.shutdown 2, .cancel "ada" 0 2, .call 0 .enter, .call 1 .enter, .call 0 .cancel,
    .call 0 .admitted, .call 0 .look, .call 0 (.stop (some (.other "still running"))),
    .call 0 .unstop, .call 0 .close, .call 1 .wake, .cancel "ada" 0 3, .call 2 .enter,
    .call 2 .cancel, .call 2 .admitted, .call 2 .look, .call 2 (.stop none),
    .call 2 (.settle 4 4 none), .call 2 .close, .run 0 .ask]

theorem cancelled_twice_lawful :
    let w := (manager defaults).after {} cancelledTwice
    (w.m.job 0).state = .cancelled ∧ (w.m.job 0).released = 1 ∧
      (w.caller 1).pc = .returned (some (.other "still running")) ∧
      (w.caller 2).pc = .returned none ∧ w.Lawful defaults := by
  have hr : Reachable (manager defaults) ((manager defaults).after {} cancelledTwice) :=
    reachable_after rfl (by decide +kernel)
  exact ⟨by decide +kernel, by decide +kernel, by decide +kernel, by decide +kernel,
    (video_jobs_lawful hr).1⟩

/-- A job the backend is about to report cancelled. -/
def cancelledByBackend : List Event :=
  admittedJob ++
  [.run 0 .ask, .run 0 (.ready none), .run 0 .ask, .run 0 (.submit (.ok ⟨"b1", .queued, none⟩)),
    .run 0 .accept, .run 0 .ask, .run 0 (.poll (.ok ⟨"b1", .cancelled, none⟩))]

/-- It becomes cancelled, and nobody has stopped its runtime. -/
theorem backend_cancels_without_a_stop :
    ¬ ∀ (o : Options) (w : World), Reachable (manager o) w → ∀ e w' k,
      (manager o).step w e = some w' → k < w.m.count → (w.m.job k).terminal = false →
      (w'.m.job k).state = .cancelled → (w'.m.job k).stopped = true := by
  intro hall
  have hr : Reachable (manager defaults) ((manager defaults).after {} cancelledByBackend) :=
    reachable_after rfl (by decide +kernel)
  have hs : (manager defaults).step ((manager defaults).after {} cancelledByBackend)
      (.run 0 (.apply 5 5)) = some ((manager defaults).after {}
        (cancelledByBackend ++ [.run 0 (.apply 5 5)])) := by
    refine step_after cancelledByBackend ?_ ?_
    · decide
    · decide
  have hstopped := hall defaults _ hr _ _ 0 hs (by decide) (by decide)
    (by decide)
  revert hstopped
  decide

end LocalBase.Video
