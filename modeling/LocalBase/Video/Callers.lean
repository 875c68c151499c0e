import LocalBase.Video.Moves

/-!
# The callers of `terminate`

A caller past its first section holds the job's termination, and the job is not
final. Nobody else ends the job then: the runner leaves it alone, and another
caller waits. What the caller goes through adds up: the context is cancelled,
the admission has settled, no artifact is being persisted and the runtime has
stopped, which is what it settles the job on.
-/

namespace LocalBase.Video

open Machine Relation

/-- The caller's termination of the job is under way. -/
structure Job.Held (c : Nat) (j : Job) : Prop where
  terminating : j.terminating = some c
  live : j.terminalAt = none

/-- Where caller `c` stands, against its job. -/
def CallerPc.Fits (c : Nat) (j : Job) : CallerPc → Prop
  | .idle | .expiring | .entering | .waiting _ | .closing _ | .returned _ => True
  | .cancelling => j.Held c
  | .admitting | .unstopping _ => j.Held c ∧ j.cancelled = true
  | .looking => j.Held c ∧ j.cancelled = true ∧ j.admitted = true
  | .stopping completing =>
    j.Held c ∧ j.cancelled = true ∧ j.admitted = true ∧
      (completing = false → j.completing = false)
  | .joining => j.Held c ∧ j.cancelled = true ∧ j.admitted = true ∧ j.stopped = true
  | .settling =>
    j.Held c ∧ j.cancelled = true ∧ j.admitted = true ∧ j.completing = false ∧ j.stopped = true

/-- What others leave of a job whose termination `c` holds. -/
structure Job.Framed (c : Nat) (j j' : Job) : Prop where
  held : j'.Held c
  cancelled : j.cancelled = true → j'.cancelled = true
  admitted : j.admitted = true → j'.admitted = true
  completing : j.completing = false → j'.completing = false
  stopped : j.stopped = true → j'.stopped = true

variable {o : Options} {a : Option Nat} {c : Nat}

theorem Job.Framed.refl {j : Job} (h : j.Held c) : j.Framed c j := ⟨h, id, id, id, id⟩

theorem Job.Framed.trans {j j' j'' : Job} (h : j.Framed c j') (h' : j'.Framed c j'') :
    j.Framed c j'' :=
  ⟨h'.held, h'.cancelled ∘ h.cancelled, h'.admitted ∘ h.admitted, h'.completing ∘ h.completing,
    h'.stopped ∘ h.stopped⟩

theorem CallerPc.Fits.framed {pc : CallerPc} {j j' : Job} (h : pc.Fits c j)
    (hf : j.Held c → j.Framed c j') : pc.Fits c j' := by
  cases pc with
  | idle | expiring | entering | waiting | closing | returned => trivial
  | cancelling => exact (hf h).held
  | admitting | unstopping =>
    have hf := hf h.1
    exact ⟨hf.held, hf.cancelled h.2⟩
  | looking =>
    have hf := hf h.1
    exact ⟨hf.held, hf.cancelled h.2.1, hf.admitted h.2.2⟩
  | stopping completing =>
    obtain ⟨hheld, hc, ha, hcomp⟩ := h
    have hf := hf hheld
    exact ⟨hf.held, hf.cancelled hc, hf.admitted ha, fun h => hf.completing (hcomp h)⟩
  | joining =>
    obtain ⟨hheld, hc, ha, hs⟩ := h
    have hf := hf hheld
    exact ⟨hf.held, hf.cancelled hc, hf.admitted ha, hf.stopped hs⟩
  | settling =>
    obtain ⟨hheld, hc, ha, hcomp, hs⟩ := h
    have hf := hf hheld
    exact ⟨hf.held, hf.cancelled hc, hf.admitted ha, hf.completing hcomp, hf.stopped hs⟩

theorem Move.framed {j j' : Job} (hm : Move a j j') (h : j.Held c) (ha : a ≠ some c) :
    j.Framed c j' := by
  have hopen : ∀ {p : Prop}, j.terminating = none → p := fun hn => by
    rw [h.terminating] at hn
    cases hn
  have hother : ∀ {d : Nat} {p : Prop}, a = some d → j.terminating = some d → p := by
    intro d p had hd
    rw [h.terminating] at hd
    cases hd
    exact absurd had ha
  cases hm with
  | told ho | completing ho => exact hopen ho.terminating
  | enter _ _ hn => exact hopen hn
  | cancel had hd | stop had hd | unstop had hd => exact hother had hd
  | admits => exact ⟨⟨h.terminating, h.live⟩, id, fun _ => rfl, id, id⟩
  | unpersisted | tooLate => exact ⟨⟨h.terminating, h.live⟩, id, id, fun _ => rfl, id⟩
  | _ => exact ⟨⟨h.terminating, h.live⟩, id, id, id, id⟩

theorem Ending.not_held {j j' : Job} (he : Ending a j j') (h : j.Held c) : a = some c := by
  have hopen : ∀ {p : Prop}, j.terminating = none → p := fun hn => by
    rw [h.terminating] at hn
    cases hn
  cases he with
  | completed _ _ _ hn => exact hopen hn
  | failed _ ho | cancelled _ ho => exact hopen ho.terminating
  | settled had hd =>
    rw [h.terminating] at hd
    cases hd
    exact had

namespace Manager

variable {m m' : Manager} {k : Nat}

theorem Evict.framed (he : m.Evict m') (h : (m.job k).Held c) : (m.job k).Framed c (m'.job k) := by
  rcases he.job k with hjob | ⟨ht, _⟩
  · rw [hjob]
    exact Job.Framed.refl h
  · unfold Job.terminal at ht
    rw [h.live] at ht
    cases ht

theorem evicts_framed (he : ReflTransGen Evict m m') (h : (m.job k).Held c) :
    (m.job k).Framed c (m'.job k) := by
  induction he with
  | refl => exact Job.Framed.refl h
  | tail _ hlast ih => exact ih.trans (hlast.framed ih.held)

theorem Change.count (hc : Change o a m m') : m.count ≤ m'.count := by
  cases hc with
  | evict he => exact he.count.ge
  | start => exact Nat.le_succ _
  | @finish l _ _ _ _ _ hev => exact (evicts_keep hev l).1.ge
  | _ => exact Nat.le_refl _

theorem Change.framed (hc : Change o a m m') (hk : k < m.count) (h : (m.job k).Held c)
    (ha : a ≠ some c) : (m.job k).Framed c (m'.job k) := by
  cases hc with
  | @move l j hl hm =>
    by_cases hkl : k = l
    · subst hkl
      rw [setJob_self]
      exact hm.framed h ha
    · rw [setJob_of_ne hkl]
      exact Job.Framed.refl h
  | @room l media =>
    by_cases hkl : k = l
    · subst hkl
      rw [setJob_self]
      exact ⟨⟨h.terminating, h.live⟩, id, id, id, id⟩
    · rw [setJob_of_ne hkl]
      exact Job.Framed.refl h
  | evict he => exact he.framed h
  | start =>
    have hne : k ≠ m.count := Nat.ne_of_lt hk
    change (m.job k).Framed c ((m.setJob m.count _).job k)
    rw [setJob_of_ne hne]
    exact Job.Framed.refl h
  | @finish l j now _ hl he hev =>
    have hkl : k ≠ l := by
      rintro rfl
      exact ha (he.not_held h)
    have hsame : (m.ended l j now).job k = m.job k := setJob_of_ne hkl
    rw [← hsame] at h ⊢
    exact evicts_framed hev h
  | stopping | reorder => exact Job.Framed.refl h

theorem changes_count (hc : ReflTransGen (Change o a) m m') : m.count ≤ m'.count := by
  induction hc with
  | refl => exact Nat.le_refl _
  | tail _ hlast ih => exact Nat.le_trans ih hlast.count

/-- The jobs it speaks of are jobs it has had. -/
structure Numbered (m : Manager) : Prop where
  jobs : ∀ k ∈ m.jobs, k < m.count
  active : ∀ k, m.active = some k → k < m.count

theorem Evict.numbered (he : m.Evict m') (h : m.Numbered) : m'.Numbered := by
  obtain ⟨l, _, rfl⟩ := he
  exact ⟨fun k hk => h.jobs k (List.mem_of_mem_erase hk), h.active⟩

theorem evicts_numbered (he : ReflTransGen Evict m m') (h : m.Numbered) : m'.Numbered := by
  induction he with
  | refl => exact h
  | tail _ hlast ih => exact hlast.numbered ih

theorem Change.numbered (hc : Change o a m m') (h : m.Numbered) : m'.Numbered := by
  cases hc with
  | evict he => exact he.numbered h
  | start =>
    refine ⟨fun k hk => ?_, fun k hk => ?_⟩
    · rcases List.mem_cons.mp hk with rfl | hk
      · exact Nat.lt_succ_self _
      · exact Nat.lt_succ_of_lt (h.jobs k hk)
    · cases hk
      exact Nat.lt_succ_self _
  | @finish l j now _ hl he hev =>
    refine evicts_numbered hev ⟨h.jobs, fun k hk => ?_⟩
    simp only [ended] at hk
    split at hk
    · cases hk
    · exact h.active k hk
  | reorder hperm => exact ⟨fun k hk => h.jobs k (hperm.mem_iff.mp hk), h.active⟩
  | _ => exact ⟨h.jobs, h.active⟩

theorem changes_numbered (hc : ReflTransGen (Change o a) m m') (h : m.Numbered) : m'.Numbered := by
  induction hc with
  | refl => exact h
  | tail _ hlast ih => exact hlast.numbered ih

theorem changes_framed (hc : ReflTransGen (Change o a) m m') (hk : k < m.count)
    (h : (m.job k).Held c) (ha : a ≠ some c) : (m.job k).Framed c (m'.job k) := by
  induction hc with
  | refl => exact Job.Framed.refl h
  | tail hrest hlast ih =>
    exact ih.trans (hlast.framed (Nat.lt_of_lt_of_le hk (changes_count hrest)) ih.held ha)

end Manager

/-! ## A caller's own steps -/

namespace World

variable {w w' : World}

/-- What is known of the callers. -/
structure Callers (w : World) : Prop where
  known : ∀ c, (w.caller c).pc ≠ .idle → (w.caller c).job < w.m.count
  fits : ∀ c, (w.caller c).pc.Fits c (w.m.job (w.caller c).job)
  numbered : w.m.Numbered

/-- A caller's step: what it does to the manager, and where the caller is then. -/
structure Acted (o : Options) (w : World) (c : Nat) (w' : World) : Prop where
  changes : ReflTransGen (Manager.Change o (some c)) w.m w'.m
  others : ∀ d, d ≠ c → w'.caller d = w.caller d
  job : (w'.caller c).job = (w.caller c).job
  fits : (w'.caller c).pc.Fits c (w'.m.job (w.caller c).job)

theorem acted_setPc {m : Manager} {pc : CallerPc}
    (hm : ReflTransGen (Manager.Change o (some c)) w.m m)
    (hf : pc.Fits c (m.job (w.caller c).job)) : Acted o w c { w.setPc c pc with m := m } where
  changes := hm
  others d hd := Function.update_of_ne hd ..
  job := by
    simp only [setPc, Function.update_self]
  fits := by
    simp only [setPc, Function.update_self]
    exact hf

theorem acted_return {err : Option JobError} : Acted o w c (w.return_ c err) := by
  have hpc : Acted o w c (w.setPc c (.returned err)) :=
    acted_setPc (m := w.m) ReflTransGen.refl trivial
  unfold return_
  simp only []
  split
  · exact ⟨hpc.changes, hpc.others, hpc.job, hpc.fits⟩
  · exact ⟨hpc.changes, hpc.others, hpc.job, hpc.fits⟩
  · exact hpc

theorem stepCaller_acted {e : CallerEvent} (hw : w.Callers) (hs : w.stepCaller o c e = some w') :
    Acted o w c w' := by
  have hknown : ∀ pc : CallerPc, (w.caller c).pc = pc → pc ≠ .idle →
      (w.caller c).job < w.m.count := fun pc hpc hne => hw.known c (hpc ▸ hne)
  have hfits : ∀ pc : CallerPc, (w.caller c).pc = pc → pc.Fits c (w.m.job (w.caller c).job) :=
    fun pc hpc => hpc ▸ hw.fits c
  cases e with
  | expire =>
    simp only [stepCaller] at hs
    split at hs <;> cases hs
    refine acted_setPc (m := w.m) ReflTransGen.refl ?_
    split <;> trivial
  | enter =>
    simp only [stepCaller] at hs
    split at hs
    · next hpc =>
      split at hs
      · cases hs
        exact acted_return
      · next hopen =>
        have hlive : (w.m.job (w.caller c).job).terminalAt = none := by
          simpa [Job.terminal] using hopen
        split at hs
        · cases hs
          exact acted_setPc (m := w.m) ReflTransGen.refl trivial
        · next hnone =>
          cases hs
          refine acted_setPc (ReflTransGen.single
            (.move (hknown _ hpc (by simp)) (.enter rfl hlive hnone))) ?_
          rw [Manager.setJob_self]
          exact ⟨rfl, hlive⟩
    · cases hs
  | wake =>
    simp only [stepCaller] at hs
    split at hs
    · split at hs <;> cases hs
      exact acted_return
    · cases hs
  | cancel =>
    simp only [stepCaller] at hs
    split at hs <;> cases hs
    next hpc =>
      have hheld : (w.m.job (w.caller c).job).Held c := hfits _ hpc
      refine acted_setPc (ReflTransGen.single
        (.move (hknown _ hpc (by simp)) (.cancel rfl hheld.terminating))) ?_
      rw [Manager.setJob_self]
      exact ⟨⟨hheld.terminating, hheld.live⟩, rfl⟩
  | admitted =>
    simp only [stepCaller] at hs
    split at hs
    · next hpc =>
      split at hs <;> cases hs
      next hadm =>
        obtain ⟨hheld, hc⟩ := hfits _ hpc
        exact acted_setPc (m := w.m) ReflTransGen.refl ⟨hheld, hc, hadm⟩
    · cases hs
  | look =>
    simp only [stepCaller] at hs
    split at hs <;> cases hs
    next hpc =>
      obtain ⟨hheld, hc, hadm⟩ := hfits _ hpc
      exact acted_setPc (m := w.m) ReflTransGen.refl ⟨hheld, hc, hadm, id⟩
  | stop err =>
    simp only [stepCaller] at hs
    split at hs
    · next completing hpc =>
      obtain ⟨hheld, hc, hadm, hcomp⟩ := hfits _ hpc
      cases err with
      | some e =>
        cases hs
        exact acted_setPc (m := w.m) ReflTransGen.refl ⟨hheld, hc⟩
      | none =>
        cases hs
        refine acted_setPc (ReflTransGen.single
          (.move (hknown _ hpc (by simp)) (.stop rfl hheld.terminating))) ?_
        rw [Manager.setJob_self]
        cases completing with
        | true => exact ⟨⟨hheld.terminating, hheld.live⟩, hc, hadm, rfl⟩
        | false => exact ⟨⟨hheld.terminating, hheld.live⟩, hc, hadm, hcomp rfl, rfl⟩
    · cases hs
  | unstop =>
    simp only [stepCaller] at hs
    split at hs <;> cases hs
    next hpc =>
      obtain ⟨hheld, hc⟩ := hfits _ hpc
      exact acted_setPc (ReflTransGen.single
        (.move (hknown _ hpc (by simp)) (.unstop rfl hheld.terminating hc))) trivial
  | join =>
    simp only [stepCaller] at hs
    split at hs
    · next hpc =>
      split at hs <;> cases hs
      next hcomp =>
        obtain ⟨hheld, hc, hadm, hstop⟩ := hfits _ hpc
        exact acted_setPc (m := w.m) ReflTransGen.refl
          ⟨hheld, hc, hadm, Bool.not_eq_true _ ▸ hcomp, hstop⟩
    · cases hs
  | settle now now' rm =>
    simp only [stepCaller] at hs
    split at hs
    · next hpc =>
      obtain ⟨hheld, hc, hadm, hcomp, hstop⟩ := hfits _ hpc
      split at hs
      · cases hs
        exact acted_setPc (m := w.m) ReflTransGen.refl trivial
      · cases hs
        refine acted_setPc (ReflTransGen.single (Manager.change_finish (hknown _ hpc (by simp))
          (.settled rfl hheld.terminating hheld.live hadm hcomp hstop) ?_)) trivial
        unfold settled
        split
        · exact hheld.live
        · simp only []
          split <;> exact hheld.live
    · cases hs
  | close =>
    simp only [stepCaller] at hs
    split at hs <;> cases hs
    exact acted_return

/-! ## Every step -/

theorem Callers.of_changes {m : Manager} (h : w.Callers)
    (hm : ReflTransGen (Manager.Change o none) w.m m) : { w with m := m }.Callers where
  known d hd := Nat.lt_of_lt_of_le (h.known d hd) (Manager.changes_count hm)
  fits d := by
    by_cases hd : (w.caller d).pc = .idle
    · simp only [hd]
      trivial
    · exact (h.fits d).framed fun hheld =>
        Manager.changes_framed hm (h.known d hd) hheld (by simp)
  numbered := Manager.changes_numbered hm h.numbered

theorem Callers.add {d : Caller} (h : w.Callers) (hjob : d.job < w.m.count)
    (hpc : d.pc = .entering ∨ d.pc = .expiring) : (w.addCaller d).Callers where
  known c hc := by
    by_cases hcd : c = w.calls
    · subst hcd
      simp only [addCaller, Function.update_self]
      exact hjob
    · simp only [addCaller, Function.update_of_ne hcd] at hc ⊢
      exact h.known c hc
  fits c := by
    by_cases hcd : c = w.calls
    · subst hcd
      simp only [addCaller, Function.update_self]
      rcases hpc with hpc | hpc
      · rw [hpc]
        trivial
      · rw [hpc]
        trivial
    · simp only [addCaller, Function.update_of_ne hcd]
      exact h.fits c
  numbered := h.numbered

theorem Callers.call_active {d : Nat → Caller} (h : w.Callers)
    (hd : ∀ k, (d k).job = k ∧ (d k).pc = .entering) : (w.callActive d).Callers := by
  unfold callActive
  split
  · next k hk =>
    refine h.add ?_ (Or.inl (hd k).2)
    rw [(hd k).1]
    exact h.numbered.active k hk
  · exact h

theorem Callers.acted (h : w.Callers) (hc : (w.caller c).pc ≠ .idle) (ha : Acted o w c w') :
    w'.Callers where
  known d hd := by
    by_cases hdc : d = c
    · subst hdc
      rw [ha.job]
      exact Nat.lt_of_lt_of_le (h.known d hc) (Manager.changes_count ha.changes)
    · rw [ha.others d hdc] at hd ⊢
      exact Nat.lt_of_lt_of_le (h.known d hd) (Manager.changes_count ha.changes)
  fits d := by
    by_cases hdc : d = c
    · subst hdc
      rw [ha.job]
      exact ha.fits
    · rw [ha.others d hdc]
      by_cases hidle : (w.caller d).pc = .idle
      · rw [hidle]
        trivial
      · refine (h.fits d).framed fun hheld =>
          Manager.changes_framed ha.changes (h.known d hidle) hheld ?_
        rintro ⟨⟩
        exact hdc rfl
  numbered := Manager.changes_numbered ha.changes h.numbered

theorem stepCaller_started {e : CallerEvent} (hs : w.stepCaller o c e = some w') :
    (w.caller c).pc ≠ .idle := by
  intro hidle
  cases e <;> simp [stepCaller, hidle] at hs

/-- The manager's part of a step, and the callers after it. -/
structure Stepped (o : Options) (a : Option Nat) (w w' : World) : Prop where
  changes : ReflTransGen (Manager.Change o a) w.m w'.m
  callers : w'.Callers

theorem Callers.changed {m : Manager} (h : w.Callers)
    (hm : ReflTransGen (Manager.Change o none) w.m m) : Stepped o none w { w with m := m } :=
  ⟨hm, h.of_changes hm⟩

theorem Callers.called {m : Manager} {d : Nat → Caller} (h : w.Callers)
    (hm : ReflTransGen (Manager.Change o none) w.m m)
    (hd : ∀ k, (d k).job = k ∧ (d k).pc = .entering) :
    Stepped o none w (callActive { w with m := m } d) := by
  refine ⟨?_, (h.of_changes hm).call_active hd⟩
  unfold callActive
  split
  · exact hm
  · exact hm

theorem Callers.step {e : Event} (h : w.Callers) (hs : w.step o e = some w') :
    Stepped o e.actor w w' := by
  cases e with
  | start owner now mkdir =>
    cases hs
    refine h.changed ?_
    unfold Manager.start
    simp only []
    split
    · exact Manager.changes_prune
    · next hfree =>
      simp only [Bool.or_eq_true, not_or, Bool.not_eq_true, Option.isSome_eq_false_iff,
        Option.isNone_iff_eq_none] at hfree
      split
      · exact Manager.changes_prune
      · exact Manager.changes_prune.tail (.start hfree.2)
  | get owner k now | artifact owner k now =>
    cases hs
    exact h.changed Manager.changes_prune
  | delete owner k now =>
    cases hs
    refine h.changed ?_
    unfold Manager.delete
    simp only []
    split
    · next hdone =>
      exact Manager.changes_prune.tail (.evict ⟨k, (Bool.and_eq_true_iff.mp hdone).2, rfl⟩)
    · exact Manager.changes_prune
  | cancel owner k now =>
    cases hs
    have hp : ReflTransGen (Manager.Change o none) w.m (w.m.prune o now) :=
      Manager.changes_prune
    have hw := h.of_changes hp
    split
    · next hhas =>
      refine ⟨hp, hw.add (hw.numbered.jobs k ?_) (Or.inl rfl)⟩
      unfold Manager.has at hhas
      simpa using (Bool.and_eq_true_iff.mp hhas).1
    · exact ⟨hp, hw⟩
  | shutdown now =>
    cases hs
    exact h.called (Manager.changes_prune.tail .stopping) fun _ => ⟨rfl, rfl⟩
  | cancelActive now | failActiveForMemoryPressure now =>
    cases hs
    exact h.called Manager.changes_prune fun _ => ⟨rfl, rfl⟩
  | run k e =>
    simp only [World.step] at hs
    split at hs
    · next hk =>
      obtain ⟨m, hm, rfl⟩ := Option.map_eq_some_iff.mp hs
      exact h.changed (Manager.run_changes hk hm)
    · cases hs
  | blame k =>
    simp only [World.step] at hs
    split at hs
    · next hk =>
      split at hs <;> cases hs
      next hr =>
        have hm : ReflTransGen (Manager.Change o none) w.m (w.m.goTo k .returned) :=
          ReflTransGen.single (.move hk (.goes (Or.inr ⟨by rw [hr]; rfl, rfl⟩)))
        split
        · exact h.changed hm
        · exact ⟨hm, (h.of_changes hm).add hk (Or.inl rfl)⟩
    · cases hs
  | fire k =>
    simp only [World.step] at hs
    split at hs <;> cases hs
    next hk =>
      have hm : ReflTransGen (Manager.Change o none) w.m
          (w.m.setJob k { w.m.job k with deadline := false }) :=
        ReflTransGen.single (.move hk.1 .fired)
      exact ⟨hm, (h.of_changes hm).add hk.1 (Or.inr rfl)⟩
  | call c e =>
    have ha := stepCaller_acted h hs
    exact ⟨ha.changes, h.acted (stepCaller_started hs) ha⟩
  | reorder ids =>
    simp only [World.step] at hs
    split at hs <;> cases hs
    next hperm => exact h.changed (ReflTransGen.single (.reorder hperm))

theorem callers_empty : Callers {} where
  known _ hc := absurd rfl hc
  fits _ := trivial
  numbered := ⟨fun _ hk => absurd hk List.not_mem_nil, fun _ hk => by cases hk⟩

theorem callers_of_reachable (h : Reachable (manager o) w) : w.Callers :=
  h.invariant (fun _ hi => hi ▸ callers_empty) fun _ _ _ hw hs => (hw.step hs).callers

end World

end LocalBase.Video
