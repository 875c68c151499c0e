import LocalBase.Runtime.LlmQueue

/-!
# Graceful stops of the LLM

`Unload`, an idle recovery and a pressure eviction stop a backend nobody uses.
What makes that true is the claim. It is taken in a section that finds no lease
out, the pump grants none while it stands, and only its taker clears it
(`Claiming`), so no lease is out for as long as one of them is at work.

The name a drain goes under is the current model's, and a model has one. That
is the callers' part: `Resolve` answers with a configured id, and
`ConfiguredIDs` leaves out the empty one.
-/

namespace LocalBase.Runtime.Llm

variable {m m' : Llm} {e : LlmEvent} {t b : Nat} {model : String} {s : Switch} {e : LlmEvent}

/-! ## The claim -/

/-- What a step does to the claim. -/
inductive Claiming (m : Llm) (e : LlmEvent) (m' : Llm) : Prop
  /-- It stands as it stood, and under it no lease is granted. -/
  | kept : m'.claimed = m.claimed → (m.claimed = true → m'.wq.out ⊆ m.wq.out) →
      Claiming m e m'
  | taken : m.claimed = false → m.active = 0 → m'.wq = m.wq → Claiming m e m'
  | cleared (t : Nat) : e = .unloadEnd t ∨ e = .unclaim t →
      (m.procs t).claims = true → m'.claimed = false → Claiming m e m'

theorem pump_of_claimed (h : m.claimed = true) : pump m = m := by
  have hno : m.mayPump = false := by simp [mayPump, h]
  unfold pump
  cases m.wq.queue.length with
  | zero => rfl
  | succ n => rw [pumpLoop, hno]; rfl

theorem Quiet.claiming (h : Quiet m m') : Claiming m e m' :=
  .kept h.claimed fun _ => by rw [h.wq]; exact List.Subset.refl _

theorem claiming_same (hc : m'.claimed = m.claimed) (hout : m'.wq.out = m.wq.out) :
    Claiming m e m' :=
  .kept hc fun _ => by rw [hout]; exact List.Subset.refl _

theorem claiming_pump (hc : m'.claimed = m.claimed) (hout : m'.wq.out ⊆ m.wq.out) :
    Claiming m e (pump m') := by
  refine .kept (by rw [pump_claimed, hc]) fun h => ?_
  rw [pump_of_claimed (hc.trans h)]
  exact hout

theorem claiming_acquire (model key : String) : Claiming m e (m.acquire model key) := by
  unfold acquire
  split
  · exact quiet_refl.claiming
  · split
    · exact quiet_refl.claiming
    · split
      · exact quiet_refl.claiming
      · exact claiming_pump rfl (List.Subset.refl _)

theorem claiming_endSwitch {err : Option Err} :
    Claiming m e (m.endSwitch s err) := by
  unfold endSwitch
  cases err with
  | none => exact claiming_pump rfl (List.Subset.refl _)
  | some err =>
    refine claiming_pump rfl ?_
    simp only []
    rw [(WaitQueue.failWhile_frame _ err _ m.wq).1]
    exact List.Subset.refl _

theorem claiming_emergencyStop {reason : Err} :
    Claiming m e (m.emergencyStop t reason) := by
  have hout : (m.wq.failAll reason).out = m.wq.out :=
    (WaitQueue.failWhile_frame _ reason _ m.wq).1
  unfold emergencyStop
  cases hcur : m.cur with
  | none => exact claiming_same rfl hout
  | some b => exact claiming_same rfl hout

theorem claiming_unload {now : Bool} :
    Claiming m e (m.unload t model now) := by
  unfold unload
  split
  · exact quiet_refl.claiming
  · split
    · exact quiet_refl.claiming
    · split
      · exact quiet_refl.claiming
      · exact claiming_same rfl (WaitQueue.failMatching_frame _ _ m.wq).1

theorem claiming_unloadPoll {late : Bool} :
    Claiming m e (m.unloadPoll t b late) := by
  unfold unloadPoll
  split
  · exact claiming_pump rfl (List.Subset.refl _)
  · split
    · next hidle => exact .taken hidle.2.2 hidle.1 rfl
    · split
      · exact claiming_pump rfl (List.Subset.refl _)
      · exact quiet_refl.claiming

theorem claiming_claimIdle (h : Serving m) : Claiming m e (m.claimIdle t) := by
  unfold claimIdle
  split
  · exact quiet_refl.claiming
  · next hidle =>
    simp only [not_or, Bool.not_eq_true] at hidle
    refine .taken hidle.2.2.2.1 ?_ rfl
    have hactive := h.active
    omega

theorem Inv.claiming (h : Inv m) (hstep : Llm.step m e = some m') : Claiming m e m' := by
  cases does_of_step hstep with
  | acquire => exact claiming_acquire _ _
  | receive hq => exact claiming_same rfl (WaitQueue.receive_frame hq).2
  | cancel hq =>
    refine claiming_pump rfl ?_
    rw [(WaitQueue.cancel_frame hq).2]
    exact List.Subset.refl _
  | giveBack => exact claiming_pump rfl List.erase_subset
  | timeout => exact claiming_pump rfl (List.Subset.refl _)
  | late | stopNothing => exact quiet_refl.claiming
  | release =>
    unfold Llm.release
    split
    · exact quiet_refl.claiming
    · exact claiming_pump rfl List.erase_subset
  | endSwitch => exact claiming_endSwitch
  | switch hs he hswitch => exact (h.serving.switchStep_quiet hs he hswitch).claiming
  | watch he hwatch => exact (watchStep_quiet he hwatch).claiming
  | crashPump => exact claiming_pump rfl (List.Subset.refl _)
  | emergencyStop => exact claiming_emergencyStop
  | stopLoads => exact claiming_pump rfl (List.Subset.refl _)
  | close => exact claiming_same rfl (WaitQueue.failWhile_frame _ _ _ m.wq).1
  | closed | closeStop | stopClaimed => exact claiming_same rfl rfl
  | unload => exact claiming_unload
  | unloadPoll => exact claiming_unloadPoll
  | @unloadEnd t ht =>
    refine .cleared t (Or.inl rfl) (by rw [ht]; rfl) ?_
    rw [Llm.unloadEnd, Llm.endUnload, pump_claimed]
    rfl
  | claimIdle => exact claiming_claimIdle h.serving
  | @unclaim t ht =>
    have hclaimed := h.callers.claimed_of (t := t) (by rw [ht]; rfl)
    refine .cleared t (Or.inr rfl) (by rw [ht]; rfl) ?_
    rw [Llm.unclaim, if_pos hclaimed, pump_claimed]
    rfl
  | procStop hproc hst => exact (procStop_quiet hproc hst).claiming

theorem claimed_idle (h : Machine.Reachable llm m) : m.claimed = true → m.wq.out = [] := by
  refine h.invariant_with (J := Inv) (I := fun m => m.claimed = true → m.wq.out = [])
    (fun _ => inv_of_reachable) ?_ ?_
  · rintro m ⟨capacity, rfl⟩ hc
    cases hc
  · intro m e m' hinv _ hidle hstep hc
    cases hinv.claiming hstep with
    | kept hkept hout => exact List.subset_nil.mp (hidle (hkept ▸ hc) ▸ hout (hkept ▸ hc))
    | taken _ hactive hwq =>
      have hlen := hinv.serving.active
      rw [hwq]
      exact List.eq_nil_of_length_eq_zero (by omega)
    | cleared t _ _ hno => rw [hno] at hc; cases hc

/-- A caller in the middle of stopping backend `b`, after an `Unload`'s drain or
an idle claim. -/
def Stopping (m : Llm) (t b : Nat) : Prop :=
  ∃ st, m.procs t = .unloading b st ∨ m.procs t = .stopClaimed b st

theorem Stopping.claims (h : m.Stopping t b) : (m.procs t).claims = true := by
  obtain ⟨st, h | h⟩ := h <;> rw [h] <;> rfl

/-! ## The name of a drain -/

/-- Every request asks for a model by name. -/
def Names (_ : Llm) : LlmEvent → Prop
  | .acquire model _ => model ≠ ""
  | _ => True

/-- What a switch goes by has a name. -/
structure SwitchNamed (backends : Nat → Backend) (s : Switch) : Prop where
  model : s.model ≠ ""
  prev : ∀ p, s.prev = some p → (backends p).modelID ≠ ""
  started : ∀ b, s.pc = .load b ∨ s.pc = .install b → (backends b).modelID ≠ ""

/-- Whatever asks for a model, runs one or drains one names it. -/
structure Named (m : Llm) : Prop where
  queued : ∀ w ∈ m.wq.queue, (m.wq.waiters w).model ≠ ""
  cur : ∀ b, m.cur = some b → (m.backends b).modelID ≠ ""
  switch : ∀ s, m.switch = some s → SwitchNamed m.backends s
  drain : m.unloaders ≠ 0 → m.unloading ≠ ""

theorem Named.keep (h : Named m) (hq : Thinner m.wq m'.wq)
    (hb : ∀ b, (m.backends b).modelID ≠ "" → (m'.backends b).modelID ≠ "")
    (hcur : ∀ b, m'.cur = some b → (m'.backends b).modelID ≠ "")
    (hsw : ∀ s', m'.switch = some s' → ∃ s, m.switch = some s ∧
      s'.model = s.model ∧ s'.prev = s.prev ∧ s'.pc = s.pc)
    (hd : m'.unloaders ≠ 0 → m'.unloading ≠ "") : Named m' := by
  refine ⟨fun w hw => ?_, hcur, fun s' hs' => ?_, hd⟩
  · rw [hq.model w]
    exact h.queued w (hq.queue hw)
  · obtain ⟨s, hs, hmodel, hprev, hpc⟩ := hsw s' hs'
    have hnamed := h.switch s hs
    refine ⟨by rw [hmodel]; exact hnamed.model, fun p hp => ?_, fun b hpc' => ?_⟩
    · exact hb p (hnamed.prev p (hprev ▸ hp))
    · exact hb b (hnamed.started b (hpc ▸ hpc'))

theorem Named.setSwitch (h : Named m) (hs : SwitchNamed m.backends s) :
    Named (m.setSwitch s) :=
  ⟨h.queued, h.cur, fun _ hs' => Option.some.inj hs' ▸ hs, h.drain⟩

theorem Named.setBackend (h : Named m) {f : Backend → Backend}
    (hf : (f (m.backends b)).modelID = (m.backends b).modelID) : Named (m.setBackend b f) := by
  have hb : ∀ b', ((m.setBackend b f).backends b').modelID = (m.backends b').modelID := by
    intro b'
    by_cases hbb : b' = b
    · subst hbb
      simp [Llm.setBackend, hf]
    · simp [Llm.setBackend, Function.update_of_ne hbb]
  refine h.keep thinner_refl (fun b' => by rw [hb b']; exact fun h => h) (fun b' hb' => ?_)
    (fun s hs => ⟨s, hs, rfl, rfl, rfl⟩) h.drain
  rw [hb b']
  exact h.cur b' hb'

theorem Named.dropCur (h : Named m) {cur : Option Nat} (hcur : ∀ b, cur = some b → m.cur = some b) :
    Named { m with cur := cur } :=
  h.keep thinner_refl (fun _ h => h) (fun b hb => h.cur b (hcur b hb))
    (fun s hs => ⟨s, hs, rfl, rfl, rfl⟩) h.drain

theorem Named.setQueue (h : Named m) {q : WaitQueue Lease} (hq : Thinner m.wq q) :
    Named { m with wq := q } :=
  h.keep hq (fun _ h => h) h.cur (fun s hs => ⟨s, hs, rfl, rfl, rfl⟩) h.drain

theorem Named.setProc (h : Named m) {p : Proc} : Named (m.setProc t p) :=
  ⟨h.queued, h.cur, h.switch, h.drain⟩

theorem Named.releaseMemory (h : Named m) : Named (m.releaseMemory b) :=
  ⟨h.queued, h.cur, h.switch, h.drain⟩

theorem Named.cancelSwitch (h : Named m) (cause : Err) : Named (m.cancelSwitch cause) := by
  refine h.keep thinner_refl (fun _ h => h) h.cur (fun s' hs' => ?_) h.drain
  obtain ⟨s, hs, rfl⟩ := Option.map_eq_some_iff.mp hs'
  exact ⟨s, hs, rfl, rfl, rfl⟩

theorem Named.pumpLoop (n : Nat) (h : Named m) : Named (Llm.pumpLoop n m) := by
  induction n generalizing m with
  | zero => exact h
  | succ n ih =>
    rw [Llm.pumpLoop]
    split
    · split
      · exact h
      · next head rest hq =>
        split
        · split
          · exact h
          · exact ih ⟨(h.setQueue thinner_grant).queued, h.cur, h.switch, h.drain⟩
        · split
          · exact ih (h.setQueue thinner_fail)
          · split
            · exact h
            · -- The head's own switch goes by the head's model.
              have hqueue := h.setQueue (thinner_refl.modify (w := head)
                (f := fun r => { r with dispatching := true }) fun _ => rfl)
              refine ⟨hqueue.queued, h.cur, fun s hs => ?_, h.drain⟩
              cases hs
              refine ⟨h.queued head (by rw [hq]; exact List.mem_cons_self), ?_, ?_⟩
              · exact fun p hp => (by cases hp)
              · rintro b (hpc | hpc) <;> cases hpc
    · exact h

theorem Named.pump (h : Named m) : Named (Llm.pump m) := h.pumpLoop _

theorem Named.stopStep (h : Named m) {st : Stop} {next : Option Stop}
    (hstop : m.stopStep b st = some (m', next)) : Named m' := by
  cases st with
  | clear =>
    cases hstop
    refine h.dropCur fun b' hb' => ?_
    split at hb'
    · cases hb'
    · exact hb'
  | once =>
    simp only [Llm.stopStep] at hstop
    split at hstop
    · cases hstop; exact h.setBackend rfl
    · cases hstop
    · cases hstop; exact h
  | running => cases hstop; exact h.releaseMemory.setBackend rfl

theorem SwitchNamed.goto {backends : Nat → Backend} {s' : Switch} (h : SwitchNamed backends s)
    (hm : s'.model = s.model) (hp : s'.prev = s.prev ∨ s'.prev = none)
    (hpc : ∀ b, s'.pc ≠ .load b ∧ s'.pc ≠ .install b) : SwitchNamed backends s' := by
  refine ⟨by rw [hm]; exact h.model, fun p hp' => ?_, fun b hb => ?_⟩
  · rcases hp with hp | hp
    · exact h.prev p (hp ▸ hp')
    · rw [hp] at hp'
      cases hp'
  · rcases hb with hb | hb
    · exact absurd hb (hpc b).1
    · exact absurd hb (hpc b).2

theorem Named.goto (h : Named m) {s' : Switch} (hs : m.switch = some s) (hm : s'.model = s.model)
    (hp : s'.prev = s.prev ∨ s'.prev = none)
    (hpc : ∀ b, s'.pc ≠ .load b ∧ s'.pc ≠ .install b) : Named (m.setSwitch s') :=
  h.setSwitch ((h.switch s hs).goto hm hp hpc)

theorem Named.startFailed (h : Named m) {err : Err} (hs : m.switch = some s) :
    Named (m.startFailed s err) := by
  unfold Llm.startFailed
  split
  · exact h.goto hs rfl (Or.inl rfl) (by simp)
  · split
    · exact h.goto hs rfl (Or.inl rfl) (by simp)
    · split
      · exact h.goto hs rfl (Or.inl rfl) (by simp)
      · exact h.goto hs rfl (Or.inl rfl) (by simp)

theorem Named.launch (h : Named m) {plan : Parallel} (hs : m.switch = some s) :
    (m.launch s plan).modelID ≠ "" := by
  have hnamed := h.switch s hs
  unfold Llm.launch
  split
  · next p _ hp => exact hnamed.prev p hp
  · exact hnamed.model

theorem Named.reserve (h : Named m) {new : Backend} (hs : m.switch = some s)
    (hnew : new.modelID ≠ "") :
    Named (({ m with reservation := some m.made, made := m.made + 1 }.setBackend m.made
      fun _ => new).setSwitch { s with pc := .load m.made }) := by
  have hb : ∀ b, (m.backends b).modelID ≠ "" →
      (Function.update m.backends m.made new b).modelID ≠ "" := by
    intro b hb
    by_cases hbb : b = m.made
    · subst hbb
      simpa using hnew
    · simpa [Function.update_of_ne hbb] using hb
  have hnamed := h.switch s hs
  refine ⟨h.queued, fun b hcur => hb b (h.cur b hcur), fun s' hs' => ?_, h.drain⟩
  cases hs'
  refine ⟨hnamed.model, fun p hp => hb p (hnamed.prev p hp), fun b hpc => ?_⟩
  rcases hpc with hpc | hpc
  · cases hpc
    simpa [Llm.setSwitch, Llm.setBackend] using hnew
  · cases hpc

theorem Named.install (h : Named m) (hs : m.switch = some s)
    (hpc : s.pc = .install b) : Named (m.install s b) := by
  unfold Llm.install
  split
  · exact h.goto hs rfl (Or.inl rfl) (by simp)
  · split
    · exact (h.setBackend (b := b) (f := ({ · with emergency := true })) rfl).goto hs rfl
        (Or.inl rfl) (by simp)
    · have hcur : Named { m with cur := some b } :=
        ⟨h.queued, fun b' hb' => Option.some.inj hb' ▸ (h.switch s hs).started b (Or.inr hpc),
          h.switch, h.drain⟩
      exact (hcur.setBackend (b := b) (f := ({ · with watch := .watching })) rfl).goto hs rfl
        (Or.inl rfl) (by simp)

theorem Named.switchStep (h : Named m) (hs : m.switch = some s) (he : e ≠ .endSwitch)
    (hstep : m.switchStep s e = some m') : Named m' := by
  unfold Llm.switchStep at hstep
  split at hstep
  · -- prepare
    split at hstep
    · cases hstep; exact h.goto hs rfl (Or.inl rfl) (by simp)
    · cases hstep; exact h.goto hs rfl (Or.inl rfl) (by simp)
    · cases hstep
  · -- read
    split at hstep
    · cases hstep
      refine h.setSwitch ⟨(h.switch s hs).model, h.cur, ?_⟩
      rintro b (hb | hb) <;> cases hb
    · cases hstep
  · -- check
    split at hstep
    · cases hstep; exact h.goto hs rfl (Or.inl rfl) (by simp)
    · cases hstep; exact h.goto hs rfl (Or.inl rfl) (by simp)
    · cases hstep; exact h.goto hs rfl (Or.inl rfl) (by simp)
    · cases hstep
  · -- switchStop
    split at hstep
    · obtain ⟨⟨m₁, next⟩, hst, heq⟩ := Option.map_eq_some_iff.mp hstep
      subst heq
      refine (h.stopStep hst).goto ((stopStep_procs hst).2.trans hs) rfl (Or.inl rfl) ?_
      cases next <;> simp
    · obtain ⟨⟨m₁, next⟩, hst, heq⟩ := Option.map_eq_some_iff.mp hstep
      subst heq
      refine (h.stopStep hst).goto ((stopStep_procs hst).2.trans hs) rfl (Or.inl rfl) ?_
      cases next <;> simp
    · cases hstep
  · -- settle
    split at hstep
    · split at hstep
      · cases hstep; exact h.goto hs rfl (Or.inl rfl) (by simp)
      · cases hstep; exact h.goto hs rfl (Or.inl rfl) (by simp)
    · cases hstep
  · -- start
    split at hstep
    · cases hstep; exact h.goto hs rfl (Or.inl rfl) (by simp)
    · cases hstep; exact h.startFailed hs
    · cases hstep; exact h.goto hs rfl (Or.inl rfl) (by simp)
    · cases hstep
  · -- reserve
    split at hstep
    · cases hstep; exact h.startFailed hs
    · cases hstep; exact h.startFailed hs
    · cases hstep; exact h.reserve hs (h.launch hs)
    · cases hstep
  · -- load
    split at hstep
    · cases hstep; exact h.releaseMemory.startFailed hs
    · next b hpc =>
      cases hstep
      refine h.setSwitch ⟨(h.switch s hs).model, (h.switch s hs).prev, ?_⟩
      rintro b' (hb | hb)
      · cases hb
      · cases hb
        exact (h.switch s hs).started b (Or.inl hpc)
    · cases hstep
  · -- install
    split at hstep
    · next b hpc => cases hstep; exact h.install hs hpc
    · cases hstep
  · -- retry
    split at hstep
    · split at hstep
      · cases hstep; exact h.goto hs rfl (Or.inr rfl) (by simp)
      · cases hstep
    · cases hstep
  · exact absurd rfl he
  · cases hstep

theorem Named.endUnload (h : Named m) (hpos : m.unloaders ≠ 0) : Named m.endUnload := by
  unfold Llm.endUnload
  refine Named.pump ⟨h.queued, h.cur, h.switch, fun hne => ?_⟩
  simp only []
  rw [if_neg hne]
  exact h.drain hpos

theorem Named.acquire (h : Named m) {key : String} (hmodel : model ≠ "") :
    Named (m.acquire model key) := by
  unfold Llm.acquire
  split
  · exact h
  · split
    · exact h
    · split
      · exact h
      · refine Named.pump ⟨fun w hw => ?_, h.cur, h.switch, h.drain⟩
        by_cases hwa : w = m.wq.arrived
        · subst hwa
          simpa [WaitQueue.push] using hmodel
        · have hold : w ∈ m.wq.queue := by
            rcases List.mem_append.mp hw with hold | hnew
            · exact hold
            · exact absurd (List.mem_singleton.mp hnew) hwa
          simpa [WaitQueue.push, Function.update_of_ne hwa] using h.queued w hold

theorem Named.endSwitch (h : Named m) {err : Option Err} :
    Named (m.endSwitch s err) := by
  have hdone : ∀ failed, Named { m with
      starting := false, switch := none, failed := failed } :=
    fun failed => ⟨h.queued, h.cur, fun s hs => (by cases hs), h.drain⟩
  unfold Llm.endSwitch
  cases err with
  | none => exact (hdone _).pump
  | some err => exact ((hdone _).setQueue thinner_failWhile).pump

theorem Named.unload (h : Named m) {now : Bool} :
    Named (m.unload t model now) := by
  unfold Llm.unload
  split
  · exact h
  · next b hb =>
    split
    · exact h
    · split
      · exact h
      · obtain ⟨hcur, hmodel⟩ := Option.filter_eq_some_iff.mp hb
        have hname : model ≠ "" := by
          rw [← of_decide_eq_true hmodel]
          exact h.cur b hcur
        exact ⟨(h.setQueue thinner_failMatching).queued, h.cur, h.switch, fun _ => hname⟩

theorem Named.unloadPoll (h : Named m) (hinv : Inv m) {late : Bool}
    (ht : m.procs t = .draining b) : Named (m.unloadPoll t b late) := by
  have hpos := hinv.callers.unloaders_ne_zero (t := t) (by rw [ht]; rfl)
  have hend : Named ((m.setProc t .idle).endUnload) := h.setProc.endUnload hpos
  unfold Llm.unloadPoll
  split
  · exact hend
  · split
    · exact ⟨h.queued, h.cur, h.switch, h.drain⟩
    · split
      · exact hend
      · exact h

theorem Named.watchStep (h : Named m) (he : ∀ b', e ≠ .crashPump b')
    (hstep : m.watchStep b e = some m') : Named m' := by
  unfold Llm.watchStep at hstep
  split at hstep
  · split at hstep
    · split at hstep <;> cases hstep
      · exact (h.dropCur fun _ hb => (by cases hb)).setBackend rfl
      · exact h.setBackend rfl
    · cases hstep
  · split at hstep <;> cases hstep
    · exact h.setBackend rfl
    · exact h.setBackend rfl
  · split at hstep <;> cases hstep
    exact h.releaseMemory.setBackend rfl
  · next b' => exact absurd rfl (he b')
  · cases hstep

theorem Named.step (h : Named m) (hinv : Inv m) (he : Names m e)
    (hstep : Llm.step m e = some m') : Named m' := by
  cases does_of_step hstep with
  | acquire => exact h.acquire he
  | receive hq => exact h.setQueue (thinner_receive hq)
  | cancel hq => exact (h.setQueue (thinner_cancel hq)).pump
  | giveBack => exact Named.pump ⟨(h.setQueue thinner_giveBack).queued, h.cur, h.switch, h.drain⟩
  | timeout => exact (h.setQueue thinner_timeout).pump
  | late | stopNothing => exact h
  | release =>
    unfold Llm.release
    split
    · exact h
    · exact Named.pump ⟨(h.setQueue thinner_release).queued, h.cur, h.switch, h.drain⟩
  | endSwitch => exact h.endSwitch
  | switch hs hne hswitch => exact h.switchStep hs hne hswitch
  | watch hne hwatch => exact h.watchStep hne hwatch
  | @crashPump b => exact (h.setBackend (b := b) (f := ({ · with watch := .off })) rfl).pump
  | @emergencyStop t reason =>
    have hbase : Named ({ m with wq := m.wq.failAll reason }.cancelSwitch reason) :=
      (h.setQueue thinner_failWhile).cancelSwitch reason
    unfold Llm.emergencyStop
    simp only []
    split
    · exact hbase
    · exact (hbase.setBackend rfl).setProc
  | stopLoads =>
    exact Named.pump ⟨h.queued, h.cur, (h.cancelSwitch .unavailable).switch, h.drain⟩
  | close =>
    have hclosed : Named { m with closed := true, wq := m.wq.failAll .unavailable } :=
      ⟨(h.setQueue thinner_failWhile).queued, h.cur, h.switch, h.drain⟩
    exact (hclosed.cancelSwitch _).setProc
  | closed | closeStop | stopClaimed => exact h.setProc
  | unload => exact h.unload
  | unloadPoll ht => exact h.unloadPoll hinv ht
  | @unloadEnd t ht =>
    have hpos := hinv.callers.unloaders_ne_zero (t := t) (by rw [ht]; rfl)
    have hfree : Named ({ m with claimed := false }.setProc t .idle) :=
      ⟨h.queued, h.cur, h.switch, h.drain⟩
    exact hfree.endUnload hpos
  | claimIdle =>
    unfold Llm.claimIdle
    split
    · exact h
    · exact ⟨h.queued, h.cur, h.switch, h.drain⟩
  | unclaim =>
    unfold Llm.unclaim
    split
    · exact Named.pump ⟨h.queued, h.cur, h.switch, h.drain⟩
    · exact h.setProc
  | procStop _ hst => exact (h.stopStep hst).setProc

theorem named (h : Machine.ReachesUnder llm Names m) : Named m := by
  refine h.invariant_with (J := Inv) (I := Named) (fun _ hr => inv_of_reachable hr.reachable)
    ?_ ?_
  · rintro m ⟨capacity, rfl⟩
    refine ⟨fun w hw => (by cases hw), fun b hb => (by cases hb), fun s hs => (by cases hs), ?_⟩
    exact fun hne => absurd rfl hne
  · exact fun m e m' hinv _ hnamed he hstep => hnamed.step hinv he hstep

/-! ## What a graceful stop is -/

/-- A backend that an `Unload` or an idle claim is stopping serves no lease;
the claim has one taker, and nobody else clears it; and a model is being
unloaded exactly while somebody unloads it. -/
structure Graceful (m : Llm) : Prop where
  unused : ∀ t b, m.Stopping t b → ∀ w ∈ m.wq.out, ∀ l, (m.wq.waiters w).lease = some l → l.b ≠ b
  one_claims : ∀ t t', (m.procs t).claims = true → (m.procs t').claims = true → t = t'
  claimed : m.claimed = true ↔ ∃ t, (m.procs t).claims = true
  cleared : ∀ e m', Llm.step m e = some m' → m.claimed = true → m'.claimed = false →
    ∃ t, (m.procs t).claims = true ∧ (e = .unloadEnd t ∨ e = .unclaim t)
  drained : m.unloaders = 0 → m.unloading = ""
  named : Machine.ReachesUnder llm Names m → (m.unloading = "" ↔ m.unloaders = 0)

theorem graceful (h : Machine.Reachable llm m) : Graceful m := by
  have hinv := inv_of_reachable h
  refine ⟨fun t b hstop w hw => ?_, fun t t' ht ht' => ?_, ?_, fun e m' hstep hc hc' => ?_,
    fun hzero => ?_, fun hnames => ?_⟩
  · rw [claimed_idle h (hinv.callers.claimed_of hstop.claims)] at hw
    cases hw
  · exact hinv.callers.claims_unique ht ht'
  · refine ⟨hinv.callers.exists_claims, ?_⟩
    rintro ⟨t, ht⟩
    exact hinv.callers.claimed_of ht
  · cases hinv.claiming hstep with
    | kept hkept _ => rw [hkept, hc] at hc'; cases hc'
    | taken hfree _ _ => rw [hfree] at hc; cases hc
    | cleared t he ht _ => exact ⟨t, ht, he⟩
  · by_contra hne
    exact hinv.callers.named hne hzero
  · refine ⟨fun hempty => ?_, fun hzero => ?_⟩
    · by_contra hne
      exact (named hnames).drain hne hempty
    · by_contra hne
      exact hinv.callers.named hne hzero

end LocalBase.Runtime.Llm
