import LocalBase.Runtime.LlmUnload
import LocalBase.Runtime.ServiceQueue

/-!
# Graceful stops of a service

As for the LLM, with a claim that stands for the whole stop and a name that
comes from the callers. Here a switch can also bring a name in, the previous
model's that `rollBack` reloads, and `doSwitch` calls that only for one it has.
-/

namespace LocalBase.Runtime.Service

variable {s s' : Service} {e : SvcEvent} {t b : Nat} {model : String} {w : SvcSwitch}

/-! ## The claim -/

/-- What a step does to the claim. -/
inductive Claiming (s : Service) (e : SvcEvent) (s' : Service) : Prop
  | kept : s'.claimed = s.claimed → (s.claimed = true → s'.wq.out ⊆ s.wq.out) →
      Claiming s e s'
  | taken : s.claimed = false → s.busy = false → s'.wq = s.wq → Claiming s e s'
  | cleared (t : Nat) : e = .unloadEnd t ∨ e = .unclaim t →
      (s.procs t).claims = true → s'.claimed = false → Claiming s e s'

theorem pump_of_claimed (h : s.claimed = true) : pump s = s := by
  have hno : s.mayPump = false := by simp [mayPump, h]
  unfold pump
  cases s.wq.queue.length with
  | zero => rfl
  | succ n => rw [pumpLoop, hno]; rfl

theorem pump_claimed : (pump s).claimed = s.claimed := by
  obtain ⟨_, _, _, _, h⟩ := pumpLoop_frame s.wq.queue.length s
  rw [pump, h]

theorem quiet_refl : Quiet s s := ⟨rfl, rfl, rfl, rfl, rfl, rfl, rfl, rfl, rfl, rfl⟩

theorem Quiet.claiming (h : Quiet s s') : Claiming s e s' :=
  .kept h.claimed fun _ => by rw [h.wq]; exact List.Subset.refl _

theorem claiming_same (hc : s'.claimed = s.claimed) (hout : s'.wq.out = s.wq.out) :
    Claiming s e s' :=
  .kept hc fun _ => by rw [hout]; exact List.Subset.refl _

theorem claiming_pump (hc : s'.claimed = s.claimed) (hout : s'.wq.out ⊆ s.wq.out) :
    Claiming s e (pump s') := by
  refine .kept (by rw [pump_claimed, hc]) fun h => ?_
  rw [pump_of_claimed (hc.trans h)]
  exact hout

theorem claiming_acquire {s₁ : Service} (hc : s₁.claimed = s.claimed)
    (hout : s₁.wq.out = s.wq.out) (model key : String) :
    Claiming s e (s₁.acquire model key) := by
  have hsub : (s₁.wq.push model key).out ⊆ s.wq.out := by
    rw [show (s₁.wq.push model key).out = s₁.wq.out from rfl, hout]
    exact List.Subset.refl _
  unfold acquire
  split
  · exact claiming_same hc hout
  · split
    · exact claiming_same hc hout
    · split
      · exact claiming_same hc hout
      · exact claiming_pump hc hsub

theorem claiming_endSwitch {err : Option Err} :
    Claiming s e (s.endSwitch w err) := by
  unfold endSwitch
  cases err with
  | none => exact claiming_pump rfl (List.Subset.refl _)
  | some err =>
    refine claiming_pump rfl ?_
    simp only []
    rw [(WaitQueue.failWhile_frame _ err _ s.wq).1]
    exact List.Subset.refl _

theorem claiming_emergencyStop {reason : Err} :
    Claiming s e (s.emergencyStop t reason) := by
  have hout : (s.wq.failAll reason).out = s.wq.out :=
    (WaitQueue.failWhile_frame _ reason _ s.wq).1
  unfold emergencyStop
  cases hcur : s.cur with
  | none => exact claiming_same rfl hout
  | some b => exact claiming_same rfl hout

theorem claiming_unload {now : Bool} :
    Claiming s e (s.unload t model now) := by
  unfold unload
  split
  · exact quiet_refl.claiming
  · split
    · exact quiet_refl.claiming
    · exact claiming_same rfl (WaitQueue.failMatching_frame _ _ s.wq).1

theorem claiming_unloadPoll {late : Bool} :
    Claiming s e (s.unloadPoll t b late) := by
  unfold unloadPoll
  split
  · exact claiming_pump rfl (List.Subset.refl _)
  · split
    · next hidle => exact .taken hidle.2.2 hidle.1 rfl
    · split
      · exact claiming_pump rfl (List.Subset.refl _)
      · exact quiet_refl.claiming

theorem claiming_claimIdle : Claiming s e (s.claimIdle t) := by
  unfold claimIdle
  split
  · exact quiet_refl.claiming
  · next hidle =>
    simp only [not_or, Bool.not_eq_true] at hidle
    exact .taken hidle.2.2.1 hidle.2.1 rfl

theorem Inv.claiming (h : Inv s) (hstep : Service.step s e = some s') : Claiming s e s' := by
  cases does_of_step hstep with
  | acquire => exact claiming_acquire rfl rfl _ _
  | receive hq => exact claiming_same rfl (WaitQueue.receive_frame hq).2
  | cancel hq =>
    refine claiming_pump rfl ?_
    rw [(WaitQueue.cancel_frame hq).2]
    exact List.Subset.refl _
  | giveBack => exact claiming_pump rfl List.erase_subset
  | timeout => exact claiming_pump rfl (List.Subset.refl _)
  | late => exact quiet_refl.claiming
  | release =>
    unfold Service.release
    split
    · exact quiet_refl.claiming
    · exact claiming_pump rfl List.erase_subset
  | endSwitch => exact claiming_endSwitch
  | switch hs he hswitch => exact (switchStep_quiet (by rw [hs]; rfl) he hswitch).claiming
  | crashCur | crash => exact claiming_same rfl rfl
  | emergencyStop => exact claiming_emergencyStop
  | stopLoads => exact claiming_pump rfl (List.Subset.refl _)
  | close => exact claiming_same rfl (WaitQueue.failWhile_frame _ _ _ s.wq).1
  | closed | closeStop => exact claiming_same rfl rfl
  | unload => exact claiming_unload
  | unloadPoll => exact claiming_unloadPoll
  | @unloadEnd t ht =>
    refine .cleared t (Or.inl rfl) (by rw [ht]; rfl) ?_
    rw [Service.unloadEnd, Service.endUnload, pump_claimed]
    rfl
  | claimIdle => exact claiming_claimIdle
  | stopClaimed =>
    unfold Service.stopClaimed
    split
    · exact claiming_same rfl rfl
    · exact quiet_refl.claiming
  | @unclaim t ht =>
    have hclaimed := h.callers.claimed_of (t := t) (by rw [ht]; rfl)
    refine .cleared t (Or.inr rfl) (by rw [ht]; rfl) ?_
    rw [Service.unclaim, if_pos hclaimed, pump_claimed]
    rfl
  | procStop hproc => exact (procStop_quiet hproc).claiming
  | reloadCheck =>
    unfold Service.reloadCheck
    split
    · exact claiming_same rfl rfl
    · exact claiming_same rfl rfl
  | unsettled => exact claiming_same rfl rfl
  | @reloadAcquire t =>
    have hclaimed : (s.setProc t .idle).claimed = s.claimed := rfl
    exact claiming_acquire hclaimed rfl _ _

theorem claimed_idle (h : Machine.Reachable service s) : s.claimed = true → s.wq.out = [] := by
  refine h.invariant_with (J := Inv) (I := fun s => s.claimed = true → s.wq.out = [])
    (fun _ => inv_of_reachable) ?_ ?_
  · rintro s ⟨capacity, rfl⟩ hc
    cases hc
  · intro s e s' hinv _ hidle hstep hc
    cases hinv.claiming hstep with
    | kept hkept hout => exact List.subset_nil.mp (hidle (hkept ▸ hc) ▸ hout (hkept ▸ hc))
    | taken _ hbusy hwq =>
      rw [hwq]
      exact (hinv.serving.idle hbusy).2
    | cleared t _ _ hno => rw [hno] at hc; cases hc

/-- A caller in the middle of stopping backend `b`, after an `Unload`'s drain or
an idle claim. -/
def Stopping (s : Service) (t b : Nat) : Prop :=
  s.procs t = .unloading b ∨ s.procs t = .stopClaimed b

theorem Stopping.claims (h : s.Stopping t b) : (s.procs t).claims = true := by
  obtain h | h := h <;> rw [h] <;> rfl

/-! ## The name of a drain -/

/-- Every request asks for a model by name, and so does a reload. -/
def Names (_ : Service) : SvcEvent → Prop
  | .acquire model _ => model ≠ ""
  | .rollBack _ previous => previous ≠ ""
  | _ => True

/-- The model a reload is to start. -/
def reloads : SvcProc → Option String
  | .reloading model | .reloadIdle model => some model
  | _ => none

/-- The backend a switch has started. -/
def started : SvcSwitchPc → Option Nat
  | .load b | .install b => some b
  | _ => none

/-- Whatever asks for a model, runs one or drains one names it. -/
structure Named (s : Service) : Prop where
  queued : ∀ w ∈ s.wq.queue, (s.wq.waiters w).model ≠ ""
  cur : ∀ b, s.cur = some b → (s.backends b).modelID ≠ ""
  switch : ∀ w, s.switch = some w → w.model ≠ ""
  started : ∀ w, s.switch = some w → ∀ b, started w.pc = some b →
    (s.backends b).modelID ≠ ""
  reloads : ∀ t model, reloads (s.procs t) = some model → model ≠ ""
  drain : s.unloaders ≠ 0 → s.unloading ≠ ""

theorem Named.setQueue (h : Named s) {q : WaitQueue SvcLease} (hq : Thinner s.wq q) :
    Named { s with wq := q } :=
  ⟨fun w hw => by rw [hq.model w]; exact h.queued w (hq.queue hw), h.cur, h.switch, h.started,
    h.reloads, h.drain⟩

theorem Named.dropCur (h : Named s) : Named { s with cur := none } :=
  ⟨h.queued, fun b hb => (by cases hb), h.switch, h.started, h.reloads, h.drain⟩

theorem Named.setBackend (h : Named s) {f : SvcBackend → SvcBackend}
    (hf : (f (s.backends b)).modelID = (s.backends b).modelID) : Named (s.setBackend b f) := by
  have hb : ∀ b', ((s.setBackend b f).backends b').modelID = (s.backends b').modelID := by
    intro b'
    by_cases hbb : b' = b
    · subst hbb
      simp [Service.setBackend, hf]
    · simp [Service.setBackend, Function.update_of_ne hbb]
  refine ⟨h.queued, fun b' hb' => ?_, h.switch, fun w hw b' hb' => ?_, h.reloads, h.drain⟩
  · rw [hb b']
    exact h.cur b' hb'
  · rw [hb b']
    exact h.started w hw b' hb'

theorem Named.setSwitch (h : Named s) (hm : w.model ≠ "")
    (hs : ∀ b, Service.started w.pc = some b → (s.backends b).modelID ≠ "") :
    Named (s.setSwitch w) :=
  ⟨h.queued, h.cur, fun _ hw => Option.some.inj hw ▸ hm, fun _ hw => Option.some.inj hw ▸ hs,
    h.reloads, h.drain⟩

theorem Named.goto (h : Named s) {w' : SvcSwitch} (hw : s.switch = some w)
    (hm : w'.model = w.model) (hpc : Service.started w'.pc = none) : Named (s.setSwitch w') := by
  refine h.setSwitch (by rw [hm]; exact h.switch w hw) fun b hb => ?_
  rw [hpc] at hb
  cases hb

theorem Named.setProc (h : Named s) {p : SvcProc}
    (hp : ∀ model, Service.reloads p = some model → model ≠ "") : Named (s.setProc t p) := by
  refine ⟨h.queued, h.cur, h.switch, h.started, fun t' model hm => ?_, h.drain⟩
  by_cases ht : t' = t
  · subst ht
    exact hp model (by simpa [Service.setProc] using hm)
  · exact h.reloads t' model (by simpa [Service.setProc, Function.update_of_ne ht] using hm)

theorem Named.moved (h : Named s) {p : SvcProc} (hp : Service.reloads p = none) :
    Named (s.setProc t p) :=
  h.setProc fun model hm => by rw [hp] at hm; cases hm

theorem Named.cancelSwitch (h : Named s) (cause : Err) : Named (s.cancelSwitch cause) := by
  refine ⟨h.queued, h.cur, fun w' hw' => ?_, fun w' hw' => ?_, h.reloads, h.drain⟩
  · obtain ⟨w, hw, rfl⟩ := Option.map_eq_some_iff.mp hw'
    exact h.switch w hw
  · obtain ⟨w, hw, rfl⟩ := Option.map_eq_some_iff.mp hw'
    exact h.started w hw

theorem Named.pumpLoop (n : Nat) (h : Named s) : Named (Service.pumpLoop n s) := by
  induction n generalizing s with
  | zero => exact h
  | succ n ih =>
    rw [Service.pumpLoop]
    split
    · split
      · exact h
      · next head rest hq =>
        split
        · exact ⟨(h.setQueue thinner_grant).queued, h.cur, h.switch, h.started, h.reloads,
            h.drain⟩
        · split
          · exact ih (h.setQueue thinner_fail)
          · -- The head's own switch goes by the head's model.
            have hqueue := h.setQueue (thinner_refl.modify (w := head)
              (f := fun r => { r with dispatching := true }) fun _ => rfl)
            refine ⟨hqueue.queued, h.cur, fun w hw => ?_, fun w hw b hb => ?_, h.reloads,
              h.drain⟩
            · cases hw
              exact h.queued head (by rw [hq]; exact List.mem_cons_self)
            · cases hw
              cases hb
    · exact h

theorem Named.pump (h : Named s) : Named (Service.pump s) := h.pumpLoop _

theorem Named.acquire (h : Named s) {key : String} (hmodel : model ≠ "") :
    Named (s.acquire model key) := by
  unfold Service.acquire
  split
  · exact h
  · split
    · exact h
    · split
      · exact h
      · refine Named.pump ⟨fun w hw => ?_, h.cur, h.switch, h.started, h.reloads, h.drain⟩
        by_cases hwa : w = s.wq.arrived
        · subst hwa
          simpa [WaitQueue.push] using hmodel
        · have hold : w ∈ s.wq.queue := by
            rcases List.mem_append.mp hw with hold | hnew
            · exact hold
            · exact absurd (List.mem_singleton.mp hnew) hwa
          simpa [WaitQueue.push, Function.update_of_ne hwa] using h.queued w hold

theorem Named.endUnload (h : Named s) (hpos : s.unloaders ≠ 0) : Named s.endUnload := by
  unfold Service.endUnload
  refine Named.pump ⟨h.queued, h.cur, h.switch, h.started, h.reloads, fun hne => ?_⟩
  simp only []
  rw [if_neg hne]
  exact h.drain hpos

theorem Named.endSwitch (h : Named s) {err : Option Err} :
    Named (s.endSwitch w err) := by
  have hdone : ∀ failed, Named { s with
      busy := false, switching := false, switch := none, failed := failed } :=
    fun failed => ⟨h.queued, h.cur, fun w hw => (by cases hw), fun w hw => (by cases hw),
      h.reloads, h.drain⟩
  unfold Service.endSwitch
  cases err with
  | none => exact (hdone _).pump
  | some err => exact ((hdone _).setQueue thinner_failWhile).pump

theorem Named.unload (h : Named s) {now : Bool} :
    Named (s.unload t model now) := by
  unfold Service.unload
  split
  · exact h
  · next b hb =>
    split
    · exact h
    · obtain ⟨hcur, hmodel⟩ := Option.filter_eq_some_iff.mp hb
      have hname : model ≠ "" := by
        rw [← of_decide_eq_true hmodel]
        exact h.cur b hcur
      have hbase : Named { s with
          unloading := model, unloaders := s.unloaders + 1
          wq := s.wq.failMatching (fun r => r.model == model && !r.done) .unloading } :=
        ⟨(h.setQueue thinner_failMatching).queued, h.cur, h.switch, h.started, h.reloads,
          fun _ => hname⟩
      exact hbase.moved rfl

theorem Named.unloadPoll (h : Named s) (hinv : Inv s) {late : Bool}
    (ht : s.procs t = .draining b) : Named (s.unloadPoll t b late) := by
  have hpos := hinv.callers.unloaders_ne_zero (t := t) (by rw [ht]; rfl)
  have hend : Named ((s.setProc t .idle).endUnload) := (h.moved rfl).endUnload hpos
  unfold Service.unloadPoll
  split
  · exact hend
  · split
    · have hbase : Named { s with cur := none, claimed := true } :=
        ⟨h.queued, fun b hb => (by cases hb), h.switch, h.started, h.reloads, h.drain⟩
      exact hbase.moved rfl
    · split
      · exact hend
      · exact h

theorem Named.reserve (h : Named s) {new : SvcBackend} (hw : s.switch = some w)
    (hnew : new.modelID ≠ "") :
    Named (({ s with reservation := some s.made, made := s.made + 1 }.setBackend s.made
      fun _ => new).setSwitch { w with pc := .load s.made }) := by
  have hb : ∀ b, (s.backends b).modelID ≠ "" →
      (Function.update s.backends s.made new b).modelID ≠ "" := by
    intro b hb
    by_cases hbb : b = s.made
    · subst hbb
      simpa using hnew
    · simpa [Function.update_of_ne hbb] using hb
  refine ⟨h.queued, fun b hcur => hb b (h.cur b hcur), fun w' hw' => ?_, fun w' hw' b hpc => ?_,
    h.reloads, h.drain⟩
  · cases hw'
    exact h.switch w hw
  · cases hw'
    cases hpc
    simpa [Service.setSwitch, Service.setBackend] using hnew

theorem Named.install (h : Named s) (hw : s.switch = some w)
    (hpc : w.pc = .install b) : Named (s.install w b) := by
  unfold Service.install
  split
  · exact h.goto hw rfl rfl
  · split
    · exact (h.setBackend (b := b) (f := ({ · with emergency := true })) rfl).goto hw rfl rfl
    · have hcur : Named { s with cur := some b } :=
        ⟨h.queued, fun b' hb' => Option.some.inj hb' ▸ h.started w hw b (by rw [hpc]; rfl),
          h.switch, h.started, h.reloads, h.drain⟩
      exact (hcur.setBackend (b := b) (f := ({ · with watched := true })) rfl).goto hw rfl rfl

theorem Named.rollBack (h : Named s) {err : Err} {previous : String} (hw : s.switch = some w)
    (hp : previous ≠ "") : Named (s.rollBack w err t previous) := by
  unfold Service.rollBack
  split
  · exact h.goto hw rfl rfl
  · have hproc : Named (s.setProc t (.reloading previous)) :=
      h.setProc fun model hm => Option.some.inj hm ▸ hp
    exact hproc.goto hw rfl rfl

theorem Named.releaseMemory (h : Named s) : Named (s.releaseMemory b) :=
  ⟨h.queued, h.cur, h.switch, h.started, h.reloads, h.drain⟩

theorem Named.switchStep (h : Named s) {e : SvcEvent} (hw : s.switch = some w) (hn : Names s e)
    (he : e ≠ .endSwitch) (hstep : s.switchStep w e = some s') : Named s' := by
  unfold Service.switchStep at hstep
  split at hstep
  · -- prepare
    split at hstep
    · cases hstep; exact h.goto hw rfl rfl
    · cases hstep; exact h.goto hw rfl rfl
    · cases hstep
  · -- take
    split at hstep
    · cases hstep; exact h.goto hw rfl rfl
    · cases hstep; exact h.dropCur.goto hw rfl rfl
    · cases hstep
  · -- switchStop
    split at hstep
    · cases hstep; exact h.releaseMemory.goto hw rfl rfl
    · cases hstep; exact h.releaseMemory.goto hw rfl rfl
    · cases hstep
  · -- settle
    split at hstep
    · cases hstep; exact h.goto hw rfl rfl
    · cases hstep; exact h.goto hw rfl rfl
    · cases hstep
      refine h.goto hw rfl ?_
      simp only []
      split <;> rfl
    · cases hstep
  · -- rollBack
    split at hstep
    · cases hstep; exact h.rollBack hw hn
    · cases hstep
  · -- start
    split at hstep
    · cases hstep; exact h.goto hw rfl rfl
    · cases hstep; exact h.goto hw rfl rfl
    · cases hstep; exact h.goto hw rfl rfl
    · cases hstep
  · -- reserve
    split at hstep
    · cases hstep; exact h.goto hw rfl rfl
    · cases hstep; exact h.goto hw rfl rfl
    · cases hstep; exact h.reserve hw (h.switch w hw)
    · cases hstep
  · -- load
    split at hstep
    · cases hstep; exact h.releaseMemory.goto hw rfl rfl
    · next b hpc =>
      cases hstep
      refine h.setSwitch (h.switch w hw) fun b' hb' => ?_
      cases hb'
      exact h.started w hw b (by rw [hpc]; rfl)
    · cases hstep
  · -- install
    split at hstep
    · next b hpc => cases hstep; exact h.install hw hpc
    · cases hstep
  · -- retry
    split at hstep
    · split at hstep
      · cases hstep; exact h.goto hw rfl rfl
      · cases hstep
    · cases hstep
  · exact absurd rfl he
  · cases hstep

theorem stopping_reloads {p p' : SvcProc} (h : p.stopping = some (b, p')) :
    reloads p' = none := by
  unfold SvcProc.stopping at h
  split at h <;> cases h <;> rfl

theorem Named.step (h : Named s) (hinv : Inv s) {e : SvcEvent} (he : Names s e)
    (hstep : Service.step s e = some s') : Named s' := by
  cases does_of_step hstep with
  | acquire => exact h.acquire he
  | receive hq => exact h.setQueue (thinner_receive hq)
  | cancel hq => exact (h.setQueue (thinner_cancel hq)).pump
  | giveBack =>
    exact Named.pump ⟨(h.setQueue thinner_giveBack).queued, h.cur, h.switch, h.started,
      h.reloads, h.drain⟩
  | timeout => exact (h.setQueue thinner_timeout).pump
  | late => exact h
  | release =>
    unfold Service.release
    split
    · exact h
    · exact Named.pump ⟨(h.setQueue thinner_release).queued, h.cur, h.switch, h.started,
        h.reloads, h.drain⟩
  | endSwitch => exact h.endSwitch
  | switch hw hne hswitch => exact h.switchStep hw he hne hswitch
  | @crashCur b =>
    have hbase : Named (s.setBackend b ({ · with watched := false })) := h.setBackend rfl
    exact hbase.dropCur.releaseMemory
  | crash => exact h.setBackend rfl
  | @emergencyStop t reason =>
    have hbase : Named ({ s with wq := s.wq.failAll reason, cur := none }.cancelSwitch
        reason) := ((h.setQueue thinner_failWhile).dropCur).cancelSwitch reason
    unfold Service.emergencyStop
    simp only []
    split
    · exact hbase
    · exact hbase.moved rfl
  | stopLoads =>
    have hswitch := h.cancelSwitch .unavailable
    exact Named.pump ⟨h.queued, h.cur, hswitch.switch, hswitch.started, h.reloads, h.drain⟩
  | close =>
    have hclosed : Named { s with closed := true, wq := s.wq.failAll .unavailable } :=
      ⟨(h.setQueue thinner_failWhile).queued, h.cur, h.switch, h.started, h.reloads, h.drain⟩
    exact (hclosed.cancelSwitch _).moved rfl
  | closed => exact h.moved rfl
  | closeStop => exact h.dropCur.moved rfl
  | unload => exact h.unload
  | unloadPoll ht => exact h.unloadPoll hinv ht
  | @unloadEnd t ht =>
    have hpos := hinv.callers.unloaders_ne_zero (t := t) (by rw [ht]; rfl)
    have hfree : Named { s with claimed := false } :=
      ⟨h.queued, h.cur, h.switch, h.started, h.reloads, h.drain⟩
    exact (hfree.moved (t := t) (p := .idle) rfl).endUnload hpos
  | claimIdle =>
    unfold Service.claimIdle
    split
    · exact h
    · have hclaimed : Named { s with claimed := true } :=
        ⟨h.queued, h.cur, h.switch, h.started, h.reloads, h.drain⟩
      exact hclaimed.moved rfl
  | stopClaimed =>
    unfold Service.stopClaimed
    split
    · exact h.dropCur.moved rfl
    · exact h
  | @unclaim t =>
    unfold Service.unclaim
    split
    · have hfree : Named { s with claimed := false } :=
        ⟨h.queued, h.cur, h.switch, h.started, h.reloads, h.drain⟩
      exact (hfree.moved (t := t) (p := .idle) rfl).pump
    · exact h.moved rfl
  | @procStop t b p hproc =>
    have hmark : Named (s.markEmergency t b) := by
      unfold markEmergency
      split
      · exact h.setBackend rfl
      · exact h
    exact hmark.releaseMemory.moved (stopping_reloads hproc)
  | @reloadCheck t _ model ht =>
    unfold Service.reloadCheck
    split
    · refine h.setProc fun model' hm => ?_
      cases hm
      exact h.reloads t model (by rw [ht]; rfl)
    · exact h.moved rfl
  | unsettled => exact h.moved rfl
  | @reloadAcquire t _ model ht =>
    exact (h.moved (t := t) (p := .idle) rfl).acquire (h.reloads t model (by rw [ht]; rfl))

theorem named (h : Machine.ReachesUnder service Names s) : Named s := by
  refine h.invariant_with (J := Inv) (I := Named) (fun _ hr => inv_of_reachable hr.reachable)
    ?_ ?_
  · rintro s ⟨capacity, rfl⟩
    exact ⟨fun w hw => (by cases hw), fun b hb => (by cases hb), fun w hw => (by cases hw),
      fun w hw => (by cases hw), fun t model hm => (by cases hm), fun hne => absurd rfl hne⟩
  · exact fun s e s' hinv _ hnamed he hstep => hnamed.step hinv he hstep

/-! ## What a graceful stop is -/

/-- A backend that an `Unload` or an idle claim is stopping serves no lease;
the claim has one taker, and nobody else clears it; and a model is being
unloaded exactly while somebody unloads it. -/
structure Graceful (s : Service) : Prop where
  unused : ∀ t b, s.Stopping t b → ∀ w ∈ s.wq.out, ∀ l, (s.wq.waiters w).lease = some l → l.b ≠ b
  one_claims : ∀ t t', (s.procs t).claims = true → (s.procs t').claims = true → t = t'
  claimed : s.claimed = true ↔ ∃ t, (s.procs t).claims = true
  cleared : ∀ e s', Service.step s e = some s' → s.claimed = true → s'.claimed = false →
    ∃ t, (s.procs t).claims = true ∧ (e = .unloadEnd t ∨ e = .unclaim t)
  drained : s.unloaders = 0 → s.unloading = ""
  named : Machine.ReachesUnder service Names s → (s.unloading = "" ↔ s.unloaders = 0)

theorem graceful (h : Machine.Reachable service s) : Graceful s := by
  have hinv := inv_of_reachable h
  refine ⟨fun t b hstop w hw => ?_, fun t t' ht ht' => ?_, ?_, fun e s' hstep hc hc' => ?_,
    fun hzero => ?_, fun hnames => ?_⟩
  · rw [claimed_idle h (hinv.callers.claimed_of hstop.claims)] at hw
    cases hw
  · exact hinv.callers.claims_unique ht ht'
  · refine ⟨hinv.callers.exists_claims, ?_⟩
    rintro ⟨t, ht⟩
    exact hinv.callers.claimed_of ht
  · cases hinv.claiming hstep with
    | kept hkept _ => rw [hkept, hc] at hc'; cases hc'
    | taken hfree _ _ => rw [hfree] at hc; cases hc
    | cleared t he ht _ => exact ⟨t, ht, he⟩
  · by_contra hne
    exact hinv.callers.named hne hzero
  · refine ⟨fun hempty => ?_, fun hzero => ?_⟩
    · by_contra hne
      exact (named hnames).drain hne hempty
    · by_contra hne
      exact hinv.callers.named hne hzero

end LocalBase.Runtime.Service

namespace LocalBase.Runtime

/-- In every run of the LLM and of a service, with any callers in any order,
their stops are graceful. -/
theorem graceful_stops {m : Llm} {s : Service} (hm : Machine.Reachable llm m)
    (hs : Machine.Reachable service s) : m.Graceful ∧ s.Graceful :=
  ⟨Llm.graceful hm, Service.graceful hs⟩

/-- A model loads, serves, and is unloaded when its request is done. -/
def unloadsLlama : List LlmEvent :=
  [.acquire "llama" "", .prepare none, .read, .check none, .start none, .reserve (.one 4096) none,
    .load none, .install, .endSwitch, .receive 0, .unload 7 "llama" false,
    .unloadPoll 7 false, .release 0, .unloadPoll 7 false]

def unloadsKokoro : List SvcEvent :=
  Service.twoRequests ++ [.unload 7 "kokoro" false, .release 0, .unloadPoll 7 false]

theorem llama_unloads_gracefully :
    (llm.after { capacity := 2 } unloadsLlama).Graceful ∧
      (service.after { capacity := 16 } unloadsKokoro).Graceful ∧
      ((llm.after { capacity := 2 } unloadsLlama).unloading = "" ↔
        (llm.after { capacity := 2 } unloadsLlama).unloaders = 0) ∧
      ((service.after { capacity := 16 } unloadsKokoro).unloading = "" ↔
        (service.after { capacity := 16 } unloadsKokoro).unloaders = 0) := by
  have hllm : Machine.Reachable llm (llm.after { capacity := 2 } unloadsLlama) :=
    Machine.reachable_after ⟨2, rfl⟩ (by decide)
  have hservice : Machine.Reachable service (service.after { capacity := 16 } unloadsKokoro) :=
    Machine.reachable_after ⟨16, rfl⟩ (by decide)
  have hstops := graceful_stops hllm hservice
  refine ⟨hstops.1, hstops.2, hstops.1.named (Machine.reaches_under_after ⟨2, rfl⟩
      (Machine.obeys_of_forall ?_ _) (by decide)),
    hstops.2.named (Machine.reaches_under_after ⟨16, rfl⟩
      (Machine.obeys_of_forall ?_ _) (by decide))⟩
  · simp [unloadsLlama, Llm.Names]
  · simp [unloadsKokoro, Service.twoRequests, Service.Names]

end LocalBase.Runtime
