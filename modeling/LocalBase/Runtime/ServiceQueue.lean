import LocalBase.Runtime.Holders
import LocalBase.Runtime.Service

/-!
# A service's queue

The same two results as for the LLM, in one statement: in every run a service
answers each request at most once, hands out one lease at a time and none while
a switch runs, in arrival order, and whoever waits waits behind a lease, a
switch, a claim or an unload that is really there.

`busy` is one flag for two things, so the invariant says which: it is set
exactly while the switch runs or the one lease is out, and never for both. The
rest goes as for the LLM. `Quiet` is shorter here, for no step of a backend
matters to the queue.
-/

namespace LocalBase.Runtime

/-- Whether a caller is the one `claimed` stands for. -/
def SvcProc.claims : SvcProc → Bool
  | .unloading _ | .unloaded | .claimed | .stopClaimed _ => true
  | _ => false

/-- Whether a caller is one of `unloaders`. -/
def SvcProc.drains : SvcProc → Bool
  | .draining _ | .unloading _ | .unloaded => true
  | _ => false

namespace Service

variable {s s' : Service} {t w : Nat} {q : WaitQueue SvcLease} {p : SvcProc}

/-! ## The invariant -/

structure Serving (s : Service) : Prop where
  requests : s.wq.Sound
  switching : s.switching = s.switch.isSome
  busy : s.busy = true ↔ s.switch.isSome = true ∨ s.wq.out ≠ []
  alone : s.wq.out.length ≤ 1
  drained : s.switch.isSome = true → s.wq.out = []
  closed : s.closed = true → s.wq.queue = []

/-- The callers behind `claimed` and `unloading`. -/
def Callers (s : Service) : Prop :=
  Holders SvcProc.claims SvcProc.drains s.procs s.claimed s.unloaders s.unloading

/-- Something holds the queue back, or it is empty. -/
def Settled (s : Service) : Prop :=
  s.wq.queue ≠ [] → s.busy = true ∨ s.claimed = true ∨ s.unloading ≠ ""

structure Inv (s : Service) : Prop where
  serving : Serving s
  callers : Callers s
  settled : Settled s

/-! ## Steps that touch no request -/

structure Quiet (s s' : Service) : Prop where
  wq : s'.wq = s.wq
  busy : s'.busy = s.busy
  switching : s'.switching = s.switching
  switch : s'.switch.isSome = s.switch.isSome
  closed : s'.closed = s.closed
  claimed : s'.claimed = s.claimed
  unloading : s'.unloading = s.unloading
  unloaders : s'.unloaders = s.unloaders
  claims : SvcProc.claims ∘ s'.procs = SvcProc.claims ∘ s.procs
  drains : SvcProc.drains ∘ s'.procs = SvcProc.drains ∘ s.procs

theorem Quiet.trans {s'' : Service} (h : Quiet s s') (h' : Quiet s' s'') :
    Quiet s s'' :=
  ⟨h'.wq.trans h.wq, h'.busy.trans h.busy, h'.switching.trans h.switching,
    h'.switch.trans h.switch, h'.closed.trans h.closed, h'.claimed.trans h.claimed,
    h'.unloading.trans h.unloading, h'.unloaders.trans h.unloaders,
    h'.claims.trans h.claims, h'.drains.trans h.drains⟩

theorem Inv.quiet (h : Inv s) (hq : Quiet s s') : Inv s' := by
  refine ⟨⟨?_, ?_, ?_, ?_, ?_, ?_⟩, ⟨?_, ?_, ?_⟩, ?_⟩
  · rw [hq.wq]; exact h.serving.requests
  · rw [hq.switching, hq.switch]; exact h.serving.switching
  · rw [hq.busy, hq.switch, hq.wq]; exact h.serving.busy
  · rw [hq.wq]; exact h.serving.alone
  · rw [hq.switch, hq.wq]; exact h.serving.drained
  · rw [hq.closed, hq.wq]; exact h.serving.closed
  · rw [hq.claims, hq.claimed]; exact h.callers.one_claims
  · rw [hq.drains, hq.unloaders]; exact h.callers.all_drain
  · rw [hq.unloading, hq.unloaders]; exact h.callers.named
  · intro hne
    rw [hq.wq] at hne
    rw [hq.busy, hq.claimed, hq.unloading]
    exact h.settled hne

theorem quiet_setSwitch {w : SvcSwitch} (hs : s.switch.isSome) :
    Quiet s (s.setSwitch w) :=
  ⟨rfl, rfl, rfl, hs.symm, rfl, rfl, rfl, rfl, rfl, rfl⟩

theorem quiet_cancelSwitch (cause : Err) : Quiet s (s.cancelSwitch cause) :=
  ⟨rfl, rfl, rfl, Option.isSome_map, rfl, rfl, rfl, rfl, rfl, rfl⟩

theorem quiet_backends {cur reservation : Option Nat} {made : Nat}
    {backends : Nat → SvcBackend} : Quiet s { s with
      cur := cur, reservation := reservation, made := made, backends := backends } :=
  ⟨rfl, rfl, rfl, rfl, rfl, rfl, rfl, rfl, rfl, rfl⟩

theorem quiet_dropCur : Quiet s { s with cur := none } := quiet_backends

theorem quiet_setProc (hc : p.claims = (s.procs t).claims) (hd : p.drains = (s.procs t).drains) :
    Quiet s (s.setProc t p) := by
  refine ⟨rfl, rfl, rfl, rfl, rfl, rfl, rfl, rfl, ?_, ?_⟩
  · rw [setProc, Function.comp_update, hc]
    exact Function.update_eq_self t (SvcProc.claims ∘ s.procs)
  · rw [setProc, Function.comp_update, hd]
    exact Function.update_eq_self t (SvcProc.drains ∘ s.procs)

theorem quiet_fromIdle (ht : s.procs t = .idle) (hc : p.claims = false)
    (hd : p.drains = false) : Quiet s (s.setProc t p) :=
  quiet_setProc (by rw [ht, hc]; rfl) (by rw [ht, hd]; rfl)

theorem install_quiet {w : SvcSwitch} {b : Nat} (hs : s.switch.isSome) :
    Quiet s (s.install w b) := by
  unfold install
  split
  · exact quiet_setSwitch hs
  · split
    · exact (quiet_backends (s := s)).trans (quiet_setSwitch hs)
    · exact (quiet_backends (s := s)).trans (quiet_setSwitch hs)

theorem switchStep_quiet {w : SvcSwitch} {e : SvcEvent} (hs : s.switch.isSome)
    (he : e ≠ .endSwitch) (hstep : s.switchStep w e = some s') : Quiet s s' := by
  unfold switchStep at hstep
  split at hstep
  · -- prepare
    split at hstep <;> first | cases hstep; exact quiet_setSwitch hs | cases hstep
  · -- take
    split at hstep
    · cases hstep; exact quiet_setSwitch hs
    · cases hstep; exact (quiet_backends (s := s)).trans (quiet_setSwitch hs)
    · cases hstep
  · -- switchStop
    split at hstep
    · cases hstep; exact (quiet_backends (s := s)).trans (quiet_setSwitch hs)
    · cases hstep; exact (quiet_backends (s := s)).trans (quiet_setSwitch hs)
    · cases hstep
  · -- settle
    split at hstep <;> first | cases hstep; exact quiet_setSwitch hs | cases hstep
  · -- rollBack
    split at hstep
    · next ht =>
      cases hstep
      unfold rollBack
      split
      · exact quiet_setSwitch hs
      · exact (quiet_fromIdle ht rfl rfl).trans (quiet_setSwitch hs)
    · cases hstep
  · -- start
    split at hstep <;> first | cases hstep; exact quiet_setSwitch hs | cases hstep
  · -- reserve
    split at hstep
    · cases hstep; exact quiet_setSwitch hs
    · cases hstep; exact quiet_setSwitch hs
    · cases hstep; exact (quiet_backends (s := s)).trans (quiet_setSwitch hs)
    · cases hstep
  · -- load
    split at hstep
    · cases hstep; exact (quiet_backends (s := s)).trans (quiet_setSwitch hs)
    · cases hstep; exact quiet_setSwitch hs
    · cases hstep
  · -- install
    split at hstep
    · cases hstep; exact install_quiet hs
    · cases hstep
  · -- retry
    split at hstep
    · split at hstep
      · cases hstep; exact quiet_setSwitch hs
      · cases hstep
    · cases hstep
  · exact absurd rfl he
  · cases hstep

theorem stopping_keeps {p' : SvcProc} {b : Nat} (h : p.stopping = some (b, p')) :
    p'.claims = p.claims ∧ p'.drains = p.drains := by
  unfold SvcProc.stopping at h
  split at h <;> cases h <;> exact ⟨rfl, rfl⟩

theorem procStop_quiet {b : Nat} (hproc : (s.procs t).stopping = some (b, p)) :
    Quiet s (((s.markEmergency t b).releaseMemory b).setProc t p) := by
  have hmark : Quiet s (s.markEmergency t b) ∧
      (s.markEmergency t b).procs = s.procs := by
    unfold markEmergency
    split
    · exact ⟨quiet_backends, rfl⟩
    · exact ⟨quiet_backends, rfl⟩
  obtain ⟨hc, hd⟩ := stopping_keeps hproc
  refine (hmark.1.trans (quiet_backends (s := s.markEmergency t b))).trans
    (quiet_setProc ?_ ?_)
  · show p.claims = ((s.markEmergency t b).procs t).claims
    rw [hmark.2, hc]
  · show p.drains = ((s.markEmergency t b).procs t).drains
    rw [hmark.2, hd]

/-! ## The pump -/

theorem pumpLoop_frame (n : Nat) (s : Service) :
    ∃ busy wq switching switch, pumpLoop n s = { s with
      busy := busy, wq := wq, switching := switching, switch := switch } := by
  induction n generalizing s with
  | zero => exact ⟨_, _, _, _, rfl⟩
  | succ n ih =>
    rw [pumpLoop]
    split
    · split
      · exact ⟨_, _, _, _, rfl⟩
      · next head rest hq =>
        split
        · exact ⟨_, _, _, _, rfl⟩
        · split
          · exact ih _
          · exact ⟨_, _, _, _, rfl⟩
    · exact ⟨_, _, _, _, rfl⟩

theorem callers_pump (h : Callers s) : Callers (pump s) := by
  obtain ⟨_, _, _, _, hframe⟩ := pumpLoop_frame s.wq.queue.length s
  rw [pump, hframe]
  exact h

theorem Serving.setQueue (h : Serving s) (hq : q.Sound) (hout : q.out = s.wq.out)
    (hclosed : s.closed = true → q.queue = []) :
    Serving { s with wq := q } := by
  refine ⟨hq, h.switching, ?_, ?_, ?_, hclosed⟩
  · rw [hout]; exact h.busy
  · rw [hout]; exact h.alone
  · rw [hout]; exact h.drained

theorem Serving.idle (h : Serving s) (hb : s.busy = false) :
    s.switch = none ∧ s.wq.out = [] := by
  have hno : ¬ (s.switch.isSome = true ∨ s.wq.out ≠ []) := by
    rw [← h.busy, hb]
    simp
  simpa using hno

theorem Serving.grant (h : Serving s) {b : Nat} {rest : List Nat} (hq : s.wq.queue = w :: rest)
    (hb : s.busy = false) (hc : s.closed = false) :
    Serving (s.grant w b) := by
  obtain ⟨hsw, hout⟩ := h.idle hb
  have hout' : (s.grant w b).wq.out = [w] := by
    show s.wq.out ++ [w] = [w]
    rw [hout]
    rfl
  refine ⟨h.requests.grant hq _, h.switching, ?_, ?_, ?_, ?_⟩
  · rw [hout']
    exact iff_of_true rfl (Or.inr (by simp))
  · rw [hout']
    exact Nat.le_refl 1
  · intro hs
    rw [show (s.grant w b).switch = s.switch from rfl, hsw] at hs
    cases hs
  · intro hc'
    rw [show (s.grant w b).closed = s.closed from rfl, hc] at hc'
    cases hc'

theorem Serving.fail (h : Serving s) (hw : w ∈ s.wq.queue) (e : Err) :
    Serving (s.fail w e) := by
  refine h.setQueue (h.requests.fail hw e) rfl ?_
  intro hc
  rw [h.closed hc] at hw
  cases hw

theorem Serving.startSwitch (h : Serving s) (hb : s.busy = false) :
    Serving (s.startSwitch w) := by
  obtain ⟨_, hout⟩ := h.idle hb
  exact ⟨h.requests.dispatch, rfl, iff_of_true rfl (Or.inl rfl), h.alone,
    fun _ => hout, h.closed⟩

theorem pumpLoop_serving (n : Nat) (h : Serving s) :
    Serving (pumpLoop n s) ∧
      (s.wq.queue.length ≤ n → Settled (pumpLoop n s)) := by
  induction n generalizing s with
  | zero =>
    refine ⟨h, fun hn hne => absurd ?_ hne⟩
    exact List.eq_nil_of_length_eq_zero (Nat.le_zero.mp hn)
  | succ n ih =>
    rw [pumpLoop]
    split
    · next hm =>
      simp only [mayPump, Bool.and_eq_true, Bool.not_eq_true'] at hm
      split
      · next hq => exact ⟨h, fun _ hne => absurd hq hne⟩
      · next head rest hq =>
        have hmem : head ∈ s.wq.queue := by
          rw [hq]; exact List.mem_cons_self
        split
        · exact ⟨h.grant hq hm.1.1.1 hm.1.2, fun _ _ => Or.inl rfl⟩
        · split
          · have hf := h.fail hmem .unavailable
            refine ⟨(ih hf).1, fun hn => (ih hf).2 ?_⟩
            show (s.wq.queue.erase head).length ≤ n
            rw [List.length_erase_of_mem hmem]
            omega
          · exact ⟨h.startSwitch hm.1.1.1, fun _ _ => Or.inl rfl⟩
    · next hm =>
      refine ⟨h, fun _ hne => ?_⟩
      have hopen : s.closed = false := by
        cases hc : s.closed with
        | false => rfl
        | true => exact absurd (h.closed hc) hne
      cases hb : s.busy with
      | true => exact Or.inl rfl
      | false =>
        cases hcl : s.claimed with
        | true => exact Or.inr (Or.inl rfl)
        | false =>
          refine Or.inr (Or.inr ?_)
          simpa [mayPump, hb, hcl, hopen] using hm

theorem inv_pump (hs : Serving s) (hc : Callers s) : Inv (pump s) :=
  ⟨(pumpLoop_serving _ hs).1, callers_pump hc,
    (pumpLoop_serving _ hs).2 (Nat.le_refl _)⟩

/-! ## The steps -/

theorem Serving.congr (h : Serving s) (hq : s'.wq = s.wq) (hb : s'.busy = s.busy)
    (hst : s'.switching = s.switching) (hsw : s'.switch.isSome = s.switch.isSome)
    (hcl : s'.closed = s.closed) : Serving s' := by
  refine ⟨?_, ?_, ?_, ?_, ?_, ?_⟩
  · rw [hq]; exact h.requests
  · rw [hst, hsw]; exact h.switching
  · rw [hb, hsw, hq]; exact h.busy
  · rw [hq]; exact h.alone
  · rw [hsw, hq]; exact h.drained
  · rw [hcl, hq]; exact h.closed

theorem Inv.acquire (h : Inv s) (model key : String) :
    Inv (s.acquire model key) := by
  unfold Service.acquire
  split
  · exact h
  · next hopen =>
    split
    · exact h
    · split
      · exact h
      · exact inv_pump (h.serving.setQueue (h.serving.requests.push model key) rfl
          fun hc => absurd hc hopen) h.callers

theorem Serving.returned (h : Serving s) (hw : w ∈ s.wq.out) (hq : q.Sound)
    (hout : q.out = s.wq.out.erase w) (hqueue : q.queue = s.wq.queue) :
    Serving { s with wq := q, busy := false } := by
  have hnone : q.out = [] := by
    have hlen := List.length_erase_of_mem hw
    have hone := h.alone
    rw [hout]
    exact List.eq_nil_of_length_eq_zero (by omega)
  have hsw : s.switch.isSome = false := by
    cases hs : s.switch.isSome with
    | false => rfl
    | true =>
      rw [h.drained hs] at hw
      cases hw
  refine ⟨hq, h.switching, iff_of_false (by simp) ?_, ?_, fun _ => hnone, ?_⟩
  · show ¬ (s.switch.isSome = true ∨ q.out ≠ [])
    simp [hsw, hnone]
  · show q.out.length ≤ 1
    rw [hnone]
    exact Nat.zero_le _
  · intro hc
    show q.queue = []
    rw [hqueue]
    exact h.closed hc

theorem Inv.release (h : Inv s)
    (hcall : (s.wq.waiters w).call = .leased) : Inv (s.release w) := by
  unfold Service.release
  split
  · exact h
  · next hrel =>
    have hr := h.serving.requests
    have hout : w ∈ s.wq.out := (hr.outstanding w).mpr
      ⟨(hr.requests w).leased (Or.inl hcall), by simpa using hrel⟩
    exact inv_pump (h.serving.returned hout (hr.release hcall) rfl rfl) h.callers

theorem Inv.giveBack (h : Inv s) (hcall : (s.wq.waiters w).call = .givingBack) :
    Inv (pump { s with wq := s.wq.giveBack w, busy := false }) :=
  inv_pump (h.serving.returned (h.serving.requests.out_of_givingBack hcall)
    (h.serving.requests.giveBack hcall) rfl rfl) h.callers

theorem Inv.receive (h : Inv s) (hq : s.wq.receive w = some q) : Inv { s with wq := q } := by
  obtain ⟨hqueue, hout⟩ := WaitQueue.receive_frame hq
  refine ⟨h.serving.setQueue (h.serving.requests.receive hq) hout ?_, h.callers, ?_⟩
  · rw [hqueue]
    exact h.serving.closed
  · intro hne
    exact h.settled (hqueue ▸ hne)

theorem Inv.cancel (h : Inv s) (hq : s.wq.cancel w = some q) : Inv (pump { s with wq := q }) := by
  obtain ⟨hqueue, hout⟩ := WaitQueue.cancel_frame hq
  refine inv_pump (h.serving.setQueue (h.serving.requests.cancel hq) hout ?_)
    h.callers
  intro hc
  rw [hqueue, h.serving.closed hc]
  rfl

theorem Inv.timeout (h : Inv s) (hcall : (s.wq.waiters w).call = .waiting)
    (ht : s.wq.timesOut w = true) :
    Inv (pump { s with wq := s.wq.timeout w }) := by
  refine inv_pump (h.serving.setQueue (h.serving.requests.timeout hcall ht) rfl ?_)
    h.callers
  intro hc
  show s.wq.queue.erase w = []
  rw [h.serving.closed hc]
  rfl

theorem Inv.endSwitch (h : Inv s) {w : SvcSwitch} {err : Option Err}
    (hs : s.switch.isSome = true) : Inv (s.endSwitch w err) := by
  have hnone := h.serving.drained hs
  have hdone : Serving { s with
      busy := false, switching := false, switch := none
      failed := err.isSome && s.cur.isNone && w.cancelled.isNone } :=
    ⟨h.serving.requests, rfl, iff_of_false (by simp) (by simp [hnone]),
      h.serving.alone, fun hs => Bool.noConfusion hs, h.serving.closed⟩
  unfold Service.endSwitch
  cases err with
  | none => exact inv_pump hdone h.callers
  | some e =>
    obtain ⟨hout, hsub⟩ := WaitQueue.failWhile_frame
      (fun r => r.model == w.model && r.key == w.key) e s.wq.queue.length s.wq
    refine inv_pump (hdone.setQueue (h.serving.requests.failWhile _ e _) hout ?_)
      h.callers
    intro hc
    rw [h.serving.closed hc] at hsub ⊢
    exact List.sublist_nil.mp hsub

theorem Inv.failAll (h : Inv s) (err : Err) :
    Inv { s with wq := s.wq.failAll err } := by
  have hq := WaitQueue.failAll_queue s.wq err
  exact ⟨h.serving.setQueue (h.serving.requests.failWhile _ err _)
    (WaitQueue.failWhile_frame _ err _ s.wq).1 fun _ => hq, h.callers,
    fun hne => absurd hq hne⟩

theorem Inv.emergencyStop (h : Inv s) {reason : Err}
    (ht : s.procs t = .idle) : Inv (s.emergencyStop t reason) := by
  have hbase := ((h.failAll reason).quiet quiet_dropCur).quiet
      (quiet_cancelSwitch reason)
  unfold Service.emergencyStop
  simp only []
  split
  · exact hbase
  · exact hbase.quiet (quiet_fromIdle ht rfl rfl)

theorem Inv.stopLoads (h : Inv s) : Inv s.stopLoads := by
  have hbase := h.quiet (quiet_cancelSwitch .unavailable)
  exact inv_pump (s := { s with stopping := true }.cancelSwitch .unavailable)
    (hbase.serving.congr rfl rfl rfl rfl rfl) hbase.callers

theorem Inv.close (h : Inv s) (ht : s.procs t = .idle) :
    Inv (s.close t) := by
  have hbase := h.failAll .unavailable
  have hq := WaitQueue.failAll_queue s.wq .unavailable
  have hclosed : Inv { s with closed := true, wq := s.wq.failAll .unavailable } :=
    ⟨⟨hbase.serving.requests, hbase.serving.switching, hbase.serving.busy,
      hbase.serving.alone, hbase.serving.drained, fun _ => hq⟩,
      hbase.callers, fun hne => absurd hq hne⟩
  exact (hclosed.quiet (quiet_cancelSwitch _)).quiet (quiet_fromIdle ht rfl rfl)

theorem Inv.unload (h : Inv s) {model : String} {now : Bool}
    (ht : s.procs t = .idle) : Inv (s.unload t model now) := by
  unfold Service.unload
  split
  · exact h
  · next b hb =>
    split
    · exact h
    · next hfree =>
      obtain ⟨hout, hsub⟩ := WaitQueue.failMatching_frame
        (fun r => r.model == model && !r.done) .unloading s.wq
      have hs := h.serving.setQueue (h.serving.requests.failMatching
        (fun r => r.model == model && !r.done) .unloading) hout fun hc => by
          rw [h.serving.closed hc] at hsub
          exact List.sublist_nil.mp hsub
      simp only [Bool.or_eq_true, Bool.and_eq_true, bne_iff_ne, not_or,
        not_and_or, ne_eq, not_not] at hfree
      refine ⟨hs.congr rfl rfl rfl rfl rfl, ?_, ?_⟩
      · refine h.callers.drain (t := t) (p := .draining b) model ?_ ?_ rfl
        all_goals rw [ht]; rfl
      · -- Only the name under which the queue is held may be new.
        intro hne
        have hne' : s.wq.queue ≠ [] := fun h0 =>
          hne (List.sublist_nil.mp (h0 ▸ hsub))
        show s.busy = true ∨ s.claimed = true ∨ model ≠ ""
        rcases h.settled hne' with hb' | hcl | hun
        · exact Or.inl hb'
        · exact Or.inr (Or.inl hcl)
        · rcases hfree.1.2 with h0 | h0
          · exact absurd h0 hun
          · exact Or.inr (Or.inr (h0 ▸ hun))

theorem Inv.endUnload (h : Inv s) {c : Bool} (hdrains : (s.procs t).drains = true)
    (hclaimed : (c.toNat : Int) = s.claimed.toNat - (s.procs t).claims.toNat) :
    Inv (({ s with claimed := c }.setProc t .idle).endUnload) :=
  inv_pump (h.serving.congr rfl rfl rfl rfl rfl)
    (h.callers.undrain hclaimed hdrains rfl rfl)

theorem Inv.unloadPoll (h : Inv s) {b : Nat} {late : Bool}
    (ht : s.procs t = .draining b) : Inv (s.unloadPoll t b late) := by
  have hend : Inv ((s.setProc t .idle).endUnload) :=
    h.endUnload (t := t) (c := s.claimed) (by rw [ht]; rfl)
      (by rw [ht]; show _ = _ - ((0 : Nat) : Int); omega)
  unfold Service.unloadPoll
  split
  · exact hend
  · split
    · next hidle =>
      refine ⟨h.serving.congr rfl rfl rfl rfl rfl, ?_, fun _ => Or.inr (Or.inl rfl)⟩
      refine h.callers.claim (t := t) (p := .unloading b) hidle.2.2 ?_ rfl ?_
      all_goals rw [ht]; rfl
    · split
      · exact hend
      · exact h

theorem Inv.unloadEnd (h : Inv s) (ht : s.procs t = .unloaded) :
    Inv (s.unloadEnd t) := by
  have hclaimed := h.callers.claimed_of (t := t) (by rw [ht]; rfl)
  exact h.endUnload (t := t) (c := false) (by rw [ht]; rfl)
    (by rw [ht, hclaimed]; rfl)

theorem Inv.claimIdle (h : Inv s) (ht : s.procs t = .idle) :
    Inv (s.claimIdle t) := by
  unfold Service.claimIdle
  split
  · exact h
  · next hidle =>
    simp only [not_or, Bool.not_eq_true] at hidle
    refine ⟨h.serving.congr rfl rfl rfl rfl rfl, ?_, fun _ => Or.inr (Or.inl rfl)⟩
    refine h.callers.claim (t := t) (p := .claimed) hidle.2.2.1 ?_ rfl ?_
    all_goals rw [ht]; rfl

theorem Inv.unclaim (h : Inv s) (ht : s.procs t = .claimed) :
    Inv (s.unclaim t) := by
  have hclaimed := h.callers.claimed_of (t := t) (by rw [ht]; rfl)
  unfold Service.unclaim
  rw [if_pos hclaimed]
  refine inv_pump (h.serving.congr rfl rfl rfl rfl rfl) ?_
  refine h.callers.unclaim (t := t) (p := .idle) ?_ rfl ?_
  all_goals rw [ht]; rfl

theorem Inv.step (h : Inv s) {e : SvcEvent} (hstep : step s e = some s') :
    Inv s' := by
  cases does_of_step hstep with
  | acquire => exact h.acquire _ _
  | receive hq => exact h.receive hq
  | cancel hq => exact h.cancel hq
  | giveBack hcall => exact h.giveBack hcall
  | timeout hcall ht => exact h.timeout hcall ht
  | late => exact h
  | release hcall => exact h.release hcall
  | endSwitch hs => exact h.endSwitch (by rw [hs]; rfl)
  | switch hs he hswitch => exact h.quiet (switchStep_quiet (by rw [hs]; rfl) he hswitch)
  | crashCur | crash => exact h.quiet quiet_backends
  | emergencyStop ht => exact h.emergencyStop ht
  | stopLoads => exact h.stopLoads
  | close ht => exact h.close ht
  | closed ht => exact h.quiet (quiet_setProc (by rw [ht]; rfl) (by rw [ht]; rfl))
  | closeStop ht =>
    exact (h.quiet quiet_dropCur).quiet
      (quiet_setProc (by rw [show _ = _ from ht]; rfl) (by rw [show _ = _ from ht]; rfl))
  | unload ht => exact h.unload ht
  | unloadPoll ht => exact h.unloadPoll ht
  | unloadEnd ht => exact h.unloadEnd ht
  | claimIdle ht => exact h.claimIdle ht
  | stopClaimed ht =>
    unfold Service.stopClaimed
    split
    · exact (h.quiet quiet_dropCur).quiet
        (quiet_setProc (by rw [show _ = _ from ht]; rfl) (by rw [show _ = _ from ht]; rfl))
    · exact h
  | unclaim ht => exact h.unclaim ht
  | procStop hproc => exact h.quiet (procStop_quiet hproc)
  | reloadCheck ht =>
    unfold Service.reloadCheck
    split
    · exact h.quiet (quiet_setProc (by rw [ht]; rfl) (by rw [ht]; rfl))
    · exact h.quiet (quiet_setProc (by rw [ht]; rfl) (by rw [ht]; rfl))
  | unsettled ht => exact h.quiet (quiet_setProc (by rw [ht]; rfl) (by rw [ht]; rfl))
  | reloadAcquire ht =>
    exact (h.quiet (quiet_setProc (by rw [ht]; rfl) (by rw [ht]; rfl))).acquire _ _

theorem inv_init {capacity : Nat} : Inv { capacity := capacity } where
  serving := ⟨WaitQueue.sound_empty, rfl, iff_of_false (by simp) (by simp),
    Nat.zero_le 1, fun hs => Bool.noConfusion hs, fun hc => Bool.noConfusion hc⟩
  callers := holders_none (fun _ => rfl) fun _ => rfl
  settled := fun hne => absurd rfl hne

theorem inv_of_reachable (h : Machine.Reachable service s) : Inv s := by
  refine h.invariant ?_ fun s e t hs he => hs.step he
  rintro s ⟨capacity, rfl⟩
  exact inv_init

/-! ## The service's promises -/

/-- Whoever will pump the queue when they are done: the switch or the lease
that `busy` stands for, the claimer, or an `Unload`. -/
inductive Blocker (s : Service) : Prop
  | switch (w : SvcSwitch) : s.busy = true → s.switch = some w → Blocker s
  | lease (w : Nat) : s.busy = true → w ∈ s.wq.out →
      ((s.wq.waiters w).call = .waiting ∧ (s.wq.waiters w).ready = some none ∨
        (s.wq.waiters w).call = .leased ∨
        (s.wq.waiters w).call = .givingBack) → Blocker s
  | claim (t : Nat) : s.claimed = true → (s.procs t).claims = true → Blocker s
  | unload (t : Nat) : s.unloading ≠ "" → (s.procs t).drains = true → Blocker s

theorem Inv.blocker (h : Inv s) (hq : s.wq.queue ≠ []) : Blocker s := by
  rcases h.settled hq with hb | hcl | hun
  · rcases h.serving.busy.mp hb with hsw | hout
    · obtain ⟨w, hw⟩ := Option.isSome_iff_exists.mp hsw
      exact .switch w hb hw
    · obtain ⟨w, hw⟩ := List.exists_mem_of_ne_nil _ hout
      exact .lease w hb hw (h.serving.requests.call_of_out hw)
  · obtain ⟨t, ht⟩ := h.callers.exists_claims hcl
    exact .claim t hcl ht
  · obtain ⟨t, ht⟩ := h.callers.exists_drains hun
    exact .unload t hun ht

/-- In every run of a service: each request is answered at most once, and a
lease goes to its caller or, its request cancelled meanwhile, is given back;
requests are granted in arrival order; one lease is out at most, and none while
a switch runs; and while a request waits and the service is open, it waits
behind somebody who pumps. -/
theorem one_lease_in_order (h : Machine.Reachable service s) :
    (∀ w, s.wq.Served w) ∧
      (s.wq.grants ++ s.wq.queue).Pairwise (· < ·) ∧
      s.wq.out.length ≤ 1 ∧
      (s.switch.isSome = true → s.wq.out = []) ∧
      (s.closed = false → s.wq.queue ≠ [] → Blocker s) := by
  have hinv := inv_of_reachable h
  exact ⟨hinv.serving.requests.served, hinv.serving.requests.ordered,
    hinv.serving.alone, hinv.serving.drained, fun _ hq => hinv.blocker hq⟩

/-- A voice loads and serves one request while a second waits. -/
def twoRequests : List SvcEvent :=
  [.acquire "kokoro" "", .prepare none, .take, .start none, .reserve none,
    .load none, .install, .endSwitch, .receive 0, .acquire "kokoro" ""]

theorem second_request_waits :
    (∀ w, (service.after { capacity := 16 } twoRequests).wq.Served w) ∧
      ((service.after { capacity := 16 } twoRequests).wq.grants ++
        (service.after { capacity := 16 } twoRequests).wq.queue).Pairwise (· < ·) ∧
      (service.after { capacity := 16 } twoRequests).wq.out.length ≤ 1 ∧
      ((service.after { capacity := 16 } twoRequests).switch.isSome = true →
        (service.after { capacity := 16 } twoRequests).wq.out = []) ∧
      ((service.after { capacity := 16 } twoRequests).closed = false →
        (service.after { capacity := 16 } twoRequests).wq.queue ≠ [] →
          Blocker (service.after { capacity := 16 } twoRequests)) :=
  one_lease_in_order (Machine.reachable_after ⟨16, rfl⟩ (by decide))

end Service

end LocalBase.Runtime
