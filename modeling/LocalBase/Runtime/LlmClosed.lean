import LocalBase.Runtime.LlmServed

/-!
# After Close

`Close` ends the queue and the switch in flight, waits for its goroutine, and then
stops whatever is current. By then nothing can start another: the pump does nothing on
a closed manager, and a switch that comes to install its backend stops it instead. So
once a `Close` has returned, nothing is queued, loading or current, and whatever calls
follow, nothing ever is again.
-/

namespace LocalBase.Runtime.Llm

variable {m m' : Llm} {e : LlmEvent} {t b : Nat} {s : Switch}

/-! ## A closed manager -/

/-- What a step leaves alone on a closed manager. -/
structure Later (m m' : Llm) : Prop where
  closed : m.closed = true → m'.closed = true
  switch : m.closed = true → m.switch = none → m'.switch = none
  cur : m.closed = true → m.switch = none → ∀ b, m'.cur = some b → m.cur = some b
  calm : m.closed = true → Calmer m.wq m'.wq

theorem pump_of_closed (h : m.closed = true) : pump m = m := by
  have hno : m.mayPump = false := by simp [mayPump, h]
  unfold pump
  cases m.wq.queue.length with
  | zero => rfl
  | succ n => rw [pumpLoop, hno]; rfl

theorem Later.trans {m'' : Llm} (h : Later m m') (h' : Later m' m'') : Later m m'' :=
  ⟨fun hc => h'.closed (h.closed hc),
    fun hc hs => h'.switch (h.closed hc) (h.switch hc hs),
    fun hc hs b hb => h.cur hc hs b (h'.cur (h.closed hc) (h.switch hc hs) b hb),
    fun hc => (h.calm hc).trans (h'.calm (h.closed hc))⟩

theorem later_refl : Later m m :=
  ⟨fun hc => hc, fun _ hs => hs, fun _ _ _ hb => hb, fun _ => calmer_refl⟩

theorem later_pump : Later m (pump m) := by
  refine ⟨fun hc => ?_, fun hc hs => ?_, fun hc _ b hb => ?_, fun hc => ?_⟩
  · rw [pump_of_closed hc]; exact hc
  · rw [pump_of_closed hc]; exact hs
  · rw [pump_of_closed hc] at hb; exact hb
  · rw [pump_of_closed hc]; exact calmer_refl

theorem Later.pump (h : Later m m') : Later m (pump m') := h.trans later_pump

theorem later_flags (hc : m'.closed = m.closed ∨ m'.closed = true)
    (hs : m.switch = none → m'.switch = none)
    (hcur : ∀ b, m'.cur = some b → m.cur = some b) (hq : Calmer m.wq m'.wq) : Later m m' := by
  refine ⟨fun h => ?_, fun _ => hs, fun _ _ => hcur, fun _ => hq⟩
  rcases hc with hc | hc
  · rw [hc]; exact h
  · exact hc

theorem later_stopStep {st : Stop} {next : Option Stop}
    (h : m.stopStep b st = some (m', next)) : Later m m' := by
  have hquiet := stopStep_quiet h
  refine later_flags (Or.inl hquiet.closed) (fun hs => ?_) (fun b' hb' => ?_) ?_
  · rw [(stopStep_procs h).2, hs]
  · rcases (onward_stopStep h).cur b' hb' with hc | -
    · exact hc
    · cases st with
      | clear =>
        cases h
        simp only [] at hb'
        split at hb'
        · cases hb'
        · exact hb'
      | once =>
        simp only [stopStep] at h
        split at h <;> cases h <;> exact hb'
      | running => cases h; exact hb'
  · rw [hquiet.wq]
    exact calmer_refl

theorem later_switching (hs : m.switch = some s) (hq : Quiet m m') : Later m m' := by
  refine ⟨fun hc => hq.closed.trans hc, fun _ hnone => ?_, fun _ hnone => ?_, fun _ => ?_⟩
  · rw [hs] at hnone; cases hnone
  · rw [hs] at hnone; cases hnone
  · rw [hq.wq]; exact calmer_refl

theorem later_watchStep (he : ∀ b', e ≠ .crashPump b')
    (hstep : m.watchStep b e = some m') : Later m m' := by
  have hq := watchStep_quiet he hstep
  refine later_flags (Or.inl hq.closed) (fun hs => ?_) (fun b' hb' => ?_) ?_
  · have hsome := hq.switch
    rw [hs] at hsome
    exact Option.not_isSome_iff_eq_none.mp (by rw [hsome]; simp)
  · rcases hq.cur b' hb' with hout | ⟨hc, -⟩
    · unfold Llm.watchStep at hstep
      split at hstep
      · split at hstep
        · split at hstep <;> cases hstep
          · cases hb'
          · exact hb'
        · cases hstep
      · split at hstep <;> cases hstep <;> exact hb'
      · split at hstep <;> cases hstep
        exact hb'
      · next b'' => exact absurd rfl (he b'')
      · cases hstep
    · exact hc
  · rw [hq.wq]
    exact calmer_refl

theorem later_endUnload : Later m m.endUnload := by
  refine Later.pump ?_
  exact later_flags (Or.inl rfl) (fun hs => hs) (fun _ hb => hb) calmer_refl

theorem later_setProc {p : Proc} : Later m (m.setProc t p) :=
  later_flags (Or.inl rfl) (fun hs => hs) (fun _ hb => hb) calmer_refl

theorem later_close : Later m (m.close t) := by
  refine later_flags (Or.inr rfl) (fun hs => ?_) (fun _ hb => hb) calmer_failWhile
  show Option.map _ m.switch = none
  rw [hs]
  rfl

theorem later_emergencyStop {reason : Err} : Later m (m.emergencyStop t reason) := by
  have hswitch : m.switch = none → m.switch.map (fun s : Switch =>
      { s with cancelled := some (s.cancelled.getD reason) }) = none := by
    intro hs
    rw [hs]
    rfl
  unfold emergencyStop
  simp only []
  split
  · exact later_flags (Or.inl rfl) hswitch (fun _ hb => hb) calmer_failWhile
  · exact later_flags (Or.inl rfl) hswitch (fun _ hb => hb) calmer_failWhile

theorem later_unload {model : String} {now : Bool} : Later m (m.unload t model now) := by
  unfold unload
  split
  · exact later_refl
  · split
    · exact later_refl
    · split
      · exact later_refl
      · exact later_flags (Or.inl rfl) (fun hs => hs) (fun _ hb => hb) calmer_failMatching

theorem later_unloadPoll {late : Bool} : Later m (m.unloadPoll t b late) := by
  have hend : Later m (m.setProc t .idle).endUnload := later_setProc.trans later_endUnload
  unfold unloadPoll
  split
  · exact hend
  · split
    · exact later_flags (Or.inl rfl) (fun hs => hs) (fun _ hb => hb) calmer_refl
    · split
      · exact hend
      · exact later_refl

theorem later_acquire {model key : String} : Later m (m.acquire model key) := by
  by_cases hc : m.closed = true
  · rw [acquire, if_pos hc]
    exact later_refl
  · exact ⟨fun h => absurd h hc, fun h => absurd h hc, fun h => absurd h hc, fun h => absurd h hc⟩

theorem later_endSwitch {err : Option Err} : Later m (m.endSwitch s err) := by
  unfold endSwitch
  cases err with
  | none =>
    refine Later.pump (later_flags (Or.inl ?_) (fun _ => ?_) ?_ calmer_refl)
    · rfl
    · rfl
    · exact fun _ hb => hb
  | some err =>
    refine Later.pump (later_flags (Or.inl ?_) (fun _ => ?_) ?_ calmer_failWhile)
    · rfl
    · rfl
    · exact fun _ hb => hb

theorem later_step (hinv : Inv m) (hstep : Llm.step m e = some m') : Later m m' := by
  have hqueue : ∀ {q : WaitQueue Lease} (active : Int), Calmer m.wq q →
      Later m (pump { m with wq := q, active := active }) := fun _ hq =>
    Later.pump (later_flags (Or.inl rfl) (fun hs => hs) (fun _ hb => hb) hq)
  cases does_of_step hstep with
  | acquire => exact later_acquire
  | receive hq =>
    exact later_flags (Or.inl rfl) (fun hs => hs) (fun _ hb => hb) (calmer_receive hq)
  | cancel hq => exact hqueue m.active (calmer_cancel hq)
  | giveBack => exact hqueue _ calmer_giveBack
  | timeout => exact hqueue m.active calmer_timeout
  | late | stopNothing => exact later_refl
  | release =>
    unfold Llm.release
    split
    · exact later_refl
    · exact hqueue _ calmer_release
  | endSwitch => exact later_endSwitch
  | switch hs he hswitch => exact later_switching hs (hinv.serving.switchStep_quiet hs he hswitch)
  | watch he hwatch => exact later_watchStep he hwatch
  | @crashPump b =>
    have hoff : Later m (m.setBackend b ({ · with watch := .off })) :=
      later_flags (Or.inl rfl) (fun hs => hs) (fun _ hb => hb) calmer_refl
    exact hoff.pump
  | emergencyStop => exact later_emergencyStop
  | stopLoads =>
    refine Later.pump (later_flags (Or.inl rfl) (fun hs => ?_) (fun _ hb => hb) calmer_refl)
    show Option.map _ m.switch = none
    rw [hs]
    rfl
  | close => exact later_close
  | closed | closeStop | stopClaimed => exact later_setProc
  | unload => exact later_unload
  | unloadPoll => exact later_unloadPoll
  | unloadEnd =>
    refine Later.trans ?_ later_endUnload
    exact later_flags (Or.inl rfl) (fun hs => hs) (fun _ hb => hb) calmer_refl
  | claimIdle =>
    unfold Llm.claimIdle
    split
    · exact later_refl
    · exact later_flags (Or.inl rfl) (fun hs => hs) (fun _ hb => hb) calmer_refl
  | @unclaim t =>
    have hfree : Later m ({ m with claimed := false }.setProc t .idle) :=
      later_flags (Or.inl rfl) (fun hs => hs) (fun _ hb => hb) calmer_refl
    unfold Llm.unclaim
    split
    · exact hfree.pump
    · exact later_setProc
  | procStop _ hst => exact (later_stopStep hst).trans later_setProc

/-! ## Who is closing it -/

/-- A closed manager has a `Close` waiting for its switches; or no switch is left,
and whatever is still current has a `Close` about to stop it. -/
def Ending (m : Llm) : Prop :=
  m.closed = true → (∃ t, m.procs t = .closing) ∨
    m.switch = none ∧ ∀ b, m.cur = some b → ∃ t, m.procs t = .closeStop b .clear

/-- A caller that is closing stays where it is, or the step is its own. -/
structure ClosersKept (m m' : Llm) : Prop where
  closing : ∀ t, m.procs t = .closing → m'.procs t = .closing
  stopping : ∀ t b, m.procs t = .closeStop b .clear →
    m'.procs t = .closeStop b .clear ∨ m'.cur ≠ some b

theorem closersKept_procs (h : m'.procs = m.procs) : ClosersKept m m' :=
  ⟨fun t ht => by rw [h]; exact ht, fun t b ht => Or.inl (by rw [h]; exact ht)⟩

theorem closersKept_setProc {m₁ : Llm} {p : Proc} (hprocs : m₁.procs = m.procs)
    (hc : m.procs t ≠ .closing) (hs : ∀ b, m.procs t = .closeStop b .clear → m₁.cur ≠ some b) :
    ClosersKept m (m₁.setProc t p) := by
  have hne : ∀ t', t' ≠ t → (m₁.setProc t p).procs t' = m.procs t' := by
    intro t' ht'
    rw [← hprocs]
    exact Function.update_of_ne ht' _ _
  refine ⟨fun t' ht' => ?_, fun t' b ht' => ?_⟩
  · by_cases htt : t' = t
    · subst htt; exact absurd ht' hc
    · rw [hne t' htt]; exact ht'
  · by_cases htt : t' = t
    · subst htt; exact Or.inr (hs b ht')
    · rw [hne t' htt]; exact Or.inl ht'

theorem ClosersKept.pump (h : ClosersKept m m') : ClosersKept m (pump m') :=
  ⟨fun t ht => by rw [pump_procs]; exact h.closing t ht, fun t b ht => by
    rw [pump_procs, pump_cur]; exact h.stopping t b ht⟩

theorem switchStep_procs (h : m.switchStep s e = some m') : m'.procs = m.procs := by
  have hfailed : ∀ {m : Llm} {err : Err}, (m.startFailed s err).procs = m.procs := by
    intro m err
    unfold startFailed
    split
    · rfl
    · split
      · rfl
      · split <;> rfl
  have hpump : ∀ {r : Switch} {err : Option Err}, (m.endSwitch r err).procs = m.procs := by
    intro r err
    unfold endSwitch
    cases err <;> simp
  unfold Llm.switchStep at h
  split at h
  · split at h <;> cases h <;> rfl
  · split at h
    · cases h
      rfl
    · cases h
  · split at h <;> cases h <;> rfl
  · split at h
    · obtain ⟨⟨m₁, next⟩, hst, rfl⟩ := Option.map_eq_some_iff.mp h
      exact (stopStep_procs hst).1
    · obtain ⟨⟨m₁, next⟩, hst, rfl⟩ := Option.map_eq_some_iff.mp h
      exact (stopStep_procs hst).1
    · cases h
  · split at h
    · split at h <;> cases h <;> rfl
    · cases h
  · split at h <;> cases h
    · rfl
    · exact hfailed
    · rfl
  · split at h <;> cases h
    · exact hfailed
    · exact hfailed
    · rfl
  · split at h <;> cases h
    · exact hfailed
    · rfl
  · split at h <;> cases h
    unfold install
    split
    · rfl
    · split <;> rfl
  · split at h
    · split at h <;> cases h
      rfl
    · cases h
  · split at h <;> cases h
    exact hpump
  · cases h

theorem watchStep_procs (h : m.watchStep b e = some m') : m'.procs = m.procs := by
  unfold Llm.watchStep at h
  split at h
  · split at h
    · split at h <;> cases h <;> rfl
    · cases h
  · split at h <;> cases h <;> rfl
  · split at h <;> cases h
    rfl
  · split at h <;> cases h
    simp [setBackend]
  · cases h

theorem stopStep_clear {next : Option Stop} (h : m.stopStep b .clear = some (m', next)) :
    m'.cur ≠ some b := by
  cases h
  simp only []
  split
  · simp
  · next hne => exact hne

theorem closersKept_step (he : ∀ t, e ≠ .closeRead t) (hstep : Llm.step m e = some m') :
    ClosersKept m m' := by
  have hidle : ∀ {n : Llm} {t : Nat} {p : Proc}, n.procs = m.procs →
      m.procs t ≠ .closing → (∀ b, m.procs t ≠ .closeStop b .clear) →
      ClosersKept m (n.setProc t p) := fun hp hc hs =>
    closersKept_setProc hp hc fun b hb => absurd hb (hs b)
  cases does_of_step hstep with
  | acquire =>
    unfold Llm.acquire
    split
    · exact closersKept_procs rfl
    · split
      · exact closersKept_procs rfl
      · split
        · exact closersKept_procs rfl
        · exact ClosersKept.pump (closersKept_procs (by rfl))
  | receive => exact closersKept_procs rfl
  | cancel | giveBack | timeout | crashPump => exact ClosersKept.pump (closersKept_procs (by rfl))
  | stopLoads => exact ClosersKept.pump (closersKept_procs (by rfl))
  | late | stopNothing => exact closersKept_procs rfl
  | release =>
    unfold Llm.release
    split
    · exact closersKept_procs rfl
    · exact ClosersKept.pump (closersKept_procs rfl)
  | @endSwitch s err =>
    unfold Llm.endSwitch
    cases finalError s err with
    | none => exact ClosersKept.pump (closersKept_procs (by rfl))
    | some _ => exact ClosersKept.pump (closersKept_procs (by rfl))
  | switch _ _ hswitch => exact closersKept_procs (switchStep_procs hswitch)
  | watch _ hwatch => exact closersKept_procs (watchStep_procs hwatch)
  | emergencyStop ht =>
    unfold Llm.emergencyStop
    simp only []
    split
    · exact closersKept_procs rfl
    · exact hidle rfl (by simp [ht]) (by simp [ht])
  | close ht => exact hidle rfl (by simp [ht]) (by simp [ht])
  | closed | closeStop => exact absurd rfl (he _)
  | unload ht =>
    unfold Llm.unload
    split
    · exact closersKept_procs rfl
    · split
      · exact closersKept_procs rfl
      · split
        · exact closersKept_procs rfl
        · exact hidle rfl (by simp [ht]) (by simp [ht])
  | @unloadPoll t late b ht =>
    have hend : ClosersKept m (m.setProc t .idle).endUnload := by
      refine ClosersKept.pump ?_
      exact hidle (n := { m with
        unloaders := m.unloaders - 1
        unloading := if m.unloaders - 1 = 0 then "" else m.unloading }) rfl (by simp [ht])
        (by simp [ht])
    unfold Llm.unloadPoll
    split
    · exact hend
    · split
      · exact hidle (n := { m with claimed := true }) rfl (by simp [ht]) (by simp [ht])
      · split
        · exact hend
        · exact closersKept_procs rfl
  | @unloadEnd t ht =>
    refine ClosersKept.pump ?_
    exact hidle (n := { m with
      claimed := false
      unloaders := m.unloaders - 1
      unloading := if m.unloaders - 1 = 0 then "" else m.unloading }) rfl (by simp [ht])
      (by simp [ht])
  | claimIdle ht =>
    unfold Llm.claimIdle
    split
    · exact closersKept_procs rfl
    · exact hidle (n := { m with claimed := true }) rfl (by simp [ht]) (by simp [ht])
  | stopClaimed ht => exact hidle rfl (by simp [ht]) (by simp [ht])
  | @unclaim t ht =>
    unfold Llm.unclaim
    split
    · refine ClosersKept.pump ?_
      exact hidle (n := { m with claimed := false }) rfl (by simp [ht]) (by simp [ht])
    · exact hidle rfl (by simp [ht]) (by simp [ht])
  | @procStop t b st next m₁ st' hproc hst =>
    refine closersKept_setProc (stopStep_procs hst).1 ?_ fun b' hb' => ?_
    · intro hc
      rw [hc] at hproc
      cases hproc
    · rw [hb'] at hproc
      cases hproc
      exact stopStep_clear hst

@[simp] theorem pump_closed : (pump m).closed = m.closed := by
  obtain ⟨_, _, _, _, h⟩ := pump_frame m
  rw [h]

theorem closed_step (he : ∀ t, e ≠ .close t) (hinv : Inv m) (hstep : Llm.step m e = some m') :
    m'.closed = m.closed := by
  cases does_of_step hstep with
  | acquire =>
    unfold Llm.acquire
    split
    · rfl
    · split
      · rfl
      · split
        · rfl
        · rw [pump_closed]
  | receive | late | stopNothing | closed | closeStop | stopClaimed => rfl
  | cancel | giveBack | timeout | crashPump => rw [pump_closed]; try rfl
  | stopLoads => unfold Llm.stopLoads; rw [pump_closed]; rfl
  | release =>
    unfold Llm.release
    split
    · rfl
    · rw [pump_closed]
  | @endSwitch s err =>
    unfold Llm.endSwitch
    cases finalError s err with
    | none => rw [pump_closed]
    | some _ => rw [pump_closed]
  | switch hs hne hswitch => exact (hinv.serving.switchStep_quiet hs hne hswitch).closed
  | watch hne hwatch => exact (watchStep_quiet hne hwatch).closed
  | emergencyStop =>
    unfold Llm.emergencyStop
    simp only []
    split <;> rfl
  | close => exact absurd rfl (he _)
  | unload =>
    unfold Llm.unload
    split
    · rfl
    · split
      · rfl
      · split <;> rfl
  | unloadPoll =>
    unfold Llm.unloadPoll Llm.endUnload
    split
    · rw [pump_closed]; rfl
    · split
      · rfl
      · split
        · rw [pump_closed]; rfl
        · rfl
  | unloadEnd => unfold Llm.unloadEnd Llm.endUnload; rw [pump_closed]; rfl
  | claimIdle =>
    unfold Llm.claimIdle
    split <;> rfl
  | unclaim =>
    unfold Llm.unclaim
    split
    · rw [pump_closed]; rfl
    · rfl
  | procStop _ hst => exact (stopStep_quiet hst).closed

theorem Ending.step (h : Ending m) (hinv : Inv m) (hstep : Llm.step m e = some m') :
    Ending m' := by
  intro hc'
  by_cases hclose : ∃ t, e = .close t
  · -- Its caller waits from now on.
    obtain ⟨t, rfl⟩ := hclose
    simp only [Llm.step] at hstep
    split at hstep <;> cases hstep
    exact Or.inl ⟨t, Function.update_self _ _ _⟩
  · have hc : m.closed = true := by
      rw [← closed_step (fun t ht => hclose ⟨t, ht⟩) hinv hstep]
      exact hc'
    have hlater := later_step hinv hstep
    by_cases hread : ∃ t, e = .closeRead t
    · obtain ⟨t, rfl⟩ := hread
      simp only [Llm.step] at hstep
      split at hstep <;> cases hstep
      · next hs hcur =>
        exact Or.inr ⟨hs, fun b hb => absurd (hcur.symm.trans hb) (by simp)⟩
      · next b _ hs hcur =>
        refine Or.inr ⟨hs, fun b' hb' => ⟨t, ?_⟩⟩
        obtain rfl : b' = b := Option.some.inj (hb'.symm.trans hcur)
        exact Function.update_self _ _ _
    · have hkept := closersKept_step (fun t ht => hread ⟨t, ht⟩) hstep
      rcases h hc with ⟨t, ht⟩ | ⟨hs, hcur⟩
      · exact Or.inl ⟨t, hkept.closing t ht⟩
      · refine Or.inr ⟨hlater.switch hc hs, fun b hb => ?_⟩
        obtain ⟨t, ht⟩ := hcur b (hlater.cur hc hs b hb)
        rcases hkept.stopping t b ht with hstay | hgone
        · exact ⟨t, hstay⟩
        · exact absurd hb hgone

theorem ending_of_reachable (h : Machine.Reachable llm m) : Ending m := by
  refine h.invariant_with (J := Inv) (I := Ending) (fun _ hr => inv_of_reachable hr) ?_ ?_
  · rintro m ⟨capacity, rfl⟩ hc
    cases hc
  · exact fun m e m' hinv _ hending hstep => hending.step hinv hstep

/-! ## Nothing runs after it -/

/-- Nothing is queued, loading or current, and nothing will be. -/
structure Off (m : Llm) : Prop where
  closed : m.closed = true
  queue : m.wq.queue = []
  switch : m.switch = none
  cur : m.cur = none

theorem Off.step (h : Off m) (hinv : Inv m) (hinv' : Inv m') (hstep : Llm.step m e = some m') :
    Off m' ∧ ∀ w, (m'.wq.waiters w).lease = (m.wq.waiters w).lease := by
  have hlater := later_step hinv hstep
  have hc := hlater.closed h.closed
  refine ⟨⟨hc, hinv'.serving.closed hc, hlater.switch h.closed h.switch, ?_⟩, fun w => ?_⟩
  · cases hcur : m'.cur with
    | none => rfl
    | some b =>
      have hold := hlater.cur h.closed h.switch b hcur
      rw [h.cur] at hold
      cases hold
  · exact ((hlater.calm h.closed).2 w).1

/-- In every run, once every `Close` that was called has returned, nothing is queued,
loading or current, and no run from there ever changes that or grants another lease. -/
theorem closed_for_good (h : Machine.Reachable llm m) (hc : m.closed = true)
    (hreturned : ∀ t, m.procs t ≠ .closing ∧ ∀ b, m.procs t ≠ .closeStop b .clear)
    {es : List LlmEvent} (hrun : llm.run m es = some m') :
    Off m' ∧ ∀ w, (m'.wq.waiters w).lease = (m.wq.waiters w).lease := by
  have hoff : Off m := by
    have hinv := inv_of_reachable h
    rcases ending_of_reachable h hc with ⟨t, ht⟩ | ⟨hs, hcur⟩
    · exact absurd ht (hreturned t).1
    · refine ⟨hc, hinv.serving.closed hc, hs, ?_⟩
      cases hcur' : m.cur with
      | none => rfl
      | some b =>
        obtain ⟨t, ht⟩ := hcur b hcur'
        exact absurd ht ((hreturned t).2 b)
  clear hc hreturned
  induction es generalizing m with
  | nil =>
    cases hrun
    exact ⟨hoff, fun _ => rfl⟩
  | cons e es ih =>
    obtain ⟨u, hu, hrest⟩ := Machine.run_cons hrun
    have hstep := hoff.step (inv_of_reachable h) (inv_of_reachable (h.step hu)) hu
    obtain ⟨hoff', hlease⟩ := ih (h.step hu) hrest hstep.1
    exact ⟨hoff', fun w => (hlease w).trans (hstep.2 w)⟩

/-- A model runs for one request, and the manager is closed under it. -/
def closedDown : List LlmEvent :=
  [.acquire "llama" "", .prepare none, .read, .check none, .start none,
    .reserve (.one 4096) none, .load none, .install, .endSwitch, .receive 0,
    .close 7, .closeRead 7, .procStop 7, .procStop 7, .procStop 7]

theorem closed_down_for_good :
    Off (llm.after { capacity := 2 } (closedDown ++ [.release 0, .acquire "llama" ""])) ∧
      ∀ w, ((llm.after { capacity := 2 }
          (closedDown ++ [.release 0, .acquire "llama" ""])).wq.waiters w).lease =
        ((llm.after { capacity := 2 } closedDown).wq.waiters w).lease := by
  have hrun : llm.run (llm.after { capacity := 2 } closedDown)
      [.release 0, .acquire "llama" ""] =
        some (llm.after { capacity := 2 } (closedDown ++ [.release 0, .acquire "llama" ""])) := rfl
  refine closed_for_good (Machine.reachable_after ⟨2, rfl⟩ (by decide)) rfl (fun t => ?_) hrun
  have hprocs : (llm.after { capacity := 2 } closedDown).procs t =
      Function.update (Function.update (Function.update (Function.update (Function.update
        (fun _ => Proc.idle) 7 Proc.closing) 7 (Proc.closeStop 0 .clear)) 7
        (Proc.closeStop 0 .once)) 7 (Proc.closeStop 0 .running)) 7 Proc.idle t := rfl
  have hidle : (llm.after { capacity := 2 } closedDown).procs t = .idle := by
    rw [hprocs]
    simp only [Function.update_apply]
    split <;> rfl
  simp [hidle]

end LocalBase.Runtime.Llm
