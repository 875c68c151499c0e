import LocalBase.Runtime.LlmQueue

/-!
# What a lease is on

A request asks for a model, and for the definition its backend was started from.
The lease it is granted is on a backend of just these, and stays so: a backend keeps
what it runs from its start to its end, and a lease keeps its backend. While a
backend is current, every lease that is out is on it, because a switch starts only
once the last lease of the backend before has come back.

`Onward` says what of this a step can change. It is transitive, so a section made of
several moves is the moves one after another, and what it keeps (`Faithful`) holds in
every run.
-/

namespace LocalBase.Runtime.Llm

variable {m m' : Llm} {b t w : Nat} {s : Switch} {e : LlmEvent}

/-! ## The invariant -/

/-- A lease of request `w` is on a backend of what the request asks for. -/
structure Fits (m : Llm) (w : Nat) (l : Lease) : Prop where
  made : l.b < m.made
  model : (m.backends l.b).modelID = (m.wq.waiters w).model
  key : (m.backends l.b).key = (m.wq.waiters w).key
  named : l.modelID = (m.backends l.b).modelID
  slots : l.slots = (m.backends l.b).plan.slots
  active : l.active ≤ l.slots

/-- The backend that a switch has in hand. -/
def Holds (s : Switch) (b : Nat) : Prop := s.pc = .load b ∨ s.pc = .install b

structure Faithful (m : Llm) : Prop where
  cur : ∀ b, m.cur = some b → b < m.made
  loading : ∀ s b, m.switch = some s → Holds s b → b < m.made
  leases : ∀ w l, (m.wq.waiters w).lease = some l → Fits m w l
  together : ∀ b, m.cur = some b → ∀ w ∈ m.wq.out, ∀ l,
    (m.wq.waiters w).lease = some l → l.b = b

/-- What a backend is from its start to its end. -/
def SameBackend (b b' : Backend) : Prop :=
  b'.modelID = b.modelID ∧ b'.key = b.key ∧ b'.plan = b.plan

/-- A request's lease, and what it asks for. -/
def SameRequest (r r' : Queued Lease) : Prop :=
  r'.lease = r.lease ∧ r'.model = r.model ∧ r'.key = r.key

/-! ## What a step can change -/

structure Onward (m m' : Llm) : Prop where
  made : m.made ≤ m'.made
  backends : ∀ b < m.made, SameBackend (m.backends b) (m'.backends b)
  cur : ∀ b, m'.cur = some b → m.cur = some b ∨ b < m'.made
  loading : ∀ s' b, m'.switch = some s' → Holds s' b →
    b < m'.made ∨ ∃ s, m.switch = some s ∧ Holds s b
  leases : ∀ w l, (m'.wq.waiters w).lease = some l →
    Fits m' w l ∨ SameRequest (m.wq.waiters w) (m'.wq.waiters w)
  together : ∀ b, m'.cur = some b → ∀ w ∈ m'.wq.out, ∀ l,
    (m'.wq.waiters w).lease = some l →
      l.b = b ∨ m.cur = some b ∧ w ∈ m.wq.out ∧ (m.wq.waiters w).lease = some l

theorem Fits.onward {l : Lease} (h : Fits m w l) (ho : Onward m m')
    (hr : SameRequest (m.wq.waiters w) (m'.wq.waiters w)) : Fits m' w l := by
  obtain ⟨hmodel, hkey, hplan⟩ := ho.backends l.b h.made
  refine ⟨Nat.lt_of_lt_of_le h.made ho.made, ?_, ?_, ?_, ?_, h.active⟩
  · rw [hmodel, hr.2.1]; exact h.model
  · rw [hkey, hr.2.2]; exact h.key
  · rw [hmodel]; exact h.named
  · rw [hplan]; exact h.slots

theorem Faithful.onward (h : Faithful m) (ho : Onward m m') : Faithful m' := by
  refine ⟨fun b hb => ?_, fun s b hs hb => ?_, fun w l hl => ?_, fun b hb w hw l hl => ?_⟩
  · rcases ho.cur b hb with hc | hnew
    · exact Nat.lt_of_lt_of_le (h.cur b hc) ho.made
    · exact hnew
  · rcases ho.loading s b hs hb with hnew | ⟨s₀, hs₀, hb₀⟩
    · exact hnew
    · exact Nat.lt_of_lt_of_le (h.loading s₀ b hs₀ hb₀) ho.made
  · rcases ho.leases w l hl with hfits | hr
    · exact hfits
    · exact (h.leases w l (hr.1 ▸ hl)).onward ho hr
  · rcases ho.together b hb w hw l hl with hlb | ⟨hc, hw₀, hl₀⟩
    · exact hlb
    · exact h.together b hc w hw₀ l hl₀

theorem sameRequest_refl {r : Queued Lease} : SameRequest r r := ⟨rfl, rfl, rfl⟩

theorem Onward.trans {m'' : Llm} (h : Onward m m') (h' : Onward m' m'') : Onward m m'' := by
  refine ⟨Nat.le_trans h.made h'.made, fun b hb => ?_, fun b hb => ?_, fun s b hs hb => ?_,
    fun w l hl => ?_, fun b hb w hw l hl => ?_⟩
  · obtain ⟨hmodel, hkey, hplan⟩ := h.backends b hb
    obtain ⟨hmodel', hkey', hplan'⟩ := h'.backends b (Nat.lt_of_lt_of_le hb h.made)
    exact ⟨hmodel'.trans hmodel, hkey'.trans hkey, hplan'.trans hplan⟩
  · rcases h'.cur b hb with hc | hnew
    · rcases h.cur b hc with hc | hnew
      · exact Or.inl hc
      · exact Or.inr (Nat.lt_of_lt_of_le hnew h'.made)
    · exact Or.inr hnew
  · rcases h'.loading s b hs hb with hnew | ⟨s₁, hs₁, hb₁⟩
    · exact Or.inl hnew
    · rcases h.loading s₁ b hs₁ hb₁ with hnew | hold
      · exact Or.inl (Nat.lt_of_lt_of_le hnew h'.made)
      · exact Or.inr hold
  · rcases h'.leases w l hl with hfits | hr'
    · exact Or.inl hfits
    · rcases h.leases w l (hr'.1 ▸ hl) with hfits | hr
      · exact Or.inl (hfits.onward h' hr')
      · exact Or.inr ⟨hr'.1.trans hr.1, hr'.2.1.trans hr.2.1, hr'.2.2.trans hr.2.2⟩
  · rcases h'.together b hb w hw l hl with hlb | ⟨hc, hw₁, hl₁⟩
    · exact Or.inl hlb
    · exact h.together b hc w hw₁ l hl₁

theorem onward_kept (hmade : m'.made = m.made) (hb : m'.backends = m.backends)
    (hcur : ∀ b, m'.cur = some b → m.cur = some b)
    (hsw : ∀ s' b, m'.switch = some s' → Holds s' b →
      ∃ s, m.switch = some s ∧ Holds s b)
    (hreq : ∀ w, SameRequest (m.wq.waiters w) (m'.wq.waiters w))
    (hout : m'.wq.out ⊆ m.wq.out) : Onward m m' := by
  refine ⟨Nat.le_of_eq hmade.symm, fun b _ => ?_, fun b h => Or.inl (hcur b h),
    fun s' b hs hh => Or.inr (hsw s' b hs hh), fun w _ _ => Or.inr (hreq w), ?_⟩
  · rw [hb]
    exact ⟨rfl, rfl, rfl⟩
  · intro b h w hw l hl
    exact Or.inr ⟨hcur b h, hout hw, (hreq w).1 ▸ hl⟩

theorem onward_refl : Onward m m :=
  onward_kept rfl rfl (fun _ h => h) (fun s _ hs hh => ⟨s, hs, hh⟩) (fun _ => sameRequest_refl)
    (List.Subset.refl _)

theorem onward_dropCur {cur : Option Nat} (h : ∀ b, cur = some b → m.cur = some b) :
    Onward m { m with cur := cur } :=
  onward_kept rfl rfl h (fun s _ hs hh => ⟨s, hs, hh⟩) (fun _ => sameRequest_refl)
    (List.Subset.refl _)

theorem onward_setProc {p : Proc} : Onward m (m.setProc t p) :=
  onward_kept rfl rfl (fun _ h => h) (fun s _ hs hh => ⟨s, hs, hh⟩) (fun _ => sameRequest_refl)
    (List.Subset.refl _)

theorem onward_releaseMemory : Onward m (m.releaseMemory b) :=
  onward_kept rfl rfl (fun _ h => h) (fun s _ hs hh => ⟨s, hs, hh⟩) (fun _ => sameRequest_refl)
    (List.Subset.refl _)

theorem onward_cancelSwitch (cause : Err) : Onward m (m.cancelSwitch cause) := by
  refine onward_kept rfl rfl (fun _ h => h) (fun s' b hs hh => ?_) (fun _ => sameRequest_refl)
    (List.Subset.refl _)
  obtain ⟨s, hs₀, rfl⟩ := Option.map_eq_some_iff.mp hs
  exact ⟨s, hs₀, hh⟩

theorem onward_setSwitch {s' : Switch} (hs : m.switch = some s)
    (hh : ∀ b, Holds s' b → Holds s b) : Onward m (m.setSwitch s') := by
  refine onward_kept rfl rfl (fun _ h => h) (fun r b hr hb => ?_) (fun _ => sameRequest_refl)
    (List.Subset.refl _)
  cases hr
  exact ⟨s, hs, hh b hb⟩

theorem onward_setBackend {f : Backend → Backend}
    (hf : SameBackend (m.backends b) (f (m.backends b))) : Onward m (m.setBackend b f) := by
  refine ⟨Nat.le_refl _, fun b' _ => ?_, fun _ h => Or.inl h, fun s b hs hh => Or.inr ⟨s, hs, hh⟩,
    fun _ _ _ => Or.inr sameRequest_refl, fun _ h _ hw _ hl => Or.inr ⟨h, hw, hl⟩⟩
  by_cases hbb : b' = b
  · subst hbb
    simpa [setBackend] using hf
  · simp [setBackend, SameBackend, Function.update_of_ne hbb]

/-! ## The queue -/

/-- The queue may lose requests, and their calls go on; no lease is granted. -/
def Calmer (q q' : WaitQueue Lease) : Prop :=
  q'.out ⊆ q.out ∧ ∀ w, SameRequest (q.waiters w) (q'.waiters w)

theorem onward_setQueue {q : WaitQueue Lease} (h : Calmer m.wq q) : Onward m { m with wq := q } :=
  onward_kept rfl rfl (fun _ h => h) (fun s _ hs hh => ⟨s, hs, hh⟩) h.2 h.1

theorem Calmer.trans {q q' q'' : WaitQueue Lease} (h : Calmer q q') (h' : Calmer q' q'') :
    Calmer q q'' := by
  refine ⟨List.Subset.trans h'.1 h.1, fun w => ?_⟩
  obtain ⟨hl, hm, hk⟩ := h.2 w
  obtain ⟨hl', hm', hk'⟩ := h'.2 w
  exact ⟨hl'.trans hl, hm'.trans hm, hk'.trans hk⟩

section Queue

variable {q q' : WaitQueue Lease} {w : Nat} {err : Err}

theorem calmer_refl : Calmer q q := ⟨List.Subset.refl _, fun _ => sameRequest_refl⟩

theorem calmer_remove : Calmer q (q.remove w) := ⟨List.Subset.refl _, fun _ => sameRequest_refl⟩

theorem calmer_modify {f : Queued Lease → Queued Lease} (hf : ∀ r, SameRequest r (f r)) :
    Calmer q (q.modify w f) := by
  refine ⟨List.Subset.refl _, fun w' => ?_⟩
  by_cases hw : w' = w
  · subst hw
    rw [WaitQueue.modify_self]
    exact hf _
  · rw [WaitQueue.modify_of_ne f hw]
    exact sameRequest_refl

theorem calmer_fail : Calmer q (q.fail w err) :=
  calmer_remove.trans (calmer_modify fun _ => sameRequest_refl)

theorem calmer_failWhile {p : Queued Lease → Bool} {n : Nat} :
    Calmer q (WaitQueue.failWhile p err n q) := by
  induction n generalizing q with
  | zero => exact calmer_refl
  | succ n ih =>
    rw [WaitQueue.failWhile]
    split
    · exact calmer_refl
    · split
      · exact calmer_fail.trans ih
      · exact calmer_refl

theorem calmer_failMatching {p : Queued Lease → Bool} : Calmer q (q.failMatching p err) := by
  unfold WaitQueue.failMatching
  generalize q.queue = l
  induction l generalizing q with
  | nil => exact calmer_refl
  | cons w l ih =>
    rw [List.foldl_cons]
    refine Calmer.trans ?_ ih
    split
    · exact calmer_fail
    · exact calmer_refl

theorem calmer_receive (h : q.receive w = some q') : Calmer q q' := by
  unfold WaitQueue.receive at h
  split at h
  · cases h
    exact calmer_modify fun _ => sameRequest_refl
  · cases h

theorem calmer_cancel (h : q.cancel w = some q') : Calmer q q' := by
  unfold WaitQueue.cancel at h
  split at h
  · cases h
    exact calmer_remove.trans (calmer_modify fun _ => sameRequest_refl)
  · cases h

theorem calmer_timeout : Calmer q (q.timeout w) :=
  calmer_remove.trans (calmer_modify fun _ => sameRequest_refl)

theorem calmer_release : Calmer q (q.release w) := by
  have hmod : Calmer q (q.modify w ({ · with released := true })) :=
    calmer_modify fun _ => sameRequest_refl
  exact ⟨List.erase_subset, hmod.2⟩

theorem calmer_giveBack : Calmer q (q.giveBack w) :=
  calmer_release.trans (calmer_modify fun _ => sameRequest_refl)

end Queue

theorem onward_push (model key : String) :
    Onward m { m with wq := m.wq.push model key } := by
  have hne : ∀ w, w ≠ m.wq.arrived → (m.wq.push model key).waiters w = m.wq.waiters w :=
    fun w hw => Function.update_of_ne hw _ _
  have hself : ((m.wq.push model key).waiters m.wq.arrived).lease = none := by
    simp [WaitQueue.push]
  have hlease : ∀ w l, ((m.wq.push model key).waiters w).lease = some l →
      (m.wq.push model key).waiters w = m.wq.waiters w := by
    intro w l hl
    by_cases hw : w = m.wq.arrived
    · subst hw
      rw [hself] at hl
      cases hl
    · exact hne w hw
  refine ⟨Nat.le_refl _, fun _ _ => ⟨rfl, rfl, rfl⟩, fun _ hb => Or.inl hb,
    fun s b hs hh => Or.inr ⟨s, hs, hh⟩, fun w l hl => Or.inr ?_, fun b hb w hw l hl => Or.inr ?_⟩
  · show SameRequest _ ((m.wq.push model key).waiters w)
    rw [hlease w l hl]
    exact sameRequest_refl
  · refine ⟨hb, hw, ?_⟩
    rw [← hlease w l hl]
    exact hl

/-! ## The pump -/

theorem onward_grant (h : Faithful m) (hcur : m.cur = some b) (hserves : m.serves b w = true)
    (hroom : ¬ ((m.backends b).plan.slots : Int) ≤ m.active) :
    Onward m (m.grant w b) := by
  have hne : ∀ w', w' ≠ w → (m.grant w b).wq.waiters w' = m.wq.waiters w' := by
    intro w' hw'
    simp [grant, WaitQueue.grant, WaitQueue.answer, WaitQueue.modify_of_ne _ hw']
  have hself : ∀ l, ((m.grant w b).wq.waiters w).lease = some l → l =
      { b := b, modelID := (m.backends b).modelID, active := m.active + 1
        slots := (m.backends b).plan.slots, waiting := m.wq.queue.tail.length } := by
    intro l hl
    simpa [grant, WaitQueue.grant, WaitQueue.answer, eq_comm] using hl
  have hasks : ((m.grant w b).wq.waiters w).model = (m.wq.waiters w).model ∧
      ((m.grant w b).wq.waiters w).key = (m.wq.waiters w).key := by
    simp [grant, WaitQueue.grant, WaitQueue.answer]
  obtain ⟨hmodel, hkey⟩ : (m.backends b).modelID = (m.wq.waiters w).model ∧
      (m.backends b).key = (m.wq.waiters w).key := by
    simpa [serves] using hserves
  refine ⟨Nat.le_refl _, fun _ _ => ⟨rfl, rfl, rfl⟩, fun _ hb => Or.inl hb,
    fun s b hs hh => Or.inr ⟨s, hs, hh⟩, fun w' l hl => ?_, fun b' hb' w' hw' l hl => ?_⟩
  · by_cases hw : w' = w
    · subst hw
      obtain rfl := hself l hl
      refine Or.inl ⟨h.cur b hcur, hmodel.trans hasks.1.symm, hkey.trans hasks.2.symm, rfl, rfl, ?_⟩
      show m.active + 1 ≤ _
      simp only []
      omega
    · rw [hne w' hw]
      exact Or.inr sameRequest_refl
  · by_cases hw : w' = w
    · subst hw
      obtain rfl := hself l hl
      exact Or.inl (Option.some.inj (hcur.symm.trans hb'))
    · rw [hne w' hw] at hl
      refine Or.inr ⟨hb', ?_, hl⟩
      have hmem : w' ∈ m.wq.out ++ [w] := hw'
      simpa [hw] using hmem

theorem onward_startSwitch : Onward m (m.startSwitch w) := by
  refine onward_kept rfl rfl (fun _ h => h) (fun s b hs hh => ?_) (fun w' => ?_)
    (List.Subset.refl _)
  · cases hs
    rcases hh with hh | hh <;> cases hh
  · exact (calmer_modify (q := m.wq) (w := w) (f := ({ · with dispatching := true }))
      fun _ => sameRequest_refl).2 w'

theorem onward_pumpLoop (n : Nat) (h : Faithful m) : Onward m (pumpLoop n m) := by
  induction n generalizing m with
  | zero => exact onward_refl
  | succ n ih =>
    rw [pumpLoop]
    split
    · split
      · exact onward_refl
      · next head rest hq =>
        split
        · next b hb =>
          obtain ⟨hcur, hserves⟩ := Option.filter_eq_some_iff.mp hb
          split
          · exact onward_refl
          · next hroom =>
            have hg := onward_grant h hcur hserves hroom
            exact hg.trans (ih (h.onward hg))
        · split
          · have hf : Onward m (m.fail head .unavailable) := onward_setQueue calmer_fail
            exact hf.trans (ih (h.onward hf))
          · split
            · exact onward_refl
            · exact onward_startSwitch
    · exact onward_refl

theorem Onward.pump (h : Onward m m') (hm : Faithful m) : Onward m (pump m') :=
  h.trans (onward_pumpLoop _ (hm.onward h))

/-! ## The backends -/

theorem onward_stopStep {st : Stop} {next : Option Stop}
    (h : m.stopStep b st = some (m', next)) : Onward m m' := by
  cases st with
  | clear =>
    cases h
    refine onward_dropCur fun b' hb' => ?_
    split at hb'
    · cases hb'
    · exact hb'
  | once =>
    simp only [stopStep] at h
    split at h
    · cases h; exact onward_setBackend ⟨rfl, rfl, rfl⟩
    · cases h
    · cases h; exact onward_refl
  | running =>
    cases h
    exact onward_releaseMemory.trans (onward_setBackend ⟨rfl, rfl, rfl⟩)

theorem not_holds (hl : ∀ b, s.pc ≠ .load b) (hi : ∀ b, s.pc ≠ .install b) (b : Nat) {P : Prop}
    (h : Holds s b) : P := by
  rcases h with h | h
  · exact absurd h (hl b)
  · exact absurd h (hi b)

theorem onward_goto {s' : Switch} (hs : m.switch = some s) (hl : ∀ b, s'.pc ≠ .load b)
    (hi : ∀ b, s'.pc ≠ .install b) : Onward m (m.setSwitch s') :=
  onward_setSwitch hs fun b hb => not_holds hl hi b hb

theorem onward_startFailed {r : Switch} {err : Err} (hs : m.switch = some r) :
    Onward m (m.startFailed s err) := by
  unfold startFailed
  split
  · exact onward_goto hs (by simp) (by simp)
  · split
    · exact onward_goto hs (by simp) (by simp)
    · split
      · exact onward_goto hs (by simp) (by simp)
      · exact onward_goto hs (by simp) (by simp)

theorem onward_reserve {new : Backend} :
    Onward m (({ m with reservation := some m.made, made := m.made + 1 }.setBackend m.made
      fun _ => new).setSwitch { s with pc := .load m.made }) := by
  refine ⟨Nat.le_succ _, fun b hb => ?_, fun _ hb => Or.inl hb, fun s' b hs hh => Or.inl ?_,
    fun _ _ _ => Or.inr sameRequest_refl, fun _ h _ hw _ hl => Or.inr ⟨h, hw, hl⟩⟩
  · have hne : b ≠ m.made := Nat.ne_of_lt hb
    simp [setSwitch, setBackend, SameBackend, Function.update_of_ne hne]
  · cases hs
    rcases hh with hh | hh
    · cases hh
      exact Nat.lt_succ_self _
    · cases hh

theorem onward_install (h : Faithful m) (hserving : Serving m) (hs : m.switch = some s)
    (hpc : s.pc = .install b) : Onward m (m.install s b) := by
  have hout : m.wq.out = [] := hserving.drained (by rw [hserving.starting, hs]; rfl)
  unfold install
  split
  · exact onward_goto hs (by simp) (by simp)
  · split
    · have hset : Onward m (m.setBackend b ({ · with emergency := true })) :=
        onward_setBackend ⟨rfl, rfl, rfl⟩
      refine hset.trans ?_
      exact onward_goto hs (by simp) (by simp)
    · have hcur : Onward m { m with cur := some b } := by
        refine ⟨Nat.le_refl _, fun _ _ => ⟨rfl, rfl, rfl⟩, fun b' hb' => Or.inr ?_,
          fun s b hs hh => Or.inr ⟨s, hs, hh⟩, fun _ _ _ => Or.inr sameRequest_refl,
          fun _ _ w hw _ _ => ?_⟩
        · cases hb'
          exact h.loading s b hs (Or.inr hpc)
        · rw [show ({ m with cur := some b } : Llm).wq = m.wq from rfl, hout] at hw
          cases hw
      have hwatch : Onward { m with cur := some b }
          ({ m with cur := some b }.setBackend b ({ · with watch := .watching })) :=
        onward_setBackend ⟨rfl, rfl, rfl⟩
      refine (hcur.trans hwatch).trans ?_
      exact onward_goto hs (by simp) (by simp)

theorem Faithful.switchStep (h : Faithful m) (hserving : Serving m) (hs : m.switch = some s)
    (he : e ≠ .endSwitch) (hstep : m.switchStep s e = some m') :
    Onward m m' := by
  unfold Llm.switchStep at hstep
  split at hstep
  · -- prepare
    split at hstep
    · cases hstep; exact onward_goto hs (by simp) (by simp)
    · cases hstep; exact onward_goto hs (by simp) (by simp)
    · cases hstep
  · -- read
    split at hstep
    · cases hstep; exact onward_goto hs (by simp) (by simp)
    · cases hstep
  · -- check
    split at hstep
    · cases hstep; exact onward_goto hs (by simp) (by simp)
    · cases hstep; exact onward_goto hs (by simp) (by simp)
    · cases hstep; exact onward_goto hs (by simp) (by simp)
    · cases hstep
  · -- switchStop
    split at hstep
    · obtain ⟨⟨m₁, next⟩, hst, heq⟩ := Option.map_eq_some_iff.mp hstep
      subst heq
      refine (onward_stopStep hst).trans (onward_goto ((stopStep_procs hst).2.trans hs) ?_ ?_)
      · cases next <;> simp
      · cases next <;> simp
    · obtain ⟨⟨m₁, next⟩, hst, heq⟩ := Option.map_eq_some_iff.mp hstep
      subst heq
      refine (onward_stopStep hst).trans (onward_goto ((stopStep_procs hst).2.trans hs) ?_ ?_)
      · cases next <;> simp
      · cases next <;> simp
    · cases hstep
  · -- settle
    split at hstep
    · split at hstep
      · cases hstep; exact onward_goto hs (by simp) (by simp)
      · cases hstep; exact onward_goto hs (by simp) (by simp)
    · cases hstep
  · -- start
    split at hstep
    · cases hstep; exact onward_goto hs (by simp) (by simp)
    · cases hstep; exact onward_startFailed hs
    · cases hstep; exact onward_goto hs (by simp) (by simp)
    · cases hstep
  · -- reserve
    split at hstep
    · cases hstep; exact onward_startFailed hs
    · cases hstep; exact onward_startFailed hs
    · cases hstep; exact onward_reserve
    · cases hstep
  · -- load
    split at hstep
    · cases hstep
      exact onward_releaseMemory.trans (onward_startFailed hs)
    · next b hpc =>
      cases hstep
      refine onward_setSwitch hs fun b' hb' => ?_
      rcases hb' with hb' | hb'
      · cases hb'
      · cases hb'
        exact Or.inl hpc
    · cases hstep
  · -- install
    split at hstep
    · next b hpc => cases hstep; exact onward_install h hserving hs hpc
    · cases hstep
  · -- retry
    split at hstep
    · split at hstep
      · cases hstep; exact onward_goto hs (by simp) (by simp)
      · cases hstep
    · cases hstep
  · exact absurd rfl he
  · cases hstep

theorem onward_watchStep (he : ∀ b', e ≠ .crashPump b')
    (hstep : m.watchStep b e = some m') : Onward m m' := by
  unfold Llm.watchStep at hstep
  split at hstep
  · split at hstep
    · split at hstep <;> cases hstep
      · have hdrop : Onward m { m with cur := none } := onward_dropCur fun _ hb => by cases hb
        refine hdrop.trans (onward_setBackend ?_)
        exact ⟨rfl, rfl, rfl⟩
      · exact onward_setBackend ⟨rfl, rfl, rfl⟩
    · cases hstep
  · split at hstep <;> cases hstep
    · exact onward_setBackend ⟨rfl, rfl, rfl⟩
    · exact onward_setBackend ⟨rfl, rfl, rfl⟩
  · split at hstep <;> cases hstep
    exact onward_releaseMemory.trans (onward_setBackend ⟨rfl, rfl, rfl⟩)
  · next b' => exact absurd rfl (he b')
  · cases hstep

/-! ## The steps -/

theorem onward_flags (hmade : m'.made = m.made) (hb : m'.backends = m.backends)
    (hcur : m'.cur = m.cur) (hsw : m'.switch = m.switch ∨ m'.switch = none)
    (hq : Calmer m.wq m'.wq) : Onward m m' := by
  refine onward_kept hmade hb (fun b hb => hcur ▸ hb) (fun s b hs hh => ?_) hq.2 hq.1
  rcases hsw with hsw | hsw
  · exact ⟨s, hsw ▸ hs, hh⟩
  · rw [hsw] at hs
    cases hs

theorem Faithful.acquire (h : Faithful m) (model key : String) :
    Onward m (m.acquire model key) := by
  unfold Llm.acquire
  split
  · exact onward_refl
  · split
    · exact onward_refl
    · split
      · exact onward_refl
      · exact (onward_push model key).pump h

theorem Faithful.release (h : Faithful m) : Onward m (m.release w) := by
  unfold Llm.release
  split
  · exact onward_refl
  · have hback : Onward m { m with wq := m.wq.release w, active := m.active - 1 } :=
      onward_flags rfl rfl rfl (Or.inl rfl) calmer_release
    exact hback.pump h

theorem Faithful.endSwitch (h : Faithful m) {err : Option Err} :
    Onward m (m.endSwitch s err) := by
  unfold Llm.endSwitch
  cases err with
  | none =>
    refine Onward.pump (onward_flags ?_ ?_ ?_ (Or.inr ?_) calmer_refl) h
    all_goals rfl
  | some err =>
    refine Onward.pump (onward_flags ?_ ?_ ?_ (Or.inr ?_) calmer_failWhile) h
    all_goals rfl

theorem onward_emergencyStop {reason : Err} : Onward m (m.emergencyStop t reason) := by
  have hbase : Onward m ({ m with wq := m.wq.failAll reason }.cancelSwitch reason) :=
    (onward_setQueue calmer_failWhile).trans (onward_cancelSwitch reason)
  unfold emergencyStop
  simp only []
  split
  · exact hbase
  · exact (hbase.trans (onward_setBackend ⟨rfl, rfl, rfl⟩)).trans onward_setProc

theorem onward_close : Onward m (m.close t) := by
  have hclosed : Onward m { m with closed := true, wq := m.wq.failAll .unavailable } :=
    onward_flags rfl rfl rfl (Or.inl rfl) calmer_failWhile
  exact (hclosed.trans (onward_cancelSwitch _)).trans onward_setProc

theorem onward_unload {model : String} {now : Bool} :
    Onward m (m.unload t model now) := by
  unfold unload
  split
  · exact onward_refl
  · split
    · exact onward_refl
    · split
      · exact onward_refl
      · exact onward_flags rfl rfl rfl (Or.inl rfl) calmer_failMatching

theorem Onward.endUnload (h : Onward m m') (hm : Faithful m) : Onward m m'.endUnload := by
  refine Onward.pump (h.trans (onward_flags ?_ ?_ ?_ (Or.inl ?_) calmer_refl)) hm
  all_goals rfl

theorem Faithful.unloadPoll (h : Faithful m) {late : Bool} :
    Onward m (m.unloadPoll t b late) := by
  have hend : Onward m (m.setProc t .idle).endUnload := onward_setProc.endUnload h
  unfold Llm.unloadPoll
  split
  · exact hend
  · split
    · exact onward_flags rfl rfl rfl (Or.inl rfl) calmer_refl
    · split
      · exact hend
      · exact onward_refl

theorem Faithful.step (h : Faithful m) (hinv : Inv m)
    (hstep : Llm.step m e = some m') : Onward m m' := by
  cases does_of_step hstep with
  | acquire => exact h.acquire _ _
  | receive hq => exact onward_setQueue (calmer_receive hq)
  | cancel hq => exact (onward_setQueue (calmer_cancel hq)).pump h
  | @giveBack w =>
    have hback : Onward m { m with wq := m.wq.giveBack w, active := m.active - 1 } :=
      onward_flags rfl rfl rfl (Or.inl rfl) calmer_giveBack
    exact hback.pump h
  | timeout => exact (onward_setQueue calmer_timeout).pump h
  | late | stopNothing => exact onward_refl
  | release => exact h.release
  | endSwitch => exact h.endSwitch
  | switch hs he hswitch => exact h.switchStep hinv.serving hs he hswitch
  | watch he hwatch => exact onward_watchStep he hwatch
  | @crashPump b =>
    have hoff : Onward m (m.setBackend b ({ · with watch := .off })) :=
      onward_setBackend ⟨rfl, rfl, rfl⟩
    exact hoff.pump h
  | emergencyStop => exact onward_emergencyStop
  | stopLoads =>
    have hstop : Onward m { m with stopping := true } :=
      onward_flags rfl rfl rfl (Or.inl rfl) calmer_refl
    exact (hstop.trans (onward_cancelSwitch _)).pump h
  | close => exact onward_close
  | closed | closeStop | stopClaimed => exact onward_setProc
  | unload => exact onward_unload
  | unloadPoll => exact h.unloadPoll
  | @unloadEnd t =>
    have hfree : Onward m ({ m with claimed := false }.setProc t .idle) :=
      onward_flags rfl rfl rfl (Or.inl rfl) calmer_refl
    exact hfree.endUnload h
  | claimIdle =>
    unfold Llm.claimIdle
    split
    · exact onward_refl
    · exact onward_flags rfl rfl rfl (Or.inl rfl) calmer_refl
  | @unclaim t =>
    have hfree : Onward m ({ m with claimed := false }.setProc t .idle) :=
      onward_flags rfl rfl rfl (Or.inl rfl) calmer_refl
    unfold Llm.unclaim
    split
    · exact hfree.pump h
    · exact onward_setProc
  | procStop _ hst => exact (onward_stopStep hst).trans onward_setProc

theorem faithful_of_reachable (h : Machine.Reachable llm m) : Faithful m := by
  refine h.invariant_with (J := Inv) (I := Faithful) (fun _ hr => inv_of_reachable hr) ?_ ?_
  · rintro m ⟨capacity, rfl⟩
    refine ⟨fun b hb => ?_, fun s b hs _ => ?_, fun w l hl => ?_, fun b hb => ?_⟩
    · cases hb
    · cases hs
    · cases hl
    · cases hb
  · exact fun m e m' hinv _ hfaithful hstep => hfaithful.onward (hfaithful.step hinv hstep)

/-- In every run, a request that has its lease has it on a backend of the model and the
definition it asked for, which the lease names, with no more leases at the time than the
backend had slots; and while a backend is current, every lease that is out is on it. -/
theorem leases_faithful (h : Machine.Reachable llm m) :
    (∀ w l, (m.wq.waiters w).lease = some l → Fits m w l) ∧
      ∀ b, m.cur = some b → ∀ w ∈ m.wq.out, ∃ l, (m.wq.waiters w).lease = some l ∧ l.b = b := by
  have hfaithful := faithful_of_reachable h
  refine ⟨hfaithful.leases, fun b hb w hw => ?_⟩
  have hsome := ((inv_of_reachable h).serving.requests.outstanding w).mp hw
  obtain ⟨l, hl⟩ := Option.isSome_iff_exists.mp hsome.1
  exact ⟨l, hl, hfaithful.together b hb w hw l hl⟩

theorem two_models_faithful :
    (∀ w l, ((llm.after { capacity := 2 } twoModels).wq.waiters w).lease = some l →
        Fits (llm.after { capacity := 2 } twoModels) w l) ∧
      ∀ b, (llm.after { capacity := 2 } twoModels).cur = some b →
        ∀ w ∈ (llm.after { capacity := 2 } twoModels).wq.out,
          ∃ l, ((llm.after { capacity := 2 } twoModels).wq.waiters w).lease = some l ∧ l.b = b :=
  leases_faithful (Machine.reachable_after ⟨2, rfl⟩ (by decide))

end LocalBase.Runtime.Llm
