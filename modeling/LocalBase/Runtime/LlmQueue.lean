import LocalBase.Runtime.Holders
import LocalBase.Runtime.Llm

/-!
# The LLM's queue

Two results about every run of the manager. The queue never stalls: while a
request waits, somebody is there who pumps when they are done. And the queue
keeps its promises: an answer each, leases in arrival order, no more of them
than slots, none while a switch runs.

The invariant is three statements, for three parties. `Serving` is about
requests and leases against the current backend, `Callers` counts the callers
that hold the queue back, and `Settled` says that something does. Most steps
touch none of it (`Quiet`), and the others end in `pump`, which restores
`Settled` from nothing but `Serving`.
-/

namespace LocalBase.Runtime

/-- Whether a caller is the one `claimed` stands for. -/
def Proc.claims : Proc → Bool
  | .unloading _ _ | .unloaded | .claimed | .stopClaimed _ _ => true
  | _ => false

/-- Whether a caller is one of `unloaders`. -/
def Proc.drains : Proc → Bool
  | .draining _ | .unloading _ _ | .unloaded => true
  | _ => false

namespace Llm

variable {m m' : Llm} {t w b : Nat} {q : WaitQueue Lease} {s : Switch} {st : Stop} {e : LlmEvent}
  {p : Proc}

/-! ## The invariant -/

structure Serving (m : Llm) : Prop where
  requests : m.wq.Sound
  active : m.active = m.wq.out.length
  starting : m.starting = m.switch.isSome
  drained : m.starting = true → m.wq.out = []
  room : ∀ b, m.cur = some b → m.wq.out.length ≤ (m.backends b).plan.slots
  closed : m.closed = true → m.wq.queue = []

/-- The callers behind `claimed` and `unloading`. -/
def Callers (m : Llm) : Prop :=
  Holders Proc.claims Proc.drains m.procs m.claimed m.unloaders m.unloading

/-- Somebody holds the queue back, or it is empty. -/
def Settled (m : Llm) : Prop :=
  m.wq.queue ≠ [] →
    m.starting = true ∨ m.claimed = true ∨ m.unloading ≠ "" ∨ 0 < m.active

/-! ## Steps that touch no request -/

/-- Nothing the invariant reads has moved, except that the current backend may
be gone or, with no lease outstanding, another. -/
structure Quiet (m m' : Llm) : Prop where
  wq : m'.wq = m.wq
  active : m'.active = m.active
  starting : m'.starting = m.starting
  switch : m'.switch.isSome = m.switch.isSome
  closed : m'.closed = m.closed
  claimed : m'.claimed = m.claimed
  unloading : m'.unloading = m.unloading
  unloaders : m'.unloaders = m.unloaders
  claims : Proc.claims ∘ m'.procs = Proc.claims ∘ m.procs
  drains : Proc.drains ∘ m'.procs = Proc.drains ∘ m.procs
  cur : ∀ b, m'.cur = some b → m.wq.out = [] ∨ m.cur = some b ∧
    (m'.backends b).plan.slots = (m.backends b).plan.slots

theorem Serving.quiet (h : Serving m) (hq : Quiet m m') : Serving m' := by
  refine ⟨?_, ?_, ?_, ?_, ?_, ?_⟩
  · rw [hq.wq]; exact h.requests
  · rw [hq.wq, hq.active]; exact h.active
  · rw [hq.starting, hq.switch]; exact h.starting
  · rw [hq.starting, hq.wq]; exact h.drained
  · intro b hb
    rw [hq.wq]
    rcases hq.cur b hb with hout | ⟨hcur, hslots⟩
    · rw [hout]; exact Nat.zero_le _
    · rw [hslots]; exact h.room b hcur
  · rw [hq.closed, hq.wq]; exact h.closed

theorem callers_quiet (h : Callers m) (hq : Quiet m m') : Callers m' := by
  refine ⟨?_, ?_, ?_⟩
  · rw [hq.claims, hq.claimed]; exact h.one_claims
  · rw [hq.drains, hq.unloaders]; exact h.all_drain
  · rw [hq.unloading, hq.unloaders]; exact h.named

theorem Settled.quiet (h : Settled m) (hq : Quiet m m') : Settled m' := by
  intro hne
  rw [hq.wq] at hne
  rw [hq.starting, hq.claimed, hq.unloading, hq.active]
  exact h hne

/-! ## The pump -/

theorem pumpLoop_frame (n : Nat) (m : Llm) :
    ∃ active wq starting switch, pumpLoop n m = { m with
      active := active, wq := wq, starting := starting, switch := switch } := by
  induction n generalizing m with
  | zero => exact ⟨_, _, _, _, rfl⟩
  | succ n ih =>
    rw [pumpLoop]
    split
    · split
      · exact ⟨_, _, _, _, rfl⟩
      · next head rest hq =>
        split
        · split
          · exact ⟨_, _, _, _, rfl⟩
          · exact ih _
        · split
          · exact ih _
          · split
            · exact ⟨_, _, _, _, rfl⟩
            · exact ⟨_, _, _, _, rfl⟩
    · exact ⟨_, _, _, _, rfl⟩

theorem pump_frame (m : Llm) :
    ∃ active wq starting switch, pump m = { m with
      active := active, wq := wq, starting := starting, switch := switch } :=
  pumpLoop_frame _ m

@[simp] theorem pump_cur : (pump m).cur = m.cur := by
  obtain ⟨_, _, _, _, h⟩ := pump_frame m
  rw [h]

@[simp] theorem pump_claimed : (pump m).claimed = m.claimed := by
  obtain ⟨_, _, _, _, h⟩ := pump_frame m
  rw [h]

@[simp] theorem pump_unloading : (pump m).unloading = m.unloading := by
  obtain ⟨_, _, _, _, h⟩ := pump_frame m
  rw [h]

@[simp] theorem pump_unloaders : (pump m).unloaders = m.unloaders := by
  obtain ⟨_, _, _, _, h⟩ := pump_frame m
  rw [h]

@[simp] theorem pump_procs : (pump m).procs = m.procs := by
  obtain ⟨_, _, _, _, h⟩ := pump_frame m
  rw [h]

theorem callers_pump (h : Callers m) : Callers (pump m) := by
  rw [Callers, pump_procs, pump_claimed, pump_unloaders, pump_unloading]
  exact h

theorem mayPump_eq_true (h : m.mayPump = true) :
    m.starting = false ∧ m.closed = false := by
  simp only [mayPump, Bool.and_eq_true, Bool.not_eq_true'] at h
  exact ⟨h.1.1.1, h.1.2⟩

theorem Serving.grant (h : Serving m) {rest : List Nat} (hq : m.wq.queue = w :: rest)
    (hm : m.mayPump = true) (hb : m.cur = some b)
    (hroom : m.active < (m.backends b).plan.slots) : Serving (m.grant w b) := by
  obtain ⟨hs, hc⟩ := mayPump_eq_true hm
  have hout : (m.grant w b).wq.out = m.wq.out ++ [w] := rfl
  refine ⟨h.requests.grant hq _, ?_, h.starting, ?_, ?_, ?_⟩
  · show m.active + 1 = _
    rw [hout, h.active]
    simp
  · intro hs'
    exact absurd hs' (by rw [show (m.grant w b).starting = m.starting from rfl, hs]; simp)
  · intro b' hb'
    have hbb : b' = b := Option.some.inj (hb'.symm.trans hb)
    subst hbb
    rw [hout, List.length_append, List.length_singleton]
    show _ ≤ (m.backends b').plan.slots
    rw [h.active] at hroom
    omega
  · intro hc'
    exact absurd hc' (by rw [show (m.grant w b).closed = m.closed from rfl, hc]; simp)

theorem Serving.setQueue (h : Serving m) (hq : q.Sound) (hout : q.out = m.wq.out)
    (hclosed : m.closed = true → q.queue = []) :
    Serving { m with wq := q } := by
  refine ⟨hq, ?_, h.starting, ?_, ?_, hclosed⟩
  · show m.active = _
    rw [hout]; exact h.active
  · intro hs
    rw [hout]; exact h.drained hs
  · intro b hb
    rw [hout]; exact h.room b hb

theorem Serving.fail (h : Serving m) (hw : w ∈ m.wq.queue) (e : Err) :
    Serving (m.fail w e) := by
  refine h.setQueue (h.requests.fail hw e) rfl ?_
  intro hc
  rw [h.closed hc] at hw
  cases hw

theorem Serving.startSwitch (h : Serving m) (hidle : ¬ 0 < m.active) :
    Serving (m.startSwitch w) := by
  have hout : m.wq.out = [] := by
    rw [h.active] at hidle
    exact List.eq_nil_of_length_eq_zero (by omega)
  refine ⟨h.requests.dispatch, h.active, rfl, fun _ => hout, h.room, h.closed⟩

/-- Whatever the pump does, it keeps the promises; and given as many rounds as
there are requests, it stops only behind something. -/
theorem pumpLoop_serving (n : Nat) (h : Serving m) :
    Serving (pumpLoop n m) ∧
      (m.wq.queue.length ≤ n → Settled (pumpLoop n m)) := by
  induction n generalizing m with
  | zero =>
    refine ⟨h, fun hn hne => absurd ?_ hne⟩
    exact List.eq_nil_of_length_eq_zero (Nat.le_zero.mp hn)
  | succ n ih =>
    rw [pumpLoop]
    split
    · next hm =>
      split
      · next hq => exact ⟨h, fun _ hne => absurd hq hne⟩
      · next head rest hq =>
        have hmem : head ∈ m.wq.queue := by
          rw [hq]; exact List.mem_cons_self
        split
        · next b hb =>
          obtain ⟨hcur, _⟩ := Option.filter_eq_some_iff.mp hb
          split
          · next hfull =>
            refine ⟨h, fun _ _ => Or.inr (Or.inr (Or.inr ?_))⟩
            have hpos := (m.backends b).plan.slots_pos
            omega
          · next hfree =>
            have hg := h.grant hq hm hcur (Int.not_le.mp hfree)
            refine ⟨(ih hg).1, fun hn => (ih hg).2 ?_⟩
            show m.wq.queue.tail.length ≤ n
            rw [List.length_tail]
            omega
        · split
          · have hf := h.fail hmem .unavailable
            refine ⟨(ih hf).1, fun hn => (ih hf).2 ?_⟩
            show (m.wq.queue.erase head).length ≤ n
            rw [List.length_erase_of_mem hmem]
            omega
          · split
            · next hactive =>
              exact ⟨h, fun _ _ => Or.inr (Or.inr (Or.inr hactive))⟩
            · next hidle => exact ⟨h.startSwitch hidle, fun _ _ => Or.inl rfl⟩
    · next hm =>
      refine ⟨h, fun _ hne => ?_⟩
      have hopen : m.closed = false := by
        cases hc : m.closed with
        | false => rfl
        | true => exact absurd (h.closed hc) hne
      cases hs : m.starting with
      | true => exact Or.inl rfl
      | false =>
        cases hcl : m.claimed with
        | true => exact Or.inr (Or.inl rfl)
        | false =>
          refine Or.inr (Or.inr (Or.inl ?_))
          simpa [mayPump, hs, hcl, hopen] using hm

theorem Serving.pump (h : Serving m) : Serving (pump m) :=
  (pumpLoop_serving _ h).1

theorem Serving.pump_settled (h : Serving m) : Settled (Llm.pump m) :=
  (pumpLoop_serving _ h).2 (Nat.le_refl _)

/-! ## Quiet steps -/

theorem Quiet.trans {m'' : Llm} (h : Quiet m m') (h' : Quiet m' m'') :
    Quiet m m'' := by
  refine ⟨h'.wq.trans h.wq, h'.active.trans h.active, h'.starting.trans h.starting,
    h'.switch.trans h.switch, h'.closed.trans h.closed, h'.claimed.trans h.claimed,
    h'.unloading.trans h.unloading, h'.unloaders.trans h.unloaders,
    h'.claims.trans h.claims, h'.drains.trans h.drains, ?_⟩
  intro b hb
  rcases h'.cur b hb with hout | ⟨hcur, hslots⟩
  · exact Or.inl (h.wq ▸ hout)
  · rcases h.cur b hcur with hout | ⟨hcur', hslots'⟩
    · exact Or.inl hout
    · exact Or.inr ⟨hcur', hslots.trans hslots'⟩

theorem quiet_refl : Quiet m m :=
  ⟨rfl, rfl, rfl, rfl, rfl, rfl, rfl, rfl, rfl, rfl,
    fun _ hb => Or.inr ⟨hb, rfl⟩⟩

theorem quiet_setSwitch (hs : m.switch.isSome) :
    Quiet m (m.setSwitch s) :=
  ⟨rfl, rfl, rfl, hs.symm, rfl, rfl, rfl, rfl, rfl, rfl,
    fun _ hb => Or.inr ⟨hb, rfl⟩⟩

theorem quiet_cancelSwitch (cause : Err) : Quiet m (m.cancelSwitch cause) :=
  ⟨rfl, rfl, rfl, Option.isSome_map, rfl, rfl, rfl, rfl, rfl, rfl, fun _ hb => Or.inr ⟨hb, rfl⟩⟩

theorem quiet_releaseMemory : Quiet m (m.releaseMemory b) :=
  ⟨rfl, rfl, rfl, rfl, rfl, rfl, rfl, rfl, rfl, rfl,
    fun _ hb => Or.inr ⟨hb, rfl⟩⟩

theorem quiet_setBackend {f : Backend → Backend}
    (hf : (f (m.backends b)).plan = (m.backends b).plan) :
    Quiet m (m.setBackend b f) := by
  refine ⟨rfl, rfl, rfl, rfl, rfl, rfl, rfl, rfl, rfl, rfl, ?_⟩
  intro b' hb'
  refine Or.inr ⟨hb', ?_⟩
  by_cases hbb : b' = b
  · subst hbb
    simp [setBackend, hf]
  · simp [setBackend, Function.update_of_ne hbb]

theorem quiet_dropCur : Quiet m { m with cur := none } :=
  ⟨rfl, rfl, rfl, rfl, rfl, rfl, rfl, rfl, rfl, rfl,
    fun _ hb => by cases hb⟩

theorem quiet_setProc (hc : p.claims = (m.procs t).claims) (hd : p.drains = (m.procs t).drains) :
    Quiet m (m.setProc t p) := by
  refine ⟨rfl, rfl, rfl, rfl, rfl, rfl, rfl, rfl, ?_, ?_,
    fun _ hb => Or.inr ⟨hb, rfl⟩⟩
  · rw [setProc, Function.comp_update, hc]
    exact Function.update_eq_self t (Proc.claims ∘ m.procs)
  · rw [setProc, Function.comp_update, hd]
    exact Function.update_eq_self t (Proc.drains ∘ m.procs)

theorem quiet_fromIdle (ht : m.procs t = .idle) (hc : p.claims = false)
    (hd : p.drains = false) : Quiet m (m.setProc t p) :=
  quiet_setProc (by rw [ht, hc]; rfl) (by rw [ht, hd]; rfl)

theorem stopStep_quiet {next : Option Stop}
    (h : m.stopStep b st = some (m', next)) : Quiet m m' := by
  cases st with
  | clear =>
    cases h
    refine ⟨rfl, rfl, rfl, rfl, rfl, rfl, rfl, rfl, rfl, rfl, ?_⟩
    intro b' hb'
    simp only [] at hb'
    split at hb'
    · cases hb'
    · exact Or.inr ⟨hb', rfl⟩
  | once =>
    simp only [stopStep] at h
    split at h
    · cases h
      exact quiet_setBackend rfl
    · cases h
    · cases h
      exact quiet_refl
  | running =>
    cases h
    exact quiet_releaseMemory.trans (quiet_setBackend rfl)

theorem stopStep_procs {next : Option Stop} (h : m.stopStep b st = some (m', next)) :
    m'.procs = m.procs ∧ m'.switch = m.switch := by
  cases st with
  | clear => cases h; exact ⟨rfl, rfl⟩
  | once =>
    simp only [stopStep] at h
    split at h
    · cases h; exact ⟨rfl, rfl⟩
    · cases h
    · cases h; exact ⟨rfl, rfl⟩
  | running => cases h; exact ⟨rfl, rfl⟩

theorem startFailed_quiet {err : Err} (hs : m.switch.isSome) :
    Quiet m (m.startFailed s err) := by
  unfold startFailed
  split
  · exact quiet_setSwitch hs
  · split
    · exact quiet_setSwitch hs
    · split <;> exact quiet_setSwitch hs

theorem Serving.launch_quiet (h : Serving m) {r : Nat} {new : Backend} (hs : m.switch = some s) :
    Quiet m ({ m with reservation := some r, made := b + 1 }.setBackend b
      fun _ => new) := by
  have hout : m.wq.out = [] := h.drained (by rw [h.starting, hs]; rfl)
  exact ⟨rfl, rfl, rfl, rfl, rfl, rfl, rfl, rfl, rfl, rfl,
    fun _ _ => Or.inl hout⟩

theorem Serving.install_quiet (h : Serving m) {s' : Switch}
    (hs : m.switch = some s') : Quiet m (m.install s b) := by
  have hsome : m.switch.isSome := by rw [hs]; rfl
  unfold install
  split
  · exact quiet_setSwitch hsome
  · split
    · exact (quiet_setBackend (m := m) rfl).trans (quiet_setSwitch hsome)
    · have hout : m.wq.out = [] := h.drained (by rw [h.starting, hs]; rfl)
      have hcur : Quiet m { m with cur := some b } :=
        ⟨rfl, rfl, rfl, rfl, rfl, rfl, rfl, rfl, rfl, rfl,
          fun _ _ => Or.inl hout⟩
      exact (hcur.trans (quiet_setBackend rfl)).trans (quiet_setSwitch hsome)

theorem Serving.switchStep_quiet (h : Serving m) (hs : m.switch = some s) (he : e ≠ .endSwitch)
    (hstep : m.switchStep s e = some m') : Quiet m m' := by
  have hsome : m.switch.isSome := by rw [hs]; rfl
  unfold switchStep at hstep
  split at hstep
  · -- prepare
    split at hstep <;> first | cases hstep; exact quiet_setSwitch hsome | cases hstep
  · -- read
    split at hstep <;> first | cases hstep; exact quiet_setSwitch hsome | cases hstep
  · -- check
    split at hstep <;> first | cases hstep; exact quiet_setSwitch hsome | cases hstep
  · -- switchStop
    split at hstep
    · obtain ⟨⟨m₁, next⟩, hst, heq⟩ := Option.map_eq_some_iff.mp hstep
      subst heq
      refine (stopStep_quiet hst).trans (quiet_setSwitch ?_)
      rw [(stopStep_procs hst).2]
      exact hsome
    · obtain ⟨⟨m₁, next⟩, hst, heq⟩ := Option.map_eq_some_iff.mp hstep
      subst heq
      refine (stopStep_quiet hst).trans (quiet_setSwitch ?_)
      rw [(stopStep_procs hst).2]
      exact hsome
    · cases hstep
  · -- settle
    split at hstep
    · split at hstep <;> cases hstep <;> exact quiet_setSwitch hsome
    · cases hstep
  · -- start
    split at hstep
    · cases hstep; exact quiet_setSwitch hsome
    · cases hstep; exact startFailed_quiet hsome
    · cases hstep; exact quiet_setSwitch hsome
    · cases hstep
  · -- reserve
    split at hstep
    · cases hstep; exact startFailed_quiet hsome
    · cases hstep; exact startFailed_quiet hsome
    · cases hstep
      exact (h.launch_quiet hs).trans (quiet_setSwitch hsome)
    · cases hstep
  · -- load
    split at hstep
    · cases hstep
      exact quiet_releaseMemory.trans (startFailed_quiet hsome)
    · cases hstep; exact quiet_setSwitch hsome
    · cases hstep
  · -- install
    split at hstep
    · cases hstep; exact h.install_quiet hs
    · cases hstep
  · -- retry
    split at hstep
    · split at hstep
      · cases hstep; exact quiet_setSwitch hsome
      · cases hstep
    · cases hstep
  · exact absurd rfl he
  · cases hstep

theorem watchStep_quiet (he : ∀ b', e ≠ .crashPump b')
    (hstep : m.watchStep b e = some m') : Quiet m m' := by
  unfold watchStep at hstep
  split at hstep
  · split at hstep
    · split at hstep
      · cases hstep
        exact quiet_dropCur.trans (quiet_setBackend rfl)
      · cases hstep
        exact quiet_setBackend rfl
    · cases hstep
  · split at hstep
    · cases hstep; exact quiet_setBackend rfl
    · cases hstep; exact quiet_setBackend rfl
    · cases hstep
  · split at hstep
    · cases hstep
      exact quiet_releaseMemory.trans (quiet_setBackend rfl)
    · cases hstep
  · next b' => exact absurd rfl (he b')
  · cases hstep

theorem stopping_keeps {next : Option Stop → Proc} (h : p.stopping = some (b, st, next))
    (st' : Option Stop) :
    (next st').claims = p.claims ∧ (next st').drains = p.drains := by
  unfold Proc.stopping at h
  split at h <;> cases h <;> cases st' <;> exact ⟨rfl, rfl⟩

theorem procStop_quiet {next : Option Stop → Proc} {m₁ : Llm} {st' : Option Stop}
    (hproc : (m.procs t).stopping = some (b, st, next))
    (hst : m.stopStep b st = some (m₁, st')) : Quiet m (m₁.setProc t (next st')) := by
  have hkeep := stopping_keeps hproc st'
  rw [← (stopStep_procs hst).1] at hkeep
  exact (stopStep_quiet hst).trans (quiet_setProc hkeep.1 hkeep.2)

/-! ## The steps -/

structure Inv (m : Llm) : Prop where
  serving : Serving m
  callers : Callers m
  settled : Settled m

theorem Inv.quiet (h : Inv m) (hq : Quiet m m') : Inv m' :=
  ⟨h.serving.quiet hq, callers_quiet h.callers hq, h.settled.quiet hq⟩

theorem inv_pump (hs : Serving m) (hc : Callers m) : Inv (pump m) :=
  ⟨hs.pump, callers_pump hc, hs.pump_settled⟩

theorem Serving.congr (h : Serving m) (hq : m'.wq = m.wq)
    (ha : m'.active = m.active) (hst : m'.starting = m.starting)
    (hsw : m'.switch.isSome = m.switch.isSome) (hc : m'.cur = m.cur)
    (hb : m'.backends = m.backends) (hcl : m'.closed = m.closed) :
    Serving m' := by
  refine ⟨?_, ?_, ?_, ?_, ?_, ?_⟩
  · rw [hq]; exact h.requests
  · rw [hq, ha]; exact h.active
  · rw [hst, hsw]; exact h.starting
  · rw [hst, hq]; exact h.drained
  · rw [hc, hq, hb]; exact h.room
  · rw [hcl, hq]; exact h.closed

theorem Inv.acquire (h : Inv m) (model key : String) :
    Inv (m.acquire model key) := by
  unfold Llm.acquire
  split
  · exact h
  · next hopen =>
    split
    · exact h
    · split
      · exact h
      · refine inv_pump (h.serving.setQueue (h.serving.requests.push model key) rfl
          fun hc => absurd hc hopen) h.callers

theorem Serving.returned (h : Serving m) (hw : w ∈ m.wq.out) (hq : q.Sound)
    (hout : q.out = m.wq.out.erase w) (hqueue : q.queue = m.wq.queue) :
    Serving { m with wq := q, active := m.active - 1 } := by
  have hlen : q.out.length + 1 = m.wq.out.length := by
    have hpos : 0 < m.wq.out.length := List.length_pos_of_mem hw
    rw [hout, List.length_erase_of_mem hw]
    omega
  refine ⟨hq, ?_, h.starting, ?_, ?_, ?_⟩
  · show m.active - 1 = q.out.length
    rw [h.active]
    omega
  · intro hs
    rw [h.drained hs] at hw
    cases hw
  · intro b hb
    have := h.room b hb
    show q.out.length ≤ (m.backends b).plan.slots
    omega
  · intro hc
    show q.queue = []
    rw [hqueue]
    exact h.closed hc

theorem Inv.release (h : Inv m)
    (hcall : (m.wq.waiters w).call = .leased) : Inv (m.release w) := by
  unfold Llm.release
  split
  · exact h
  · next hrel =>
    have hr := h.serving.requests
    have hout : w ∈ m.wq.out := (hr.outstanding w).mpr
      ⟨(hr.requests w).leased (Or.inl hcall), by simpa using hrel⟩
    exact inv_pump (h.serving.returned hout (hr.release hcall) rfl rfl)
      h.callers

theorem Inv.giveBack (h : Inv m) (hcall : (m.wq.waiters w).call = .givingBack) :
    Inv (pump { m with wq := m.wq.giveBack w, active := m.active - 1 }) :=
  inv_pump (h.serving.returned (h.serving.requests.out_of_givingBack hcall)
    (h.serving.requests.giveBack hcall) rfl rfl) h.callers

theorem Inv.receive (h : Inv m) (hq : m.wq.receive w = some q) : Inv { m with wq := q } := by
  obtain ⟨hqueue, hout⟩ := WaitQueue.receive_frame hq
  refine ⟨h.serving.setQueue (h.serving.requests.receive hq) hout ?_,
    h.callers, ?_⟩
  · rw [hqueue]
    exact h.serving.closed
  · intro hne
    exact h.settled (hqueue ▸ hne)

theorem Inv.cancel (h : Inv m) (hq : m.wq.cancel w = some q) : Inv (pump { m with wq := q }) := by
  obtain ⟨hqueue, hout⟩ := WaitQueue.cancel_frame hq
  refine inv_pump (h.serving.setQueue (h.serving.requests.cancel hq) hout ?_)
    h.callers
  intro hc
  rw [hqueue, h.serving.closed hc]
  rfl

theorem Inv.timeout (h : Inv m) (hcall : (m.wq.waiters w).call = .waiting)
    (ht : m.wq.timesOut w = true) :
    Inv (pump { m with wq := m.wq.timeout w }) := by
  refine inv_pump (h.serving.setQueue (h.serving.requests.timeout hcall ht) rfl ?_)
    h.callers
  intro hc
  show m.wq.queue.erase w = []
  rw [h.serving.closed hc]
  rfl

theorem Inv.endSwitch (h : Inv m) {err : Option Err} :
    Inv (m.endSwitch s err) := by
  have hdone : Serving { m with
      starting := false, switch := none
      failed := err.isSome && m.cur.isNone && s.cancelled.isNone } :=
    ⟨h.serving.requests, h.serving.active, rfl, fun hs => Bool.noConfusion hs,
      h.serving.room, h.serving.closed⟩
  unfold Llm.endSwitch
  cases err with
  | none => exact inv_pump hdone h.callers
  | some e =>
    obtain ⟨hout, hsub⟩ := WaitQueue.failWhile_frame
      (fun r => r.model == s.model && r.key == s.key) e m.wq.queue.length m.wq
    refine inv_pump (hdone.setQueue (h.serving.requests.failWhile _ e _) hout ?_)
      h.callers
    intro hc
    rw [h.serving.closed hc] at hsub ⊢
    exact List.sublist_nil.mp hsub

theorem Inv.failAll (h : Inv m) (err : Err) :
    Inv { m with wq := m.wq.failAll err } := by
  have hq := WaitQueue.failAll_queue m.wq err
  refine ⟨h.serving.setQueue (h.serving.requests.failWhile _ err _)
    (WaitQueue.failWhile_frame _ err _ m.wq).1 fun _ => hq,
    h.callers, fun hne => absurd hq hne⟩

theorem Inv.emergencyStop (h : Inv m) {reason : Err}
    (ht : m.procs t = .idle) : Inv (m.emergencyStop t reason) := by
  have hbase := (h.failAll reason).quiet (quiet_cancelSwitch reason)
  unfold Llm.emergencyStop
  simp only []
  split
  · exact hbase
  · exact (hbase.quiet (quiet_setBackend rfl)).quiet
      (quiet_fromIdle ht rfl rfl)

theorem Inv.stopLoads (h : Inv m) : Inv m.stopLoads := by
  have hbase := (h.quiet (quiet_cancelSwitch .unavailable))
  exact inv_pump (m := { m with stopping := true }.cancelSwitch .unavailable)
    (hbase.serving.congr rfl rfl rfl rfl rfl rfl rfl)
    hbase.callers

theorem Inv.close (h : Inv m) (ht : m.procs t = .idle) :
    Inv (m.close t) := by
  have hbase := h.failAll .unavailable
  have hq := WaitQueue.failAll_queue m.wq .unavailable
  have hclosed : Inv { m with closed := true, wq := m.wq.failAll .unavailable } :=
    ⟨⟨hbase.serving.requests, hbase.serving.active, hbase.serving.starting,
      hbase.serving.drained, hbase.serving.room, fun _ => hq⟩,
      hbase.callers, fun hne => absurd hq hne⟩
  exact (hclosed.quiet (quiet_cancelSwitch _)).quiet
    (quiet_fromIdle ht rfl rfl)

theorem Inv.unload (h : Inv m) {model : String} {now : Bool}
    (ht : m.procs t = .idle) : Inv (m.unload t model now) := by
  unfold Llm.unload
  split
  · exact h
  · next b hb =>
    split
    · exact h
    · next hfree =>
      split
      · exact h
      · obtain ⟨hout, hsub⟩ := WaitQueue.failMatching_frame
          (fun r => r.model == model && !r.dispatching) .unloading m.wq
        have hq := h.serving.requests.failMatching
          (fun r => r.model == model && !r.dispatching) .unloading
        have hs := h.serving.setQueue hq hout fun hc => by
          rw [h.serving.closed hc] at hsub
          exact List.sublist_nil.mp hsub
        simp only [Bool.or_eq_true, Bool.and_eq_true, bne_iff_ne, not_or,
          not_and_or, ne_eq, not_not] at hfree
        refine ⟨hs.congr rfl rfl rfl rfl rfl rfl rfl, ?_, ?_⟩
        · refine h.callers.drain (t := t) (p := .draining b) model ?_ ?_ rfl
          all_goals rw [ht]; rfl
        · -- Only the name under which the queue is held may be new.
          intro hne
          have hne' : m.wq.queue ≠ [] := fun h0 =>
            hne (List.sublist_nil.mp (h0 ▸ hsub))
          show m.starting = true ∨ m.claimed = true ∨ model ≠ "" ∨ 0 < m.active
          rcases h.settled hne' with hst | hcl | hun | hact
          · exact absurd hst (by simp [hfree.1])
          · exact Or.inr (Or.inl hcl)
          · rcases hfree.2 with h0 | h0
            · exact absurd h0 hun
            · exact Or.inr (Or.inr (Or.inl (h0 ▸ hun)))
          · exact Or.inr (Or.inr (Or.inr hact))

theorem Inv.endUnload (h : Inv m) {c : Bool} (hdrains : (m.procs t).drains = true)
    (hclaimed : (c.toNat : Int) = m.claimed.toNat - (m.procs t).claims.toNat) :
    Inv (({ m with claimed := c }.setProc t .idle).endUnload) := by
  refine inv_pump (h.serving.congr rfl rfl rfl rfl rfl rfl rfl) ?_
  exact h.callers.undrain hclaimed hdrains rfl rfl

theorem Inv.unloadPoll (h : Inv m) {late : Bool}
    (ht : m.procs t = .draining b) : Inv (m.unloadPoll t b late) := by
  have hend : Inv ((m.setProc t .idle).endUnload) := by
    exact h.endUnload (t := t) (c := m.claimed) (by rw [ht]; rfl)
      (by rw [ht]; show _ = _ - ((0 : Nat) : Int); omega)
  unfold Llm.unloadPoll
  split
  · exact hend
  · split
    · next hidle =>
      refine ⟨h.serving.congr rfl rfl rfl rfl rfl rfl rfl, ?_,
        fun _ => Or.inr (Or.inl rfl)⟩
      refine h.callers.claim (t := t) (p := .unloading b .clear) hidle.2.2 ?_
        rfl ?_
      all_goals rw [ht]; rfl
    · split
      · exact hend
      · exact h

theorem Inv.unloadEnd (h : Inv m) (ht : m.procs t = .unloaded) :
    Inv (m.unloadEnd t) := by
  have hclaimed := h.callers.claimed_of (t := t) (by rw [ht]; rfl)
  exact h.endUnload (t := t) (c := false) (by rw [ht]; rfl)
    (by rw [ht, hclaimed]; rfl)

theorem Inv.claimIdle (h : Inv m) (ht : m.procs t = .idle) :
    Inv (m.claimIdle t) := by
  unfold Llm.claimIdle
  split
  · exact h
  · next hidle =>
    simp only [not_or, Bool.not_eq_true] at hidle
    refine ⟨h.serving.congr rfl rfl rfl rfl rfl rfl rfl, ?_,
      fun _ => Or.inr (Or.inl rfl)⟩
    refine h.callers.claim (t := t) (p := .claimed) hidle.2.2.2.1 ?_ rfl ?_
    all_goals rw [ht]; rfl

theorem Inv.unclaim (h : Inv m) (ht : m.procs t = .claimed) :
    Inv (m.unclaim t) := by
  have hclaimed := h.callers.claimed_of (t := t) (by rw [ht]; rfl)
  unfold Llm.unclaim
  rw [if_pos hclaimed]
  refine inv_pump (h.serving.congr rfl rfl rfl rfl rfl rfl rfl) ?_
  refine h.callers.unclaim (t := t) (p := .idle) ?_ rfl ?_
  all_goals rw [ht]; rfl

theorem Inv.step (h : Inv m) (hstep : step m e = some m') :
    Inv m' := by
  cases does_of_step hstep with
  | acquire => exact h.acquire _ _
  | receive hq => exact h.receive hq
  | cancel hq => exact h.cancel hq
  | giveBack hcall => exact h.giveBack hcall
  | timeout hcall ht => exact h.timeout hcall ht
  | late | stopNothing => exact h
  | release hcall => exact h.release hcall
  | endSwitch => exact h.endSwitch
  | switch hs he hswitch => exact h.quiet (h.serving.switchStep_quiet hs he hswitch)
  | watch he hwatch => exact h.quiet (watchStep_quiet he hwatch)
  | @crashPump b =>
    have hq := h.quiet (quiet_setBackend (b := b) (f := ({ · with watch := .off })) rfl)
    exact inv_pump hq.serving hq.callers
  | emergencyStop ht => exact h.emergencyStop ht
  | stopLoads => exact h.stopLoads
  | close ht => exact h.close ht
  | closed ht => exact h.quiet (quiet_setProc (by rw [ht]; rfl) (by rw [ht]; rfl))
  | closeStop ht => exact h.quiet (quiet_setProc (by rw [ht]; rfl) (by rw [ht]; rfl))
  | unload ht => exact h.unload ht
  | unloadPoll ht => exact h.unloadPoll ht
  | unloadEnd ht => exact h.unloadEnd ht
  | claimIdle ht => exact h.claimIdle ht
  | stopClaimed ht => exact h.quiet (quiet_setProc (by rw [ht]; rfl) (by rw [ht]; rfl))
  | unclaim ht => exact h.unclaim ht
  | procStop hproc hst => exact h.quiet (procStop_quiet hproc hst)

theorem inv_init {capacity : Nat} : Inv { capacity := capacity } where
  serving := ⟨WaitQueue.sound_empty, rfl, rfl, fun hs => Bool.noConfusion hs,
    fun _ hb => (by cases hb), fun hc => Bool.noConfusion hc⟩
  callers := holders_none (fun _ => rfl) fun _ => rfl
  settled := fun hne => absurd rfl hne

theorem inv_of_reachable (h : Machine.Reachable llm m) : Inv m := by
  refine h.invariant ?_ fun s e t hs he => hs.step he
  rintro s ⟨capacity, rfl⟩
  exact inv_init

/-! ## The queue never stalls -/

/-- Somebody who will pump the queue when they are done: a switch, whose last
section pumps; the claimer or the `Unload` that holds the queue; or a lease,
whose release pumps, on its way to its caller, with it, or being given back.
A crash needs no place of its own here: it never takes the last of these
away. -/
inductive Blocker (m : Llm) : Prop
  | switch (s : Switch) : m.starting = true → m.switch = some s → Blocker m
  | claim (t : Nat) : m.claimed = true → (m.procs t).claims = true → Blocker m
  | unload (t : Nat) : m.unloading ≠ "" → (m.procs t).drains = true → Blocker m
  | lease (w : Nat) : 0 < m.active → w ∈ m.wq.out →
      ((m.wq.waiters w).call = .waiting ∧ (m.wq.waiters w).ready = some none ∨
        (m.wq.waiters w).call = .leased ∨
        (m.wq.waiters w).call = .givingBack) → Blocker m

/-- Whenever the lock is free and a request waits, it waits behind somebody. -/
theorem queue_never_stalls (h : Machine.Reachable llm m)
    (hq : m.wq.queue ≠ []) : Blocker m := by
  obtain ⟨hs, hc, hsettled⟩ := inv_of_reachable h
  rcases hsettled hq with hst | hcl | hun | hact
  · have hsw := hs.starting
    rw [hst] at hsw
    obtain ⟨s, hsome⟩ := Option.isSome_iff_exists.mp hsw.symm
    exact .switch s hst hsome
  · obtain ⟨t, ht⟩ := hc.exists_claims hcl
    exact .claim t hcl ht
  · obtain ⟨t, ht⟩ := hc.exists_drains hun
    exact .unload t hun ht
  · have hlen : 0 < m.wq.out.length := by
      rw [hs.active] at hact
      omega
    obtain ⟨w, hw⟩ := List.exists_mem_of_length_pos hlen
    exact .lease w hact hw (hs.requests.call_of_out hw)

/-- A model loads for one request while another, for a second model, is
queued behind it. -/
def twoModels : List LlmEvent :=
  [.acquire "llama" "", .prepare none, .read, .check none, .start none,
    .reserve (.one 4096) none, .load none, .install, .endSwitch, .receive 0, .acquire "qwen" ""]

theorem second_model_waits :
    Blocker (llm.after { capacity := 2 } twoModels) :=
  queue_never_stalls
    (Machine.reachable_after ⟨2, rfl⟩ (by decide)) (by decide)

/-! ## The queue keeps its promises -/

/-- In every run: each request is answered at most once, and a lease goes to
its caller or is given back, one of the two; leases are granted in arrival
order, so none overtakes an older request still waiting; no more are out than
the current backend has slots; and none is out while a switch runs. -/
theorem queue_keeps_promises (h : Machine.Reachable llm m) :
    (∀ w, m.wq.Served w) ∧
      (m.wq.grants ++ m.wq.queue).Pairwise (· < ·) ∧
      (∀ b, m.cur = some b → m.wq.out.length ≤ (m.backends b).plan.slots) ∧
      (m.starting = true → m.wq.out = [] ∧ m.active = 0) := by
  obtain ⟨hs, -, -⟩ := inv_of_reachable h
  refine ⟨hs.requests.served, hs.requests.ordered, hs.room, fun hst => ?_⟩
  have hout := hs.drained hst
  refine ⟨hout, ?_⟩
  rw [hs.active, hout]
  rfl

theorem two_models_keep_promises :
    (∀ w, (llm.after { capacity := 2 } twoModels).wq.Served w) ∧
      ((llm.after { capacity := 2 } twoModels).wq.grants ++
        (llm.after { capacity := 2 } twoModels).wq.queue).Pairwise (· < ·) ∧
      (∀ b, (llm.after { capacity := 2 } twoModels).cur = some b →
        (llm.after { capacity := 2 } twoModels).wq.out.length ≤
          ((llm.after { capacity := 2 } twoModels).backends b).plan.slots) ∧
      ((llm.after { capacity := 2 } twoModels).starting = true →
        (llm.after { capacity := 2 } twoModels).wq.out = [] ∧
          (llm.after { capacity := 2 } twoModels).active = 0) :=
  queue_keeps_promises (Machine.reachable_after ⟨2, rfl⟩ (by decide))

end Llm

end LocalBase.Runtime
