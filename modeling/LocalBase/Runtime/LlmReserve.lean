import LocalBase.Runtime.LlmQueue

/-!
# Room for the LLM's next start

The LLM has one memory reservation at a time, and a start asks for it when the
backend before it should have given its own up. `Room` follows the reservation
from hand to hand: while it is held for a backend, that backend is current, or
the switch is loading or stopping it, or a caller or its watcher is.

All of these but two hold the queue back, or are the switch itself. The two are
`EmergencyStop` and the watcher of a crashed backend: they take the backend out
of `cur` in one section and release its memory later, and a switch that reads
`cur` in between finds nobody to wait for. `Lingering` is that window, and
outside it a switch always comes to `Reserve` with the reservation free.
-/

namespace LocalBase.Runtime

/-- The backend a switch is stopping, loading or about to stop. -/
def Switch.about (s : Switch) : Option Nat :=
  match s.pc with
  | .check | .stopPrev _ => s.prev
  | .load b | .install b | .stopNew b _ _ => some b
  | _ => none

/-- Whether a switch has still to read `cur`, or is over. -/
def Switch.outside (s : Switch) : Bool :=
  match s.pc with
  | .prepare | .read | .finish _ => true
  | _ => false

namespace Llm

variable {m m' : Llm} {b t : Nat} {s : Switch} {e : LlmEvent}

/-- Who has the reservation of backend `b` to give back. -/
inductive Keeper (m : Llm) (b : Nat) : Prop
  | current : m.cur = some b → Keeper m b
  | switch (s : Switch) : m.switch = some s → s.pc ≠ .check →
      s.about = some b → Keeper m b
  | proc (t : Nat) (st : Stop) (next : Option Stop → Proc) :
      (m.procs t).stopping = some (b, st, next) → Keeper m b
  | watch : (m.backends b).watch = .crashed ∨
      (m.backends b).watch = .releasing → Keeper m b

structure Room (m : Llm) : Prop where
  keeper : ∀ b, m.reservation = some b → Keeper m b
  released : ∀ b, (m.backends b).stopOnce = .done → m.reservation ≠ some b
  place : ∀ s, m.switch = some s → s.outside = false →
    ∀ b, m.reservation = some b → s.about = some b
  claimed : m.starting = true → m.claimed = false
  closing : ∀ t, m.procs t = .closing → m.closed = true
  stopped : ∀ t b st, m.procs t = .closeStop b st →
    m.closed = true ∧ m.switch = none

/-! ## Moves -/

theorem Room.setSwitch (h : Room m) {s' : Switch} (hs : m.switch = some s)
    (hkeep : ∀ b, m.reservation = some b → s.pc ≠ .check → s.about = some b →
      s'.pc ≠ .check ∧ s'.about = some b) (hplace : s'.outside = false →
      ∀ b, m.reservation = some b → s'.about = some b) :
    Room (m.setSwitch s') := by
  refine ⟨?_, h.released, ?_, h.claimed, h.closing, ?_⟩
  · intro b hb
    rcases h.keeper b hb with hc | ⟨r, hr, hpc, hab⟩ | ⟨t, st, next, ht⟩ | hw
    · exact .current hc
    · obtain rfl : s = r := Option.some.inj (hs.symm.trans hr)
      obtain ⟨hpc', hab'⟩ := hkeep b hb hpc hab
      exact .switch s' rfl hpc' hab'
    · exact .proc t st next ht
    · exact .watch hw
  · intro r hr
    cases hr
    exact hplace
  · intro t b st ht
    have := (h.stopped t b st ht).2
    rw [hs] at this
    cases this

theorem Room.sameSwitch (h : Room m) {s' : Switch} (hs : m.switch = some s)
    (hpc : s.pc ≠ .check → s'.pc ≠ .check) (hab : s'.about = s.about)
    (hout : s'.outside = s.outside) : Room (m.setSwitch s') := by
  refine h.setSwitch hs (fun b _ hc hb => ⟨hpc hc, hab.trans hb⟩) ?_
  intro hout' b hb
  rw [hab]
  exact h.place s hs (hout ▸ hout') b hb

theorem Room.freeSwitch (h : Room m) {s' : Switch} (hs : m.switch = some s)
    (hfree : m.reservation = none) : Room (m.setSwitch s') := by
  refine h.setSwitch hs ?_ ?_
  · intro b hb
    rw [hfree] at hb
    cases hb
  · intro _ b hb
    rw [hfree] at hb
    cases hb

theorem Room.free (h : Room m) (hs : m.switch = some s) (hout : s.outside = false)
    (hab : s.about = none) : m.reservation = none := by
  cases hr : m.reservation with
  | none => rfl
  | some b =>
    have := h.place s hs hout b hr
    rw [hab] at this
    cases this

theorem Room.releaseMemory (h : Room m) (b : Nat) : Room (m.releaseMemory b) := by
  have hsub : ∀ b', (m.releaseMemory b).reservation = some b' →
      m.reservation = some b' := by
    intro b' hb'
    simp only [Llm.releaseMemory] at hb'
    split at hb'
    · cases hb'
    · exact hb'
  refine ⟨?_, fun b' hd hb' => h.released b' hd (hsub b' hb'),
    fun s hs ho b' hb' => h.place s hs ho b' (hsub b' hb'), h.claimed, h.closing,
    h.stopped⟩
  intro b' hb'
  rcases h.keeper b' (hsub b' hb') with hc | ⟨r, hr, hpc, hab⟩ | ⟨t, st, next, ht⟩ | hw
  · exact .current hc
  · exact .switch r hr hpc hab
  · exact .proc t st next ht
  · exact .watch hw

theorem releaseMemory_ne (b : Nat) : (m.releaseMemory b).reservation ≠ some b := by
  simp only [Llm.releaseMemory]
  split
  · simp
  · assumption

theorem Room.released_set (h : Room m) {f : Backend → Backend}
    (hdone : (f (m.backends b)).stopOnce = .done → m.reservation ≠ some b) :
    ∀ b', ((m.setBackend b f).backends b').stopOnce = .done →
      m.reservation ≠ some b' := by
  intro b' hd
  by_cases hbb : b' = b
  · subst hbb
    rw [show (m.setBackend b' f).backends b' = f (m.backends b') from
      Function.update_self _ _ _] at hd
    exact hdone hd
  · rw [show (m.setBackend b f).backends b' = m.backends b' from
      Function.update_of_ne hbb _ _] at hd
    exact h.released b' hd

/-- A backend's own record changes: a watcher that had its memory to release
keeps it, unless that is done. -/
theorem Room.setBackend (h : Room m) {f : Backend → Backend} (hwatch : m.reservation = some b →
      (m.backends b).watch = .crashed ∨ (m.backends b).watch = .releasing →
      (f (m.backends b)).watch = .crashed ∨ (f (m.backends b)).watch = .releasing)
    (hdone : (f (m.backends b)).stopOnce = .done → m.reservation ≠ some b) :
    Room (m.setBackend b f) := by
  have hself : (m.setBackend b f).backends b = f (m.backends b) :=
    Function.update_self _ _ _
  have hne : ∀ b', b' ≠ b → (m.setBackend b f).backends b' = m.backends b' :=
    fun b' hb' => Function.update_of_ne hb' _ _
  refine ⟨?_, h.released_set hdone, h.place, h.claimed, h.closing, h.stopped⟩
  intro b' hb'
  rcases h.keeper b' hb' with hc | ⟨r, hr, hpc, hab⟩ | ⟨t, st, next, ht⟩ | hw
  · exact .current hc
  · exact .switch r hr hpc hab
  · exact .proc t st next ht
  · refine .watch ?_
    by_cases hbb : b' = b
    · subst hbb
      rw [hself]
      exact hwatch hb' hw
    · rw [hne b' hbb]
      exact hw

/-- A caller moves on from a stop of a backend that is no longer reserved, or
to another step of it. -/
theorem Room.setProc (h : Room m) {p : Proc}
    (hstop : ∀ b st next, (m.procs t).stopping = some (b, st, next) →
      m.reservation = some b → ∃ st' next', p.stopping = some (b, st', next'))
    (hclosing : p = .closing → m.closed = true)
    (hstopped : ∀ b st, p = .closeStop b st → m.closed = true ∧ m.switch = none) :
    Room (m.setProc t p) := by
  have hself : (m.setProc t p).procs t = p := Function.update_self _ _ _
  have hne : ∀ t', t' ≠ t → (m.setProc t p).procs t' = m.procs t' :=
    fun t' ht' => Function.update_of_ne ht' _ _
  refine ⟨?_, h.released, h.place, h.claimed, ?_, ?_⟩
  · intro b hb
    rcases h.keeper b hb with hc | ⟨r, hr, hpc, hab⟩ | ⟨t', st, next, ht⟩ | hw
    · exact .current hc
    · exact .switch r hr hpc hab
    · by_cases htt : t' = t
      · subst htt
        obtain ⟨st', next', hp⟩ := hstop b st next ht hb
        exact .proc t' st' next' (by rw [hself]; exact hp)
      · exact .proc t' st next (by rw [hne t' htt]; exact ht)
    · exact .watch hw
  · intro t' ht'
    by_cases htt : t' = t
    · subst htt
      rw [hself] at ht'
      exact hclosing ht'
    · rw [hne t' htt] at ht'
      exact h.closing t' ht'
  · intro t' b st ht'
    by_cases htt : t' = t
    · subst htt
      rw [hself] at ht'
      exact hstopped b st ht'
    · rw [hne t' htt] at ht'
      exact h.stopped t' b st ht'

/-- A step of `stopBackend(b)`, by somebody who keeps `b` whether it is current
or not. A stop that returned has left nothing reserved for `b`. -/
theorem Room.stopStep (h : Room m) {st : Stop} {next : Option Stop}
    (hkeep : Keeper { m with cur := none } b) (hst : m.stopStep b st = some (m', next)) :
    Room m' ∧ (next = none → m'.reservation ≠ some b) := by
  cases st with
  | clear =>
    cases hst
    refine ⟨⟨?_, h.released, h.place, h.claimed, h.closing, h.stopped⟩,
      fun hn => by cases hn⟩
    intro b' hb'
    rcases h.keeper b' hb' with hc | ⟨r, hr, hpc, hab⟩ | ⟨t, st, next, ht⟩ | hw
    · by_cases hbb : b' = b
      · subst hbb
        rcases hkeep with hc' | ⟨r, hr, hpc, hab⟩ | ⟨t, st, next, ht⟩ | hw
        · cases hc'
        · exact .switch r hr hpc hab
        · exact .proc t st next ht
        · exact .watch hw
      · have hcur : m.cur ≠ some b := by
          rw [hc]
          exact fun he => hbb (Option.some.inj he)
        refine .current ?_
        show (if m.cur = some b then none else m.cur) = some b'
        rw [if_neg hcur]
        exact hc
    · exact .switch r hr hpc hab
    · exact .proc t st next ht
    · exact .watch hw
  | once =>
    simp only [Llm.stopStep] at hst
    split at hst
    · cases hst
      exact ⟨h.setBackend (fun _ hw => hw) (fun hd => Once.noConfusion hd),
        fun hn => by cases hn⟩
    · cases hst
    · next hd =>
      cases hst
      exact ⟨h, fun _ => h.released b hd⟩
  | running =>
    cases hst
    refine ⟨(h.releaseMemory b).setBackend (fun _ hw => hw)
      (fun _ => releaseMemory_ne b), fun _ => releaseMemory_ne b⟩

theorem Room.congr (h : Room m) (hr : m'.reservation = m.reservation)
    (hcur : m'.cur = m.cur) (hsw : m'.switch = m.switch)
    (hst : m'.starting = m.starting) (hcl : m'.claimed = m.claimed)
    (hc : m.closed = true → m'.closed = true) (hb : m'.backends = m.backends)
    (hp : m'.procs = m.procs) : Room m' := by
  refine ⟨?_, ?_, ?_, ?_, ?_, ?_⟩
  · intro b hres
    rcases h.keeper b (hr ▸ hres) with hk | ⟨r, hk, hpc, hab⟩ | ⟨t, st, next, hk⟩ | hk
    · exact .current (hcur ▸ hk)
    · exact .switch r (hsw ▸ hk) hpc hab
    · exact .proc t st next (hp ▸ hk)
    · exact .watch (hb ▸ hk)
  · rw [hb, hr]; exact h.released
  · rw [hsw, hr]; exact h.place
  · rw [hst, hcl]; exact h.claimed
  · intro t ht
    exact hc (h.closing t (hp ▸ ht))
  · intro t b st ht
    have := h.stopped t b st (hp ▸ ht)
    exact ⟨hc this.1, hsw ▸ this.2⟩

/-! ## The pump -/

theorem pumpLoop_switch (n : Nat) (m : Llm) :
    (pumpLoop n m).switch = m.switch ∧ (pumpLoop n m).starting = m.starting ∨
      m.mayPump = true ∧ ∃ model key,
        (pumpLoop n m).switch = some { model := model, key := key } := by
  induction n generalizing m with
  | zero => exact Or.inl ⟨rfl, rfl⟩
  | succ n ih =>
    rw [pumpLoop]
    split
    · next hm =>
      split
      · exact Or.inl ⟨rfl, rfl⟩
      · next head rest hq =>
        split
        · split
          · exact Or.inl ⟨rfl, rfl⟩
          · next b _ _ =>
            rcases ih (m.grant head b) with h | ⟨_, h⟩
            · exact Or.inl h
            · exact Or.inr ⟨hm, h⟩
        · split
          · rcases ih (m.fail head .unavailable) with h | ⟨_, h⟩
            · exact Or.inl h
            · exact Or.inr ⟨hm, h⟩
          · split
            · exact Or.inl ⟨rfl, rfl⟩
            · exact Or.inr ⟨hm, _, _, rfl⟩
    · exact Or.inl ⟨rfl, rfl⟩

theorem Room.pump (h : Room m) (hs : m.starting = m.switch.isSome) :
    Room (pump m) := by
  obtain ⟨active, wq, starting, switch, hframe⟩ := pump_frame m
  rcases pumpLoop_switch m.wq.queue.length m with ⟨hsw, hst⟩ | ⟨hm, model, key, hsw⟩
  · refine h.congr ?_ ?_ hsw hst ?_ ?_ ?_ ?_ <;> simp [hframe]
  · have hidle : m.switch = none := by
      have := (mayPump_eq_true hm).1
      rw [hs] at this
      simpa using this
    have hfree : m.claimed = false ∧ m.closed = false := by
      simp only [mayPump, Bool.and_eq_true, Bool.not_eq_true'] at hm
      exact ⟨hm.1.1.2, hm.1.2⟩
    have hsw' : (Llm.pump m).switch = some { model := model, key := key } := hsw
    have hp : (Llm.pump m).procs = m.procs := pump_procs
    have hclosed : (Llm.pump m).closed = m.closed := by rw [hframe]
    have hback : (Llm.pump m).backends = m.backends := by rw [hframe]
    have hres : (Llm.pump m).reservation = m.reservation := by rw [hframe]
    refine ⟨?_, ?_, ?_, ?_, ?_, ?_⟩
    · intro b hb
      rcases h.keeper b (hres ▸ hb) with hk | ⟨r, hk, _, _⟩ | ⟨t, st, next, hk⟩ | hk
      · exact .current (pump_cur.trans hk)
      · rw [hidle] at hk
        cases hk
      · exact .proc t st next (hp ▸ hk)
      · exact .watch (hback ▸ hk)
    · rw [hback, hres]; exact h.released
    · intro r hr ho
      obtain rfl := Option.some.inj (hsw'.symm.trans hr)
      cases ho
    · intro _
      rw [pump_claimed]
      exact hfree.1
    · rw [hp, hclosed]; exact h.closing
    · intro t b st ht
      have := (h.stopped t b st (hp ▸ ht)).1
      rw [hfree.2] at this
      cases this

theorem Room.cancelSwitch (h : Room m) (cause : Err) :
    Room (m.cancelSwitch cause) := by
  cases hs : m.switch with
  | none =>
    refine h.congr rfl rfl ?_ rfl rfl id rfl rfl
    simp [Llm.cancelSwitch, hs]
  | some s =>
    have hset : Room (m.setSwitch { s with
        cancelled := some (s.cancelled.getD cause) }) :=
      h.sameSwitch hs id rfl rfl
    refine hset.congr rfl rfl ?_ rfl rfl id rfl rfl
    simp [Llm.cancelSwitch, Llm.setSwitch, hs]

/-! ## The window -/

/-- Backend `b` was taken out of `cur` by `EmergencyStop`, or by the watcher
that saw it crash, and its memory is still reserved. -/
def Lingering (m : Llm) (b : Nat) : Prop :=
  m.reservation = some b ∧ m.cur ≠ some b ∧
    ((∃ t st, m.procs t = .emergency b st) ∨
      (m.backends b).watch = .crashed ∨ (m.backends b).watch = .releasing)

/-- A switch reads `cur` outside the window. -/
def ReadsClear (m : Llm) (e : LlmEvent) : Prop :=
  e = .read → ∀ b, ¬ Lingering m b

/-- Outside the window, what is reserved is reserved for the current backend:
whoever else keeps one holds the queue back, or has seen the last switch. -/
theorem Room.read_current (h : Room m) (hc : Callers m) (hst : m.starting = m.switch.isSome)
    (hs : m.switch = some s) (hpc : s.pc = .read) (hclear : ∀ b, ¬ Lingering m b) (b : Nat)
    (hb : m.reservation = some b) : m.cur = some b := by
  rcases h.keeper b hb with hk | ⟨r, hk, _, hab⟩ | ⟨t, st, next, hk⟩ | hk
  · exact hk
  · obtain rfl : s = r := Option.some.inj (hs.symm.trans hk)
    rw [Switch.about, hpc] at hab
    cases hab
  · by_contra hcur
    have hfree : m.claimed = false := h.claimed (by rw [hst, hs]; rfl)
    have hnoclaim : (m.procs t).claims = false := by
      cases hcl : (m.procs t).claims with
      | false => rfl
      | true => rw [hc.claimed_of hcl] at hfree; cases hfree
    cases hp : m.procs t with
    | emergency b' st' =>
      rw [hp] at hk
      cases hk
      exact hclear b ⟨hb, hcur, Or.inl ⟨t, st, hp⟩⟩
    | closeStop b' st' =>
      have := (h.stopped t b' st' hp).2
      rw [hs] at this
      cases this
    | unloading b' st' => rw [hp] at hnoclaim; cases hnoclaim
    | stopClaimed b' st' => rw [hp] at hnoclaim; cases hnoclaim
    | idle | draining | unloaded | claimed | closing =>
      rw [hp] at hk
      cases hk
  · by_contra hcur
    exact hclear b ⟨hb, hcur, Or.inr hk⟩

/-! ## The switch -/

theorem Room.leaveSwitch (h : Room m) {s' : Switch} (hs : m.switch = some s)
    (hno : s.pc = .check ∨ s.about = none) (hout : s'.outside = true) :
    Room (m.setSwitch s') := by
  refine h.setSwitch hs ?_ fun ho => ?_
  · intro b _ hpc hab
    rcases hno with hc | hn
    · exact absurd hc hpc
    · rw [hn] at hab
      cases hab
  · rw [hout] at ho
    cases ho

theorem Room.startFailed (h : Room m) {s' : Switch} {err : Err} (hs : m.switch = some s)
    (hfree : m.reservation = none) :
    Room (m.startFailed s' err) := by
  unfold Llm.startFailed
  split
  · exact h.freeSwitch hs hfree
  · split
    · exact h.freeSwitch hs hfree
    · split <;> exact h.freeSwitch hs hfree

theorem Room.launch (h : Room m) {new : Backend} (hs : m.switch = some s)
    (hnew : new.stopOnce = .idle) :
    Room (({ m with
      reservation := some m.made, made := m.made + 1 }.setBackend m.made
        fun _ => new).setSwitch { s with pc := .load m.made }) := by
  refine ⟨?_, ?_, ?_, h.claimed, h.closing, ?_⟩
  · intro b hb
    exact .switch _ rfl (fun hpc => by cases hpc) hb
  · intro b hd hb
    cases hb
    have hself : Function.update m.backends m.made new m.made = new :=
      Function.update_self _ _ _
    rw [show ((({ m with
      reservation := some m.made, made := m.made + 1 } : Llm).setBackend m.made
        fun _ => new).setSwitch { s with pc := .load m.made }).backends m.made =
          Function.update m.backends m.made new m.made from rfl, hself, hnew] at hd
    cases hd
  · intro r hr _ b hb
    cases hr
    exact hb
  · intro t b st ht
    have := (h.stopped t b st ht).2
    rw [hs] at this
    cases this

theorem Room.install (h : Room m) (hs : m.switch = some s)
    (hpc : s.pc = .install b) : Room (m.install s b) := by
  have hab : s.about = some b := by rw [Switch.about, hpc]
  have hout : s.outside = false := by rw [Switch.outside, hpc]
  unfold Llm.install
  split
  · exact h.sameSwitch hs (fun _ hp => by cases hp) hab.symm hout.symm
  · split
    · have hback := h.setBackend (b := b) (f := ({ · with emergency := true }))
        (fun _ hw => hw) (h.released b)
      exact hback.sameSwitch hs (fun _ hp => by cases hp) hab.symm hout.symm
    · -- The new backend is current now, and nothing else is reserved.
      refine ⟨?_, ?_, ?_, h.claimed, h.closing, ?_⟩
      · intro b' hb'
        have := h.place s hs hout b' hb'
        rw [hab] at this
        exact .current this
      · exact h.released_set (f := ({ · with watch := .watching })) (h.released b)
      · intro r hr ho
        cases hr
        cases ho
      · intro t b' st ht
        have := (h.stopped t b' st ht).2
        rw [hs] at this
        cases this

theorem Room.switchStep (h : Room m) (hc : Callers m) (hst : m.starting = m.switch.isSome)
    (hs : m.switch = some s) (he : e ≠ .endSwitch) (hclear : ReadsClear m e)
    (hstep : m.switchStep s e = some m') : Room m' := by
  unfold Llm.switchStep at hstep
  split at hstep
  · -- prepare
    split at hstep
    · next hpc =>
      cases hstep
      exact h.leaveSwitch hs (Or.inr (by rw [Switch.about, hpc])) rfl
    · next hpc =>
      cases hstep
      exact h.leaveSwitch hs (Or.inr (by rw [Switch.about, hpc])) rfl
    · cases hstep
  · -- read
    split at hstep
    · next hpc =>
      cases hstep
      refine h.setSwitch hs ?_ fun _ b hb =>
        h.read_current hc hst hs hpc (hclear rfl) b hb
      intro b _ _ hab
      rw [Switch.about, hpc] at hab
      cases hab
    · cases hstep
  · -- check
    split at hstep
    · next hpc hprev =>
      cases hstep
      exact h.freeSwitch hs (h.free hs (by rw [Switch.outside, hpc])
        (by rw [Switch.about, hpc, hprev]))
    · next hpc _ =>
      cases hstep
      exact h.leaveSwitch hs (Or.inl hpc) rfl
    · next hpc _ =>
      cases hstep
      refine h.setSwitch hs (fun b _ hn _ => absurd hpc hn) fun _ b hb => ?_
      have := h.place s hs (by rw [Switch.outside, hpc]) b hb
      rwa [Switch.about, hpc] at this
    · cases hstep
  · -- switchStop
    split at hstep
    · next st p hpc hprev =>
      obtain ⟨⟨m₁, next⟩, hst', heq⟩ := Option.map_eq_some_iff.mp hstep
      subst heq
      have hab : s.about = some p := by rw [Switch.about, hpc, hprev]
      have hout : s.outside = false := by rw [Switch.outside, hpc]
      obtain ⟨hroom, hrel⟩ := h.stopStep (.switch s hs (by rw [hpc]; simp) hab) hst'
      have hs₁ : m₁.switch = some s := (stopStep_procs hst').2.trans hs
      cases next with
      | some st' =>
        exact hroom.sameSwitch hs₁ (fun _ hp => by cases hp)
          (by rw [hab]; exact hprev) hout.symm
      | none =>
        refine hroom.freeSwitch hs₁ ?_
        cases hr : m₁.reservation with
        | none => rfl
        | some b =>
          have hb := hroom.place s hs₁ hout b hr
          rw [hab] at hb
          cases hb
          exact absurd hr (hrel rfl)
    · next b st err hpc =>
      obtain ⟨⟨m₁, next⟩, hst', heq⟩ := Option.map_eq_some_iff.mp hstep
      subst heq
      have hab : s.about = some b := by rw [Switch.about, hpc]
      have hout : s.outside = false := by rw [Switch.outside, hpc]
      obtain ⟨hroom, hrel⟩ := h.stopStep (.switch s hs (by rw [hpc]; simp) hab) hst'
      have hs₁ : m₁.switch = some s := (stopStep_procs hst').2.trans hs
      cases next with
      | some st' =>
        exact hroom.sameSwitch hs₁ (fun _ hp => by cases hp) hab.symm hout.symm
      | none =>
        refine hroom.setSwitch hs₁ (fun b' hb' _ hab' => ?_)
          fun ho => by cases ho
        rw [hab] at hab'
        cases hab'
        exact absurd hb' (hrel rfl)
    · cases hstep
  · -- settle
    split at hstep
    · next hpc _ =>
      have hfree := h.free hs (by rw [Switch.outside, hpc]) (by rw [Switch.about, hpc])
      split at hstep <;> cases hstep <;> exact h.freeSwitch hs hfree
    · cases hstep
  · -- start
    split at hstep
    · next hpc _ =>
      cases hstep
      exact h.leaveSwitch hs (Or.inr (by rw [Switch.about, hpc])) rfl
    · next hpc _ =>
      cases hstep
      exact h.startFailed hs (h.free hs (by rw [Switch.outside, hpc])
        (by rw [Switch.about, hpc]))
    · next hpc _ =>
      cases hstep
      exact h.freeSwitch hs (h.free hs (by rw [Switch.outside, hpc])
        (by rw [Switch.about, hpc]))
    · cases hstep
  · -- reserve
    split at hstep
    · next hpc hr =>
      have hfree := h.free hs (by rw [Switch.outside, hpc]) (by rw [Switch.about, hpc])
      rw [hfree] at hr
      cases hr
    · next hr =>
      cases hstep
      exact h.startFailed hs hr
    · cases hstep
      refine h.launch hs ?_
      unfold Llm.launch
      split <;> rfl
    · cases hstep
  · -- load
    split at hstep
    · next b err hpc =>
      cases hstep
      refine (h.releaseMemory b).startFailed (s := s) hs ?_
      cases hr : (m.releaseMemory b).reservation with
      | none => rfl
      | some b' =>
        have hb := (h.releaseMemory b).place s hs
          (by rw [Switch.outside, hpc]) b' hr
        rw [Switch.about, hpc] at hb
        cases hb
        exact absurd hr (releaseMemory_ne b)
    · next b hpc =>
      cases hstep
      exact h.sameSwitch hs (fun _ hp => by cases hp)
        (show _ = s.about by rw [Switch.about, Switch.about, hpc])
        (show _ = s.outside by rw [Switch.outside, Switch.outside, hpc])
    · cases hstep
  · -- install
    split at hstep
    · next b hpc => cases hstep; exact h.install hs hpc
    · cases hstep
  · -- retry
    split at hstep
    · next hpc _ =>
      split at hstep
      · cases hstep
        exact h.leaveSwitch hs (Or.inr (by rw [Switch.about, hpc])) rfl
      · cases hstep
    · cases hstep
  · exact absurd rfl he
  · cases hstep

theorem Room.endSwitch (h : Room m) {err : Option Err} {e : Option Err} (hs : m.switch = some s)
    (hpc : s.pc = .finish e) :
    Room (m.endSwitch s err) := by
  have hdone : ∀ wq, Room { m with
      starting := false, switch := none, wq := wq
      failed := err.isSome && m.cur.isNone && s.cancelled.isNone } := by
    intro wq
    refine ⟨?_, h.released, fun _ hr => (by cases hr), fun ht => (by cases ht),
      h.closing, fun t b st ht => ⟨(h.stopped t b st ht).1, rfl⟩⟩
    intro b hb
    rcases h.keeper b hb with hk | ⟨r, hk, _, hab⟩ | ⟨t, st, next, hk⟩ | hk
    · exact .current hk
    · obtain rfl : s = r := Option.some.inj (hs.symm.trans hk)
      rw [Switch.about, hpc] at hab
      cases hab
    · exact .proc t st next hk
    · exact .watch hk
  unfold Llm.endSwitch
  cases err with
  | none => exact (hdone _).pump rfl
  | some e => exact (hdone _).pump rfl

/-! ## Watchers and callers -/

theorem Room.watchStep (h : Room m) (he : ∀ b', e ≠ .crashPump b')
    (hstep : m.watchStep b e = some m') :
    Room m' := by
  unfold Llm.watchStep at hstep
  split at hstep
  · split at hstep
    · next hw =>
      split at hstep
      · -- The watcher takes over what was current.
        next hcur =>
          cases hstep
          refine ⟨?_, h.released_set (f := ({ · with watch := .crashed }))
            (h.released b), h.place, h.claimed, h.closing, h.stopped⟩
          intro b' hb'
          have hself : ∀ b', b' ≠ b → Function.update m.backends b
              { m.backends b with watch := .crashed } b' = m.backends b' :=
            fun b' hne => Function.update_of_ne hne _ _
          by_cases hbb : b' = b
          · subst hbb
            refine .watch (Or.inl ?_)
            show (Function.update m.backends b'
              { m.backends b' with watch := .crashed } b').watch = .crashed
            rw [Function.update_self]
          · rcases h.keeper b' hb' with hk | ⟨r, hk, hpc, hab⟩ | ⟨t, st, next, hk⟩ | hk
            · exact absurd (Option.some.inj (hk.symm.trans hcur)) hbb
            · exact .switch r hk hpc hab
            · exact .proc t st next hk
            · refine .watch ?_
              show (Function.update m.backends b
                { m.backends b with watch := .crashed } b').watch = _ ∨
                  (Function.update m.backends b
                    { m.backends b with watch := .crashed } b').watch = _
              rw [hself b' hbb]
              exact hk
      · cases hstep
        refine h.setBackend (fun _ hk => ?_) (h.released b)
        rw [hw] at hk
        rcases hk with hk | hk <;> cases hk
    · cases hstep
  · split at hstep
    · cases hstep
      exact h.setBackend (fun _ _ => Or.inr rfl) fun hd => by cases hd
    · next hd =>
      cases hstep
      exact h.setBackend (fun hb => absurd hb (h.released b hd)) fun _ => h.released b hd
    · cases hstep
  · split at hstep
    · cases hstep
      exact (h.releaseMemory b).setBackend
        (fun hb => absurd hb (releaseMemory_ne b)) fun _ => releaseMemory_ne b
    · cases hstep
  · next b' => exact absurd rfl (he b')
  · cases hstep

theorem Room.procStop (h : Room m) {st : Stop} {next : Option Stop → Proc} {m₁ : Llm}
    {st' : Option Stop} (hproc : (m.procs t).stopping = some (b, st, next))
    (hst : m.stopStep b st = some (m₁, st')) : Room (m₁.setProc t (next st')) := by
  obtain ⟨hroom, hrel⟩ := h.stopStep (.proc t st next hproc) hst
  have hprocs : m₁.procs t = m.procs t := by rw [(stopStep_procs hst).1]
  have hswitch := (stopStep_procs hst).2
  have hclosed := (stopStep_quiet hst).closed
  refine hroom.setProc ?_ ?_ ?_
  · intro b' st₁ next₁ hp hb'
    rw [hprocs, hproc] at hp
    cases hp
    cases st' with
    | none => exact absurd hb' (hrel rfl)
    | some st₂ =>
      revert hproc
      cases m.procs t <;> intro hproc <;> cases hproc <;> exact ⟨_, _, rfl⟩
  · intro hcl
    exfalso
    revert hproc hcl
    cases m.procs t <;> intro hproc <;> cases hproc <;> cases st' <;> simp
  · intro b' st₁ hcl
    rw [hclosed, hswitch]
    refine h.stopped t b st ?_
    revert hproc hcl
    cases m.procs t <;> intro hproc <;> cases hproc <;> cases st' <;> simp

theorem Room.setCaller (h : Room m) {p : Proc} (ht : (m.procs t).stopping = none)
    (hc : p ≠ .closing) (hs : ∀ b st, p ≠ .closeStop b st) : Room (m.setProc t p) := by
  refine h.setProc (fun b st next hp => ?_) (fun hp => absurd hp hc)
    fun b st hp => absurd hp (hs b st)
  rw [ht] at hp
  cases hp

theorem Room.setClaimed (h : Room m) {c : Bool}
    (hc : m.starting = true → c = false) : Room { m with claimed := c } :=
  ⟨fun b hb => by
      rcases h.keeper b hb with hk | ⟨r, hk, hpc, hab⟩ | ⟨t, st, next, hk⟩ | hk
      · exact .current hk
      · exact .switch r hk hpc hab
      · exact .proc t st next hk
      · exact .watch hk,
    h.released, h.place, hc, h.closing, h.stopped⟩

theorem Room.endUnload (h : Room m) (hs : m.starting = m.switch.isSome) :
    Room m.endUnload :=
  Room.pump (h.congr rfl rfl rfl rfl rfl id rfl rfl) hs

theorem Room.requests (h : Room m) (wq : WaitQueue Lease) (active : Int) :
    Room { m with wq := wq, active := active } :=
  h.congr rfl rfl rfl rfl rfl id rfl rfl

theorem Room.acquire {model key : String} (h : Room m) (hst : m.starting = m.switch.isSome) :
    Room (m.acquire model key) := by
  simp only [Llm.acquire]
  split
  · exact h
  · split
    · exact h
    · split
      · exact h
      · exact (h.requests _ _).pump hst

theorem Room.emergencyStop {reason : Err} (h : Room m)
    (hstop : (m.procs t).stopping = none) : Room (m.emergencyStop t reason) := by
  have hbase := Room.cancelSwitch (m := { m with wq := m.wq.failAll reason })
    (h.congr rfl rfl rfl rfl rfl id rfl rfl) reason
  unfold Llm.emergencyStop
  simp only []
  split
  · exact hbase
  · exact (hbase.setBackend (fun _ hk => hk) (hbase.released _)).setCaller hstop
      (by simp) (by simp)

theorem Room.unload {model : String} {now : Bool} (h : Room m)
    (hstop : (m.procs t).stopping = none) : Room (m.unload t model now) := by
  unfold Llm.unload
  split
  · exact h
  · split
    · exact h
    · split
      · exact h
      · next b _ _ _ =>
        exact Room.setCaller (p := .draining b) (m := { m with
          unloading := model, unloaders := m.unloaders + 1
          wq := m.wq.failMatching
            (fun r => r.model == model && !r.dispatching) .unloading })
          (h.congr rfl rfl rfl rfl rfl id rfl rfl) hstop (by simp) (by simp)

theorem Room.unloadPoll {late : Bool} (h : Room m) (hst : m.starting = m.switch.isSome)
    (hstop : (m.procs t).stopping = none) :
    Room (m.unloadPoll t b late) := by
  have hidle := h.setCaller (p := .idle) hstop (by simp) (by simp)
  unfold Llm.unloadPoll
  split
  · exact hidle.endUnload hst
  · split
    · next hfree =>
      have hno : m.starting = true → true = false := by
        rw [hfree.2.1]
        exact fun hf => hf.symm
      exact (h.setClaimed hno).setCaller hstop (by simp) (by simp)
    · split
      · exact hidle.endUnload hst
      · exact h

theorem Room.step (h : Room m) (hinv : Inv m) (hclear : ReadsClear m e)
    (hstep : step m e = some m') : Room m' := by
  have hst := hinv.serving.starting
  cases does_of_step hstep with
  | acquire => exact h.acquire hst
  | @receive w q => exact h.requests q m.active
  | cancel | giveBack | timeout => exact (h.requests _ _).pump hst
  | late | stopNothing => exact h
  | release =>
    unfold Llm.release
    split
    · exact h
    · exact (h.requests _ _).pump hst
  | endSwitch hs hpc => exact h.endSwitch hs hpc
  | switch hs he hswitch => exact h.switchStep hinv.callers hst hs he hclear hswitch
  | watch he hwatch => exact h.watchStep he hwatch
  | @crashPump b hw =>
    refine (h.setBackend (fun _ hk => ?_) (h.released b)).pump hst
    rw [hw] at hk
    rcases hk with hk | hk <;> cases hk
  | emergencyStop ht => exact h.emergencyStop (by rw [ht]; rfl)
  | stopLoads =>
    refine Room.pump (Room.cancelSwitch (m := { m with stopping := true })
      (h.congr rfl rfl rfl rfl rfl id rfl rfl) .unavailable) ?_
    simp [Llm.cancelSwitch, hst]
  | @close t ht =>
    have hbase := Room.cancelSwitch
      (m := { m with closed := true, wq := m.wq.failAll .unavailable })
      (h.congr rfl rfl rfl rfl rfl (fun _ => rfl) rfl rfl) .unavailable
    have hstop : (m.procs t).stopping = none := by rw [ht]; rfl
    exact hbase.setProc
      (fun b st next hp => absurd (hstop.symm.trans hp) (by simp))
      (fun _ => rfl) fun b st hp => by cases hp
  | closed ht => exact h.setCaller (by rw [ht]; rfl) (by simp) (by simp)
  | @closeStop t _ ht hsw =>
    refine h.setProc (fun b st next hp => ?_) (fun hp => by cases hp)
      fun b st _ => ⟨h.closing t ht, hsw⟩
    rw [ht] at hp
    cases hp
  | unload ht => exact h.unload (by rw [ht]; rfl)
  | unloadPoll ht => exact h.unloadPoll hst (by rw [ht]; rfl)
  | @unloadEnd t ht =>
    exact ((h.setClaimed fun _ => rfl).setCaller (t := t) (p := .idle)
      (show (m.procs t).stopping = none by rw [ht]; rfl) (by simp) (by simp)).endUnload hst
  | @claimIdle t ht =>
    unfold Llm.claimIdle
    split
    · exact h
    · next hfree =>
      simp only [not_or] at hfree
      exact (h.setClaimed fun hf => absurd hf hfree.2.2.1).setCaller
        (show (m.procs t).stopping = none by rw [ht]; rfl) (by simp) (by simp)
  | stopClaimed ht => exact h.setCaller (by rw [ht]; rfl) (by simp) (by simp)
  | @unclaim t ht =>
    unfold Llm.unclaim
    split
    · exact ((h.setClaimed fun _ => rfl).setCaller
        (show (m.procs t).stopping = none by rw [ht]; rfl) (by simp) (by simp)).pump hst
    · exact h.setCaller (by rw [ht]; rfl) (by simp) (by simp)
  | procStop hproc hst => exact h.procStop hproc hst

theorem room_init {capacity : Nat} : Room { capacity := capacity } where
  keeper _ hb := by cases hb
  released _ hd := by cases hd
  place _ hs := by cases hs
  claimed hs := by cases hs
  closing _ ht := by cases ht
  stopped _ _ _ ht := by cases ht

/-- In a run whose switches all read `cur` outside the window, the reservation
is free whenever a switch comes to ask for it. -/
theorem reserve_free (h : Machine.ReachesUnder llm ReadsClear m) (hs : m.switch = some s)
    (hpc : s.pc = .reserve) : m.reservation = none := by
  have hroom : Room m := by
    refine h.invariant_with (J := Inv) (fun s hr => inv_of_reachable hr.reachable)
      ?_ fun s e t hJ _ hI hg he => hI.step hJ hg he
    rintro s ⟨capacity, rfl⟩
    exact room_init
  exact hroom.free hs (by rw [Switch.outside, hpc]) (by rw [Switch.about, hpc])

end Llm

end LocalBase.Runtime
