import LocalBase.Runtime.LlmReserve
import LocalBase.Runtime.ServiceQueue

/-!
# Room for a service's next start

A service takes a backend out of `cur` in the section that decides to stop it,
and stops it afterwards. The switch, an unload, an eviction and `Close` hold
the queue back until that is done; `EmergencyStop` does not, and its stop can
still be under way when the next switch asks for memory. A crash needs no
window: the watcher releases the memory in the section that clears `cur`.
-/

namespace LocalBase.Runtime

/-- The backend a switch is stopping or loading. -/
def SvcSwitch.about (w : SvcSwitch) : Option Nat :=
  match w.pc with
  | .stopPrev => w.prev
  | .load b | .install b | .stopNew b _ => some b
  | _ => none

/-- Whether a switch has still to take `cur`, or asks for nothing any more. -/
def SvcSwitch.outside (w : SvcSwitch) : Bool :=
  match w.pc with
  | .prepare | .take | .rollBack _ | .finish _ => true
  | _ => false

namespace Service

variable {s s' : Service} {t b : Nat} {w : SvcSwitch} {p : SvcProc}

/-- Who has the reservation of backend `b` to give back. -/
inductive Keeper (s : Service) (b : Nat) : Prop
  | current : s.cur = some b → Keeper s b
  | switch (w : SvcSwitch) : s.switch = some w → w.about = some b → Keeper s b
  | proc (t : Nat) (p : SvcProc) : (s.procs t).stopping = some (b, p) → Keeper s b

structure Room (s : Service) : Prop where
  keeper : ∀ b, s.reservation = some b → Keeper s b
  place : ∀ w, s.switch = some w → w.outside = false →
    ∀ b, s.reservation = some b → w.about = some b
  claimed : s.switch.isSome = true → s.claimed = false
  closing : ∀ t, s.procs t = .closing → s.closed = true
  stopped : ∀ t b, s.procs t = .closeStop b → s.closed = true ∧ s.switch = none

/-! ## Moves -/

theorem Room.congr (h : Room s) (hr : s'.reservation = s.reservation)
    (hcur : s'.cur = s.cur) (hsw : s'.switch = s.switch)
    (hcl : s'.claimed = s.claimed) (hc : s.closed = true → s'.closed = true)
    (hp : s'.procs = s.procs) : Room s' := by
  refine ⟨?_, ?_, ?_, ?_, ?_⟩
  · intro b hres
    rcases h.keeper b (hr ▸ hres) with hk | ⟨w, hk, hab⟩ | ⟨t, p, hk⟩
    · exact .current (hcur ▸ hk)
    · exact .switch w (hsw ▸ hk) hab
    · exact .proc t p (hp ▸ hk)
  · rw [hsw, hr]; exact h.place
  · rw [hsw, hcl]; exact h.claimed
  · intro t ht
    exact hc (h.closing t (hp ▸ ht))
  · intro t b ht
    have := h.stopped t b (hp ▸ ht)
    exact ⟨hc this.1, hsw ▸ this.2⟩

theorem Room.setSwitch (h : Room s) {w' : SvcSwitch} (hs : s.switch = some w)
    (hkeep : ∀ b, s.reservation = some b → w.about = some b → w'.about = some b)
    (hplace : w'.outside = false →
      ∀ b, s.reservation = some b → w'.about = some b) :
    Room (s.setSwitch w') := by
  refine ⟨?_, ?_, fun _ => h.claimed (by rw [hs]; rfl), h.closing, ?_⟩
  · intro b hb
    rcases h.keeper b hb with hk | ⟨r, hk, hab⟩ | ⟨t, p, hk⟩
    · exact .current hk
    · obtain rfl : w = r := Option.some.inj (hs.symm.trans hk)
      exact .switch w' rfl (hkeep b hb hab)
    · exact .proc t p hk
  · intro r hr
    cases hr
    exact hplace
  · intro t b ht
    have := (h.stopped t b ht).2
    rw [hs] at this
    cases this

theorem Room.sameSwitch (h : Room s) {w' : SvcSwitch} (hs : s.switch = some w)
    (hab : w'.about = w.about) (hout : w'.outside = w.outside) :
    Room (s.setSwitch w') := by
  refine h.setSwitch hs (fun b _ hb => hab.trans hb) ?_
  intro hout' b hb
  rw [hab]
  exact h.place w hs (hout ▸ hout') b hb

theorem Room.freeSwitch (h : Room s) {w' : SvcSwitch} (hs : s.switch = some w)
    (hfree : s.reservation = none) : Room (s.setSwitch w') := by
  refine h.setSwitch hs ?_ ?_
  · intro b hb
    rw [hfree] at hb
    cases hb
  · intro _ b hb
    rw [hfree] at hb
    cases hb

theorem Room.leaveSwitch (h : Room s) {w' : SvcSwitch} (hs : s.switch = some w)
    (hno : w.about = none) (hout : w'.outside = true) : Room (s.setSwitch w') := by
  refine h.setSwitch hs (fun b _ hab => ?_) fun ho => ?_
  · rw [hno] at hab
    cases hab
  · rw [hout] at ho
    cases ho

theorem Room.free (h : Room s) (hs : s.switch = some w) (hout : w.outside = false)
    (hab : w.about = none) : s.reservation = none := by
  cases hr : s.reservation with
  | none => rfl
  | some b =>
    have := h.place w hs hout b hr
    rw [hab] at this
    cases this

theorem releaseMemory_ne (b : Nat) : (s.releaseMemory b).reservation ≠ some b := by
  simp only [Service.releaseMemory]
  split
  · simp
  · assumption

theorem releaseMemory_sub {b' : Nat}
    (h : (s.releaseMemory b).reservation = some b') : s.reservation = some b' := by
  simp only [Service.releaseMemory] at h
  split at h
  · cases h
  · exact h

theorem Room.releaseMemory (h : Room s) (b : Nat) : Room (s.releaseMemory b) := by
  refine ⟨?_, fun w hs ho b' hb' => h.place w hs ho b' (releaseMemory_sub hb'),
    h.claimed, h.closing, h.stopped⟩
  intro b' hb'
  rcases h.keeper b' (releaseMemory_sub hb') with hk | ⟨w, hk, hab⟩ | ⟨t, p, hk⟩
  · exact .current hk
  · exact .switch w hk hab
  · exact .proc t p hk

theorem Room.released_free (h : Room s) (hs : s.switch = some w) (hout : w.outside = false)
    (hab : w.about = some b) :
    (s.releaseMemory b).reservation = none := by
  cases hr : (s.releaseMemory b).reservation with
  | none => rfl
  | some b' =>
    have hb := h.place w hs hout b' (releaseMemory_sub hr)
    rw [hab] at hb
    cases hb
    exact absurd hr (releaseMemory_ne b)

theorem Room.setProc (h : Room s)
    (hstop : ∀ b p', (s.procs t).stopping = some (b, p') → s.reservation ≠ some b)
    (hclosing : p = .closing → s.closed = true) (hstopped : ∀ b, p ≠ .closeStop b) :
    Room (s.setProc t p) := by
  have hself : (s.setProc t p).procs t = p := Function.update_self _ _ _
  have hne : ∀ t', t' ≠ t → (s.setProc t p).procs t' = s.procs t' :=
    fun t' ht' => Function.update_of_ne ht' _ _
  refine ⟨?_, h.place, h.claimed, ?_, ?_⟩
  · intro b hb
    rcases h.keeper b hb with hk | ⟨w, hk, hab⟩ | ⟨t', p', hk⟩
    · exact .current hk
    · exact .switch w hk hab
    · by_cases htt : t' = t
      · subst htt
        exact absurd hb (hstop b p' hk)
      · exact .proc t' p' (by rw [hne t' htt]; exact hk)
  · intro t' ht'
    by_cases htt : t' = t
    · subst htt
      rw [hself] at ht'
      exact hclosing ht'
    · rw [hne t' htt] at ht'
      exact h.closing t' ht'
  · intro t' b ht'
    by_cases htt : t' = t
    · subst htt
      rw [hself] at ht'
      exact absurd ht' (hstopped b)
    · rw [hne t' htt] at ht'
      exact h.stopped t' b ht'

theorem Room.setCaller (h : Room s) (ht : (s.procs t).stopping = none) (hc : p ≠ .closing)
    (hs : ∀ b, p ≠ .closeStop b) : Room (s.setProc t p) := by
  refine h.setProc (fun b p' hp => ?_) (fun hp => absurd hp hc) hs
  rw [ht] at hp
  cases hp

theorem Room.takeTo (h : Room s) {p' : SvcProc} (hcur : s.cur = some b)
    (ht : (s.procs t).stopping = none) (hp : p.stopping = some (b, p'))
    (hstopped : ∀ b, p = .closeStop b → s.closed = true ∧ s.switch = none) :
    Room ({ s with cur := none }.setProc t p) := by
  have hself : Function.update s.procs t p t = p := Function.update_self _ _ _
  have hne : ∀ t', t' ≠ t → Function.update s.procs t p t' = s.procs t' :=
    fun t' ht' => Function.update_of_ne ht' _ _
  refine ⟨?_, h.place, h.claimed, ?_, ?_⟩
  · intro b' hb'
    rcases h.keeper b' hb' with hk | ⟨w, hk, hab⟩ | ⟨t', q, hk⟩
    · obtain rfl : b = b' := Option.some.inj (hcur.symm.trans hk)
      refine .proc t p' ?_
      show (Function.update s.procs t p t).stopping = some (b, p')
      rw [hself]
      exact hp
    · exact .switch w hk hab
    · have htt : t' ≠ t := by
        rintro rfl
        rw [ht] at hk
        cases hk
      refine .proc t' q ?_
      show (Function.update s.procs t p t').stopping = some (b', q)
      rw [hne t' htt]
      exact hk
  · intro t' ht'
    have ht'' : Function.update s.procs t p t' = .closing := ht'
    by_cases htt : t' = t
    · subst htt
      rw [hself] at ht''
      rw [ht''] at hp
      cases hp
    · rw [hne t' htt] at ht''
      exact h.closing t' ht''
  · intro t' b' ht'
    have ht'' : Function.update s.procs t p t' = .closeStop b' := ht'
    by_cases htt : t' = t
    · subst htt
      rw [hself] at ht''
      exact hstopped b' ht''
    · rw [hne t' htt] at ht''
      exact h.stopped t' b' ht''

theorem Room.setClaimed (h : Room s) {c : Bool}
    (hc : s.switch.isSome = true → c = false) : Room { s with claimed := c } := by
  refine ⟨?_, h.place, hc, h.closing, h.stopped⟩
  intro b hb
  rcases h.keeper b hb with hk | ⟨w, hk, hab⟩ | ⟨t, p, hk⟩
  · exact .current hk
  · exact .switch w hk hab
  · exact .proc t p hk

/-! ## The pump -/

theorem pumpLoop_switch (n : Nat) (s : Service) :
    (pumpLoop n s).switch = s.switch ∨ s.mayPump = true ∧ ∃ model key,
      (pumpLoop n s).switch = some { model := model, key := key } := by
  induction n generalizing s with
  | zero => exact Or.inl rfl
  | succ n ih =>
    rw [pumpLoop]
    split
    · next hm =>
      split
      · exact Or.inl rfl
      · next head rest hq =>
        split
        · exact Or.inl rfl
        · split
          · rcases ih (s.fail head .unavailable) with h | ⟨_, h⟩
            · exact Or.inl h
            · exact Or.inr ⟨hm, h⟩
          · exact Or.inr ⟨hm, _, _, rfl⟩
    · exact Or.inl rfl

theorem Room.pump (h : Room s) (hidle : s.busy = false → s.switch = none) :
    Room (pump s) := by
  obtain ⟨busy, wq, switching, switch, hframe⟩ :=
    pumpLoop_frame s.wq.queue.length s
  rcases pumpLoop_switch s.wq.queue.length s with hsw | ⟨hm, model, key, hsw⟩
  · refine h.congr ?_ ?_ hsw ?_ ?_ ?_ <;> simp [Service.pump, hframe]
  · simp only [mayPump, Bool.and_eq_true, Bool.not_eq_true'] at hm
    obtain ⟨⟨⟨hb, hclaimed⟩, hopen⟩, _⟩ := hm
    rw [hframe] at hsw
    rw [Service.pump, hframe]
    refine ⟨?_, ?_, fun _ => hclaimed, h.closing, ?_⟩
    · intro b hb'
      rcases h.keeper b hb' with hk | ⟨w, hk, _⟩ | ⟨t, p, hk⟩
      · exact .current hk
      · rw [hidle hb] at hk
        cases hk
      · exact .proc t p hk
    · intro w hw ho
      obtain rfl := Option.some.inj (hsw.symm.trans hw)
      cases ho
    · intro t b ht
      have := (h.stopped t b ht).1
      rw [hopen] at this
      cases this

theorem Room.cancelSwitch (h : Room s) (cause : Err) :
    Room (s.cancelSwitch cause) := by
  cases hs : s.switch with
  | none =>
    refine h.congr rfl rfl ?_ rfl id rfl
    simp [Service.cancelSwitch, hs]
  | some w =>
    have hset : Room (s.setSwitch { w with
        cancelled := some (w.cancelled.getD cause) }) :=
      h.sameSwitch hs rfl rfl
    refine hset.congr rfl rfl ?_ rfl id rfl
    simp [Service.cancelSwitch, Service.setSwitch, hs]

/-! ## The window -/

/-- Backend `b` was taken by an `EmergencyStop`, and its memory is still
reserved. -/
def Lingering (s : Service) (b : Nat) : Prop :=
  s.reservation = some b ∧ ∃ t, s.procs t = .emergency b

/-- A switch takes `cur` outside the window. -/
def TakesClear (s : Service) (e : SvcEvent) : Prop :=
  e = .take → ∀ b, ¬ Lingering s b

theorem Room.take_current (h : Room s) (hc : Callers s) (hs : s.switch = some w)
    (hpc : w.pc = .take) (hclear : ∀ b, ¬ Lingering s b) (b : Nat)
    (hb : s.reservation = some b) : s.cur = some b := by
  rcases h.keeper b hb with hk | ⟨r, hk, hab⟩ | ⟨t, p, hk⟩
  · exact hk
  · obtain rfl : w = r := Option.some.inj (hs.symm.trans hk)
    rw [SvcSwitch.about, hpc] at hab
    cases hab
  · have hfree : s.claimed = false := h.claimed (by rw [hs]; rfl)
    have hnoclaim : (s.procs t).claims = false := by
      cases hcl : (s.procs t).claims with
      | false => rfl
      | true => rw [hc.claimed_of hcl] at hfree; cases hfree
    cases hp : s.procs t with
    | emergency b' =>
      rw [hp] at hk
      cases hk
      exact absurd ⟨hb, t, hp⟩ (hclear b)
    | closeStop b' =>
      have := (h.stopped t b' hp).2
      rw [hs] at this
      cases this
    | unloading b' => rw [hp] at hnoclaim; cases hnoclaim
    | stopClaimed b' => rw [hp] at hnoclaim; cases hnoclaim
    | idle | draining | unloaded | claimed | closing | reloading | reloadIdle =>
      rw [hp] at hk
      cases hk

/-! ## The steps -/

theorem Room.switchStep (h : Room s) (hc : Callers s) {e : SvcEvent} (hs : s.switch = some w)
    (he : e ≠ .endSwitch) (hclear : TakesClear s e)
    (hstep : s.switchStep w e = some s') : Room s' := by
  unfold Service.switchStep at hstep
  split at hstep
  · -- prepare
    split at hstep
    · next hpc =>
      cases hstep
      exact h.leaveSwitch hs (by rw [SvcSwitch.about, hpc]) rfl
    · next hpc =>
      cases hstep
      exact h.leaveSwitch hs (by rw [SvcSwitch.about, hpc]) rfl
    · cases hstep
  · -- take
    split at hstep
    · next hpc hcur =>
      cases hstep
      refine h.freeSwitch hs ?_
      cases hr : s.reservation with
      | none => rfl
      | some b =>
        have := h.take_current hc hs hpc (hclear rfl) b hr
        rw [hcur] at this
        cases this
    · next b hpc hcur =>
      cases hstep
      have htook : ∀ b', s.reservation = some b' → b = b' := fun b' hb' =>
        Option.some.inj
          (hcur.symm.trans (h.take_current hc hs hpc (hclear rfl) b' hb'))
      refine ⟨?_, ?_, fun _ => h.claimed (by rw [hs]; rfl), h.closing, ?_⟩
      · intro b' hb'
        exact .switch _ rfl (by rw [← htook b' hb']; rfl)
      · intro r hr _ b' hb'
        cases hr
        rw [← htook b' hb']
        rfl
      · intro t b' ht
        have := (h.stopped t b' ht).2
        rw [hs] at this
        cases this
    · cases hstep
  · -- switchStop
    split at hstep
    · next p hpc hprev =>
      cases hstep
      exact (h.releaseMemory p).freeSwitch (w := w) hs (h.released_free hs
        (by rw [SvcSwitch.outside, hpc]) (by rw [SvcSwitch.about, hpc, hprev]))
    · next b err hpc =>
      cases hstep
      exact (h.releaseMemory b).freeSwitch (w := w) hs (h.released_free hs
        (by rw [SvcSwitch.outside, hpc]) (by rw [SvcSwitch.about, hpc]))
    · cases hstep
  · -- settle
    split at hstep
    · next hpc =>
      cases hstep
      exact h.freeSwitch hs (h.free hs (by rw [SvcSwitch.outside, hpc])
        (by rw [SvcSwitch.about, hpc]))
    · next hpc _ =>
      cases hstep
      exact h.leaveSwitch hs (by rw [SvcSwitch.about, hpc]) rfl
    · next hpc _ =>
      cases hstep
      exact h.freeSwitch hs (h.free hs (by rw [SvcSwitch.outside, hpc])
        (by rw [SvcSwitch.about, hpc]))
    · cases hstep
  · -- rollBack
    split at hstep
    · next err hpc ht =>
      cases hstep
      have hab : w.about = none := by rw [SvcSwitch.about, hpc]
      unfold Service.rollBack
      split
      · exact h.leaveSwitch hs hab rfl
      · exact (h.setCaller (by rw [ht]; rfl) (by simp) (by simp)).leaveSwitch
          (w := w) hs hab rfl
    · cases hstep
  · -- start
    split at hstep
    · next hpc _ =>
      cases hstep
      exact h.leaveSwitch hs (by rw [SvcSwitch.about, hpc]) rfl
    · next hpc _ =>
      cases hstep
      exact h.leaveSwitch hs (by rw [SvcSwitch.about, hpc]) rfl
    · next hpc _ =>
      cases hstep
      exact h.freeSwitch hs (h.free hs (by rw [SvcSwitch.outside, hpc])
        (by rw [SvcSwitch.about, hpc]))
    · cases hstep
  · -- reserve
    split at hstep
    · next hpc _ =>
      cases hstep
      exact h.leaveSwitch hs (by rw [SvcSwitch.about, hpc]) rfl
    · next hpc _ =>
      cases hstep
      exact h.leaveSwitch hs (by rw [SvcSwitch.about, hpc]) rfl
    · cases hstep
      refine ⟨fun b hb => .switch _ rfl hb, ?_,
        fun _ => h.claimed (by rw [hs]; rfl), h.closing, ?_⟩
      · intro r hr _ b hb
        cases hr
        exact hb
      · intro t b ht
        have := (h.stopped t b ht).2
        rw [hs] at this
        cases this
    · cases hstep
  · -- load
    split at hstep
    · next b err hpc =>
      cases hstep
      exact (h.releaseMemory b).freeSwitch (w := w) hs (h.released_free hs
        (by rw [SvcSwitch.outside, hpc]) (by rw [SvcSwitch.about, hpc]))
    · next b hpc =>
      cases hstep
      exact h.sameSwitch hs
        (show _ = w.about by rw [SvcSwitch.about, SvcSwitch.about, hpc])
        (show _ = w.outside by rw [SvcSwitch.outside, SvcSwitch.outside, hpc])
    · cases hstep
  · -- install
    split at hstep
    · next b hpc =>
      cases hstep
      have hab : w.about = some b := by rw [SvcSwitch.about, hpc]
      have hout : w.outside = false := by rw [SvcSwitch.outside, hpc]
      unfold Service.install
      split
      · exact h.sameSwitch hs hab.symm hout.symm
      · split
        · have hback : Room (s.setBackend b ({ · with emergency := true })) :=
            h.congr rfl rfl rfl rfl id rfl
          exact hback.sameSwitch (w := w) hs hab.symm hout.symm
        · refine ⟨?_, ?_, fun _ => h.claimed (by rw [hs]; rfl), h.closing, ?_⟩
          · intro b' hb'
            have := h.place w hs hout b' hb'
            rw [hab] at this
            exact .current this
          · intro r hr ho
            cases hr
            cases ho
          · intro t b' ht
            have := (h.stopped t b' ht).2
            rw [hs] at this
            cases this
    · cases hstep
  · -- retry
    split at hstep
    · next hpc _ =>
      split at hstep
      · cases hstep
        exact h.leaveSwitch hs (by rw [SvcSwitch.about, hpc]) rfl
      · cases hstep
    · cases hstep
  · exact absurd rfl he
  · cases hstep

theorem Room.endSwitch (h : Room s) {err e : Option Err} (hs : s.switch = some w)
    (hpc : w.pc = .finish e) :
    Room (s.endSwitch w err) := by
  have hdone : ∀ wq, Room { s with
      busy := false, switching := false, switch := none, wq := wq
      failed := err.isSome && s.cur.isNone && w.cancelled.isNone } := by
    intro wq
    refine ⟨?_, fun _ hr => (by cases hr), fun ht => (by cases ht), h.closing,
      fun t b ht => ⟨(h.stopped t b ht).1, rfl⟩⟩
    intro b hb
    rcases h.keeper b hb with hk | ⟨r, hk, hab⟩ | ⟨t, p, hk⟩
    · exact .current hk
    · obtain rfl : w = r := Option.some.inj (hs.symm.trans hk)
      rw [SvcSwitch.about, hpc] at hab
      cases hab
    · exact .proc t p hk
  unfold Service.endSwitch
  cases err with
  | none => exact (hdone _).pump fun _ => rfl
  | some e => exact (hdone _).pump fun _ => rfl

theorem Room.acquire (h : Room s) (hs : Serving s) (model key : String) :
    Room (s.acquire model key) := by
  unfold Service.acquire
  split
  · exact h
  · split
    · exact h
    · split
      · exact h
      · exact Room.pump (h.congr rfl rfl rfl rfl id rfl) fun hb => (hs.idle hb).1

theorem Room.endUnload (h : Room s) (hidle : s.busy = false → s.switch = none) :
    Room s.endUnload :=
  Room.pump (h.congr rfl rfl rfl rfl id rfl) hidle

theorem Room.crashCur (h : Room s) (hcur : s.cur = some b) :
    Room ({ s.setBackend b ({ · with watched := false }) with cur := none }.releaseMemory b) := by
  -- What was current is released as it is cleared.
  refine ⟨?_, fun w hw ho b' hb' => h.place w hw ho b' (releaseMemory_sub (s := s) hb'),
    h.claimed, h.closing, h.stopped⟩
  intro b' hb'
  rcases h.keeper b' (releaseMemory_sub (s := s) hb') with hk | ⟨w, hk, hab⟩ | ⟨t, p, hk⟩
  · obtain rfl : b = b' := Option.some.inj (hcur.symm.trans hk)
    exact absurd hb' (releaseMemory_ne (s := s) b)
  · exact .switch w hk hab
  · exact .proc t p hk

theorem Room.emergencyStop {reason : Err} (h : Room s)
    (hstop : (s.procs t).stopping = none) : Room (s.emergencyStop t reason) := by
  have hbase := Room.cancelSwitch (s := { s with wq := s.wq.failAll reason })
    (h.congr rfl rfl rfl rfl id rfl) reason
  unfold Service.emergencyStop
  simp only []
  split
  · next hcur =>
    refine hbase.congr rfl ?_ rfl rfl id rfl
    exact hcur.symm
  · next b hcur => exact hbase.takeTo (p := .emergency b) hcur hstop rfl (by simp)

theorem Room.unload {model : String} {now : Bool} (h : Room s)
    (hstop : (s.procs t).stopping = none) : Room (s.unload t model now) := by
  unfold Service.unload
  split
  · exact h
  · next b _ =>
    split
    · exact h
    · refine Room.setCaller (p := .draining b) (s := { s with
        unloading := model, unloaders := s.unloaders + 1
        wq := s.wq.failMatching (fun r => r.model == model && !r.done)
          .unloading }) (h.congr rfl rfl rfl rfl id rfl) hstop (by simp) (by simp)

theorem Room.claim (h : Room s) (hidle : s.busy = false → s.switch = none)
    (hfree : s.busy = false) : Room { s with claimed := true } := by
  refine h.setClaimed ?_
  rw [hidle hfree]
  exact fun hf => Bool.noConfusion hf

theorem Room.unloadPoll {late : Bool} (h : Room s) (hidle : s.busy = false → s.switch = none)
    (hstop : (s.procs t).stopping = none) :
    Room (s.unloadPoll t b late) := by
  have hleft := h.setCaller (p := .idle) hstop (by simp) (by simp)
  unfold Service.unloadPoll
  split
  · exact hleft.endUnload hidle
  · next hcur =>
    split
    · next hfree =>
      exact (h.claim hidle hfree.1).takeTo (p := .unloading b)
        (not_not.mp hcur) hstop rfl (by simp)
    · split
      · exact hleft.endUnload hidle
      · exact h

theorem Room.procStop (h : Room s) (hproc : (s.procs t).stopping = some (b, p)) :
    Room (((s.markEmergency t b).releaseMemory b).setProc t p) := by
  have hmark : Room (s.markEmergency t b) ∧ (s.markEmergency t b).procs = s.procs := by
    unfold markEmergency
    split
    · exact ⟨h.congr rfl rfl rfl rfl id rfl, rfl⟩
    · exact ⟨h, rfl⟩
  refine (hmark.1.releaseMemory b).setProc ?_ ?_ ?_
  · intro b' p' hp
    rw [show ((s.markEmergency t b).releaseMemory b).procs = s.procs from hmark.2, hproc] at hp
    cases hp
    exact releaseMemory_ne b
  all_goals
    revert hproc
    cases s.procs t <;> intro hproc <;> cases hproc <;> simp

theorem Inv.switch_of_out {w : Nat} (h : Inv s) (hout : w ∈ s.wq.out) : s.switch = none := by
  by_contra hsw
  rw [h.serving.drained (Option.isSome_iff_ne_none.mpr hsw)] at hout
  cases hout

theorem Room.step (h : Room s) (hinv : Inv s) {e : SvcEvent}
    (hclear : TakesClear s e) (hstep : step s e = some s') : Room s' := by
  have hidle : s.busy = false → s.switch = none := fun hb => (hinv.serving.idle hb).1
  cases does_of_step hstep with
  | acquire => exact h.acquire hinv.serving _ _
  | receive => exact h.congr rfl rfl rfl rfl id rfl
  | cancel | timeout => exact Room.pump (h.congr rfl rfl rfl rfl id rfl) hidle
  | giveBack hcall =>
    exact Room.pump (h.congr rfl rfl rfl rfl id rfl) fun _ =>
      hinv.switch_of_out (hinv.serving.requests.out_of_givingBack hcall)
  | late => exact h
  | @release w hcall =>
    unfold Service.release
    split
    · exact h
    · next hrel =>
      have hr := hinv.serving.requests
      have hout : w ∈ s.wq.out := (hr.outstanding w).mpr
        ⟨(hr.requests w).leased (Or.inl hcall), by simpa using hrel⟩
      exact Room.pump (h.congr rfl rfl rfl rfl id rfl) fun _ => hinv.switch_of_out hout
  | endSwitch hs hpc => exact h.endSwitch hs hpc
  | switch hs he hswitch => exact h.switchStep hinv.callers hs he hclear hswitch
  | crashCur hcur => exact h.crashCur hcur
  | crash => exact h.congr rfl rfl rfl rfl id rfl
  | emergencyStop ht => exact h.emergencyStop (by rw [ht]; rfl)
  | stopLoads =>
    refine Room.pump (Room.cancelSwitch (s := { s with stopping := true })
      (h.congr rfl rfl rfl rfl id rfl) .unavailable) fun hb => ?_
    simp [Service.cancelSwitch, hidle hb]
  | close ht =>
    have hbase := Room.cancelSwitch
      (s := { s with closed := true, wq := s.wq.failAll .unavailable })
      (h.congr rfl rfl rfl rfl (fun _ => rfl) rfl) .unavailable
    have hstop : ∀ x, (s.procs _).stopping ≠ some x := fun x hx => by rw [ht] at hx; cases hx
    exact hbase.setProc (fun b p' hp => absurd hp (hstop _)) (fun _ => rfl) (by simp)
  | closed ht => exact h.setCaller (by rw [ht]; rfl) (by simp) (by simp)
  | @closeStop t b ht hsw hcur =>
    exact h.takeTo (p := .closeStop b) hcur (by rw [ht]; rfl) rfl
      fun _ _ => ⟨h.closing t ht, hsw⟩
  | unload ht => exact h.unload (by rw [ht]; rfl)
  | unloadPoll ht => exact h.unloadPoll hidle (by rw [ht]; rfl)
  | @unloadEnd t ht =>
    exact ((h.setClaimed fun _ => rfl).setCaller (t := t) (p := .idle)
      (by rw [show _ = _ from ht]; rfl) (by simp) (by simp)).endUnload hidle
  | claimIdle ht =>
    unfold Service.claimIdle
    split
    · exact h
    · next hfree =>
      simp only [not_or, Bool.not_eq_true] at hfree
      exact (h.claim hidle hfree.2.1).setCaller (by rw [show _ = _ from ht]; rfl)
        (by simp) (by simp)
  | stopClaimed ht =>
    unfold Service.stopClaimed
    split
    · next b hcur => exact h.takeTo (p := .stopClaimed b) hcur (by rw [ht]; rfl) rfl (by simp)
    · exact h
  | unclaim ht =>
    unfold Service.unclaim
    split
    · exact ((h.setClaimed fun _ => rfl).setCaller (by rw [show _ = _ from ht]; rfl)
        (by simp) (by simp)).pump hidle
    · exact h.setCaller (by rw [ht]; rfl) (by simp) (by simp)
  | procStop hproc => exact h.procStop hproc
  | reloadCheck ht =>
    unfold Service.reloadCheck
    split
    · exact h.setCaller (by rw [ht]; rfl) (by simp) (by simp)
    · exact h.setCaller (by rw [ht]; rfl) (by simp) (by simp)
  | unsettled ht => exact h.setCaller (by rw [ht]; rfl) (by simp) (by simp)
  | reloadAcquire ht =>
    exact (h.setCaller (by rw [ht]; rfl) (by simp) (by simp)).acquire
      (hinv.serving.congr rfl rfl rfl rfl rfl) _ _

theorem room_init {capacity : Nat} : Room { capacity := capacity } where
  keeper _ hb := by cases hb
  place _ hs := by cases hs
  claimed hs := by cases hs
  closing _ ht := by cases ht
  stopped _ _ ht := by cases ht

/-- In a run whose switches all take `cur` outside the window, the reservation
is free whenever a switch comes to ask for it. -/
theorem reserve_free (h : Machine.ReachesUnder service TakesClear s) (hs : s.switch = some w)
    (hpc : w.pc = .reserve) :
    s.reservation = none := by
  have hroom : Room s := by
    refine h.invariant_with (J := Inv) (fun s hr => inv_of_reachable hr.reachable)
      ?_ fun s e t hJ _ hI hg he => hI.step hJ hg he
    rintro s ⟨capacity, rfl⟩
    exact room_init
  exact hroom.free hs (by rw [SvcSwitch.outside, hpc]) (by rw [SvcSwitch.about, hpc])

end Service

/-!
## Whether a start finds its own reservation free

A runtime's start asks for memory under the runtime's one id, so the backend
before it must have given its reservation up. It has, in every run whose
switches read `cur` outside the two windows, and it has not in some that do:
after a crash of the LLM's backend, and after an `EmergencyStop` of either
runtime, the next request's start can be refused for the reservation of the
backend it replaces.
-/

/-- Every start of a run that stays outside the windows finds the reservation
of its runtime free. -/
theorem own_reservation_free (m : Llm) (s : Service) :
    (∀ w, Machine.ReachesUnder llm Llm.ReadsClear m → m.switch = some w →
      w.pc = .reserve → m.reservation = none) ∧
    (∀ w, Machine.ReachesUnder service Service.TakesClear s → s.switch = some w →
      w.pc = .reserve → s.reservation = none) :=
  ⟨fun _ h hs hpc => Llm.reserve_free h hs hpc,
    fun _ h hs hpc => Service.reserve_free h hs hpc⟩

theorem Llm.not_lingering {m : Llm} (h : m.reservation = m.cur) (b : Nat) : ¬ Lingering m b :=
  fun hb => hb.2.1 (h.symm.trans hb.1)

/-- The first request's switch comes to `Reserve`. -/
def llmFirst : List LlmEvent :=
  [.acquire "llama" "", .prepare none, .read, .check none, .start none]

def serviceFirst : List SvcEvent :=
  [.acquire "kokoro" "", .prepare none, .take, .start none]

/-- A model is loaded and serves one request. -/
def llmLoaded : List LlmEvent :=
  llmFirst ++ [.reserve (.one 4096) none, .load none, .install, .endSwitch, .receive 0, .release 0]

def serviceLoaded : List SvcEvent :=
  serviceFirst ++ [.reserve none, .load none, .install, .endSwitch, .receive 0,
    .release 0]

/-- Another is asked for, and its switch comes to `Reserve` after it has stopped the
first. -/
def llmNext : List LlmEvent :=
  [.acquire "qwen" "", .prepare none, .read, .check none, .switchStop, .switchStop, .switchStop,
    .settle none, .start none]

def serviceNext : List SvcEvent :=
  [.acquire "piper" "", .prepare none, .take, .switchStop, .settle none false, .start none]

theorem llm_next_obeyed :
    Machine.ReachesUnder llm Llm.ReadsClear
      (llm.after (llm.after { capacity := 2 } llmLoaded) llmNext) := by
  have hllm : Machine.ReachesUnder llm Llm.ReadsClear (llm.after { capacity := 2 } llmLoaded) :=
    Machine.reaches_under_after ⟨2, rfl⟩
      (Machine.obeys_once (x := LlmEvent.read) [.acquire "llama" "", .prepare none]
        (by simp) (by simp) (Llm.not_lingering (by decide +kernel)))
      (by decide +kernel)
  exact hllm.run
    (Machine.obeys_once (x := LlmEvent.read) [.acquire "qwen" "", .prepare none]
      (by simp) (by simp) (Llm.not_lingering (by decide +kernel)))
    (Machine.run_after (by decide +kernel))

theorem service_next_obeyed :
    Machine.ReachesUnder service Service.TakesClear
      (service.after (service.after { capacity := 2 } serviceLoaded) serviceNext) := by
  have hservice : Machine.ReachesUnder service Service.TakesClear
      (service.after { capacity := 2 } serviceLoaded) :=
    Machine.reaches_under_after ⟨2, rfl⟩
      (Machine.obeys_once (x := SvcEvent.take) [.acquire "kokoro" "", .prepare none]
        (by simp) (by simp) fun b hb => by cases hb.1)
      (by decide +kernel)
  refine hservice.run
    (Machine.obeys_once (x := SvcEvent.take) [.acquire "piper" "", .prepare none]
      (by simp) (by simp) fun b hb => ?_)
    (Machine.run_after (by decide +kernel))
  obtain ⟨_, t, ht⟩ := hb
  cases ht

theorem next_start_free :
    (llm.after (llm.after { capacity := 2 } llmLoaded) llmNext).reservation = none ∧
      (service.after (service.after { capacity := 2 } serviceLoaded) serviceNext).reservation =
        none := by
  have hfree := own_reservation_free
    (llm.after (llm.after { capacity := 2 } llmLoaded) llmNext)
    (service.after (service.after { capacity := 2 } serviceLoaded) serviceNext)
  obtain ⟨w, hw, hwpc⟩ := Option.map_eq_some_iff.mp
    (show (llm.after (llm.after { capacity := 2 } llmLoaded) llmNext).switch.map (·.pc) =
      some .reserve by decide +kernel)
  obtain ⟨v, hv, hvpc⟩ := Option.map_eq_some_iff.mp
    (show (service.after (service.after { capacity := 2 } serviceLoaded) serviceNext).switch.map
      (·.pc) = some .reserve by decide +kernel)
  exact ⟨hfree.1 w llm_next_obeyed hw hwpc, hfree.2 v service_next_obeyed hv hvpc⟩

/-- The backend crashed, and its watcher has cleared `cur`. -/
def llmCrashed : Llm :=
  llm.after { capacity := 2 } (llmLoaded ++ .crash 0 :: llmFirst)

/-- An `EmergencyStop` has cleared `cur`. -/
def llmStopped : Llm :=
  llm.after { capacity := 2 }
    (llmLoaded ++ .emergencyStop 0 .memoryEmergency :: .procStop 0 :: llmFirst)

def serviceStopped : Service :=
  service.after { capacity := 2 }
    (serviceLoaded ++ .emergencyStop 0 .memoryEmergency :: serviceFirst)

/-- In each of the three the next request's switch asks for memory while the
backend before it still has its reservation, and the start is refused. -/
theorem own_reservation_held :
    (Machine.Reachable llm llmCrashed ∧
      llmCrashed.switch.map (·.pc) = some .reserve ∧
      llmCrashed.reservation = some 0 ∧
      ((llm.step llmCrashed (.reserve ((llmCrashed.backends 0).plan) none)).bind
        (·.switch)).map (·.pc) = some (.finish (some .alreadyReserved))) ∧
    (Machine.Reachable llm llmStopped ∧
      llmStopped.switch.map (·.pc) = some .reserve ∧
      llmStopped.reservation = some 0 ∧
      ((llm.step llmStopped (.reserve ((llmStopped.backends 0).plan) none)).bind
        (·.switch)).map (·.pc) = some (.finish (some .alreadyReserved))) ∧
    (Machine.Reachable service serviceStopped ∧
      serviceStopped.switch.map (·.pc) = some .reserve ∧
      serviceStopped.reservation = some 0 ∧
      ((service.step serviceStopped (.reserve none)).bind
        (·.switch)).map (·.pc) = some (.finish (some .alreadyReserved))) := by
  refine ⟨⟨Machine.reachable_after ⟨2, rfl⟩ ?_, ?_⟩,
    ⟨Machine.reachable_after ⟨2, rfl⟩ ?_, ?_⟩,
    ⟨Machine.reachable_after ⟨2, rfl⟩ ?_, ?_⟩⟩ <;> decide

end LocalBase.Runtime
