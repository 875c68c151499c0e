import LocalBase.Lease.Mutation

/-!
# Whether the operation lease excludes

Given that one `withMutation` body runs at a time, the lease is nearly safe. Its
directory is made outside the mutation lock, but only where there is none, and
its record is edited inside it, by the call whose record it is or by one that
claims a handoff.

The hole is the removal outside it. `removeAbandonedLocked` reads a record,
checks its owner and renames the directory aside, and `Release`'s fallback can
remove that directory in between. If another call then takes the lease, and the
owner that was checked is gone, the rename takes the new lease from its live
owner. The record is read again after it, and the reclaim ends with an error,
but the name is free.
-/

namespace LocalBase.Lease

/-- What a call has in the lease: nothing, the directory it made, a lease, or a
lease it is removing. -/
inductive Stake
  | nothing
  | made
  | lease (id : Nat)
  | removing (id : Nat)
  deriving DecidableEq

def Place.stake : Place → Stake
  | .idle | .acquiring | .claiming _ => .nothing
  | .made | .undo => .made
  | .held id _ | .returned id => .lease id
  | .fallback id false => .lease id
  | .fallback id true => .removing id

def Job.stake : Job → Stake
  | .reclaim | .claim _ => .nothing
  | .handoff id _ => .lease id
  | .release id => .lease id

def Body.stake : Body → Stake
  | .handoff id _ => .lease id
  | .pass _ o => .lease o.operationID
  | .release id => .lease id
  | .remove id => .removing id
  | _ => .nothing

def Pc.stake : Pc → Stake
  | .at p => p.stake
  | .taking job _ => job.stake
  | .inside _ b => b.stake
  | .leaving _ _ next => next.stake

@[simp] theorem Job.body_stake (job : Job) : job.body.stake = job.stake := by
  cases job <;> rfl

@[simp] theorem Job.failed_stake (job : Job) : job.failed.stake = job.stake := by
  cases job <;> rfl

/-- The lock directory of a live call with a stake: its own record, without a
handoff, or none where the call may not have written it yet or may have removed
it already. -/
def Stake.Fits (pid : Nat) (lock : Dir OperationOwner) : Stake → Prop
  | .nothing => True
  | .made => lock = some none
  | .lease id => lock = some (some { operationID := id, pid })
  | .removing id => lock = some none ∨ lock = some (some { operationID := id, pid })

theorem Stake.Fits.lock {k : Stake} {pid : Nat} {lock : Dir OperationOwner}
    (h : k.Fits pid lock) (hk : k ≠ .nothing) : lock = some none ∨
      ∃ r, lock = some (some r) ∧ r.pid = pid ∧ r.handoff = none := by
  cases k with
  | nothing => exact absurd rfl hk
  | made => exact Or.inl h
  | lease id => exact Or.inr ⟨_, h, rfl, rfl⟩
  | removing id => exact h.imp_right fun h => ⟨_, h, rfl, rfl⟩

namespace Coordination

/-- A live process has a stake in the lease through this call. -/
def HasStake (s : Coordination) (c : Nat) : Prop :=
  s.alive (s.pid c) = true ∧ (s.pc c).stake ≠ .nothing

/-- At most one live process runs a body under the mutation lock. -/
def OneBody (s : Coordination) : Prop :=
  ∀ c d token token' b b', s.alive (s.pid c) = true → s.alive (s.pid d) = true →
    s.pc c = .inside token b → s.pc d = .inside token' b' → c = d

/-- `removeAbandonedLocked` moves the directory whose record it checked. -/
def movesChecked (s : Coordination) : LeaseEvent → Bool
  | .step c true =>
    match s.pc c with
    | .inside _ (.aside id) =>
      match s.lock, s.lockAside id with
      | some d, none => decide (d.map (·.operationID) = some id)
      | _, _ => true
    | _ => true
  | _ => true

def MovesChecked (s : Coordination) (e : LeaseEvent) : Prop := s.movesChecked e = true

instance (s : Coordination) (e : LeaseEvent) : Decidable (s.MovesChecked e) :=
  inferInstanceAs (Decidable (_ = true))

/-- The condition: the mutation lock excludes, and a reclaim moves what it
checked. -/
def Guarded (s : Coordination) (e : LeaseEvent) : Prop :=
  s.OneBody ∧ s.MovesChecked e

/-- What a body has learnt of the record, while no other body runs. -/
def Settled (s : Coordination) : Body → Prop
  | .check o => o.operationID < s.minted ∧
      ∀ r, s.lock = some (some r) → r.operationID = o.operationID → r = o
  | .aside id => id < s.minted ∧
      ∀ r, s.lock = some (some r) → r.operationID = id →
        s.alive r.pid = false ∨ r.handoff ≠ none
  | .take => ∃ r, s.lock = some (some r) ∧ r.handoff ≠ none
  | _ => True

structure Exclusive (s : Coordination) : Prop where
  record : ∀ r, s.lock = some (some r) → r.operationID < s.minted
  fits : ∀ c, s.alive (s.pid c) = true → (s.pc c).stake.Fits (s.pid c) s.lock
  one : ∀ c d, s.HasStake c → s.HasStake d → c = d
  settled : ∀ c token b, s.alive (s.pid c) = true → s.pc c = .inside token b →
    s.Settled b

variable {s t : Coordination} {c : Nat} {token : Nat} {ok : Bool} {b : Body}

theorem init_exclusive (h : lease.init s) : Exclusive s := by
  obtain ⟨pid, alive, rfl⟩ := h
  refine ⟨?_, ?_, ?_, ?_⟩
  · intro r hr
    cases hr
  · intro c _
    trivial
  · intro c d hc
    exact absurd rfl hc.2
  · intro c token b _ hpc
    cases hpc

/-- No live process has a stake in a lease that is not there, or whose record is
a dead owner's or was handed off. -/
theorem Exclusive.unclaimed (h : Exclusive s)
    (hl : s.lock = none ∨ ∃ r, s.lock = some (some r) ∧
      (s.alive r.pid = false ∨ r.handoff ≠ none)) (d : Nat)
    (hd : s.alive (s.pid d) = true) : (s.pc d).stake = .nothing := by
  by_contra hk
  rcases hl with hl | ⟨r, hl, hr⟩
  · rcases (h.fits d hd).lock hk with hd' | ⟨_, hd', _⟩ <;> rw [hl] at hd' <;> cases hd'
  · rcases (h.fits d hd).lock hk with hd' | ⟨r', hd', hpid, hno⟩
    · rw [hl] at hd'
      cases hd'
    · rw [hl] at hd'
      cases hd'
      rcases hr with hr | hr
      · rw [hpid, hd] at hr
        cases hr
      · exact hr hno

theorem Exclusive.others (h : Exclusive s) (hc : s.HasStake c) (d : Nat) (hdc : d ≠ c)
    (hd : s.alive (s.pid d) = true) : (s.pc d).stake = .nothing := by
  by_contra hk
  exact hdc (h.one d c ⟨hd, hk⟩ hc)

theorem Settled.mono (h : s.Settled b) (hl : t.lock = s.lock) (halive : t.alive = s.alive)
    (hminted : s.minted ≤ t.minted) : t.Settled b := by
  cases b with
  | check o => exact ⟨Nat.lt_of_lt_of_le h.1 hminted, hl ▸ h.2⟩
  | aside id => exact ⟨Nat.lt_of_lt_of_le h.1 hminted, hl ▸ halive ▸ h.2⟩
  | take =>
    obtain ⟨r, hr, hno⟩ := h
    exact ⟨r, hl ▸ hr, hno⟩
  | _ => trivial

theorem Exclusive.quiet (h : Exclusive s) (ht : Turn s t c) (hl : t.lock = s.lock)
    (hstake : (t.pc c).stake ≠ .nothing → (s.pc c).stake ≠ .nothing)
    (hfits : s.alive (s.pid c) = true → (t.pc c).stake.Fits (s.pid c) s.lock)
    (hself : ∀ token b, t.pc c = .inside token b → s.Settled b) : Exclusive t := by
  have hhas : ∀ d, t.HasStake d → s.HasStake d := by
    rintro d ⟨hd, hk⟩
    rw [ht.alive, ht.pid] at hd
    by_cases hdc : d = c
    · subst hdc
      exact ⟨hd, hstake hk⟩
    · rw [ht.other hdc] at hk
      exact ⟨hd, hk⟩
  refine ⟨?_, ?_, ?_, ?_⟩
  · intro r hr
    exact Nat.lt_of_lt_of_le (h.record r (hl ▸ hr)) ht.minted
  · intro d hd
    rw [ht.alive, ht.pid] at hd
    rw [ht.pid, hl]
    by_cases hdc : d = c
    · subst hdc
      exact hfits hd
    · rw [ht.other hdc]
      exact h.fits d hd
  · intro d e hd he
    exact h.one d e (hhas d hd) (hhas e he)
  · intro d token b hd hpc
    rw [ht.alive, ht.pid] at hd
    refine Settled.mono (s := s) ?_ hl ht.alive ht.minted
    by_cases hdc : d = c
    · subst hdc
      exact hself token b hpc
    · rw [ht.other hdc] at hpc
      exact h.settled d token b hd hpc

theorem Exclusive.keep (h : Exclusive s) (ht : Turn s t c) (hl : t.lock = s.lock)
    (hstake : (t.pc c).stake = .nothing ∨ (t.pc c).stake = (s.pc c).stake)
    (hself : ∀ token b, t.pc c = .inside token b → s.Settled b) : Exclusive t := by
  refine h.quiet ht hl ?_ ?_ hself
  · rcases hstake with hk | hk <;> rw [hk]
    · exact fun hne => absurd rfl hne
    · exact id
  · intro hc
    rcases hstake with hk | hk <;> rw [hk]
    · trivial
    · exact h.fits c hc

theorem exclusive_of_change (ht : Turn s t c)
    (hfree : ∀ d, d ≠ c → s.alive (s.pid d) = true → (s.pc d).stake = .nothing)
    (hrecord : ∀ r, t.lock = some (some r) → r.operationID < t.minted)
    (hfits : (t.pc c).stake.Fits (s.pid c) t.lock)
    (hself : ∀ token b, t.pc c = .inside token b → t.Settled b)
    (hothers : ∀ d token b, d ≠ c → s.alive (s.pid d) = true →
      s.pc d = .inside token b → t.Settled b) : Exclusive t := by
  have honly : ∀ d, t.HasStake d → d = c := by
    rintro d ⟨hd, hk⟩
    rw [ht.alive, ht.pid] at hd
    by_contra hdc
    rw [ht.other hdc, hfree d hdc hd] at hk
    exact hk rfl
  refine ⟨hrecord, ?_, ?_, ?_⟩
  · intro d hd
    rw [ht.alive, ht.pid] at hd
    rw [ht.pid]
    by_cases hdc : d = c
    · subst hdc
      exact hfits
    · rw [ht.other hdc, hfree d hdc hd]
      trivial
  · intro d e hd he
    rw [honly d hd, honly e he]
  · intro d token b hd hpc
    rw [ht.alive, ht.pid] at hd
    by_cases hdc : d = c
    · subst hdc
      exact hself token b hpc
    · exact hothers d token b hdc hd (ht.other hdc ▸ hpc)

/-! ## Outside the mutation lock -/

/-- The lock changes outside the mutation lock, from a directory whose record,
if it has one, was not handed off, to one whose record, if it has one, is new.
What the body that runs has learnt of the record still holds. -/
theorem Exclusive.change_outside (h : Exclusive s) (ht : Turn s t c)
    (hfree : ∀ d, d ≠ c → s.alive (s.pid d) = true → (s.pc d).stake = .nothing)
    (hrecord : ∀ r, t.lock = some (some r) → r.operationID < t.minted)
    (hfits : (t.pc c).stake.Fits (s.pid c) t.lock)
    (hself : ∃ p, t.pc c = .at p)
    (hold : ∀ r, s.lock = some (some r) → r.handoff = none)
    (hnew : ∀ r, t.lock = some (some r) → s.minted ≤ r.operationID) : Exclusive t := by
  refine exclusive_of_change ht hfree hrecord hfits ?_ ?_
  · intro token b hpc
    obtain ⟨p, hp⟩ := hself
    rw [hp] at hpc
    cases hpc
  · intro d token b _ hd hpc
    have hb := h.settled d token b hd hpc
    cases b with
    | check o =>
      refine ⟨Nat.lt_of_lt_of_le hb.1 ht.minted, fun r hr heq => ?_⟩
      have := hnew r hr
      have := hb.1
      omega
    | aside id =>
      refine ⟨Nat.lt_of_lt_of_le hb.1 ht.minted, fun r hr heq => ?_⟩
      have := hnew r hr
      have := hb.1
      omega
    | take =>
      obtain ⟨r, hr, hno⟩ := hb
      exact absurd (hold r hr) hno
    | _ => trivial

theorem Exclusive.remove_outside (h : Exclusive s) {p q : Place}
    (hpc : s.pc c = .at p) (hc : s.alive (s.pid c) = true)
    (hp : p = .undo ∨ ∃ id, p = .fallback id true)
    (hq : q = if (removeStep s.lock).2 then .idle else p) :
    Exclusive ({ s with lock := (removeStep s.lock).1 }.goto c (.at q)) := by
  have hk : (s.pc c).stake ≠ .nothing := by
    rcases hp with rfl | ⟨id, _, rfl⟩ <;> simp [hpc, Pc.stake, Place.stake]
  have hlock := (h.fits c hc).lock hk
  have hgone : ∀ r, (removeStep s.lock).1 ≠ some (some r) := by
    intro r
    unfold removeStep
    split <;> simp
  refine h.change_outside (Turn.of_goto rfl rfl rfl rfl (Nat.le_refl _) rfl)
    (fun d hdc hd => h.others ⟨hc, hk⟩ d hdc hd) (fun r hr => absurd hr (hgone r)) ?_
    ⟨q, by simp⟩ ?_ (fun r hr => absurd hr (hgone r))
  · simp only [goto_pc, Function.update_self, goto_lock, Pc.stake]
    rcases hlock with hl | ⟨r, hl, _⟩
    · rw [hl] at hq ⊢
      simp only [removeStep, if_true] at hq
      subst hq
      trivial
    · rw [hl] at hq ⊢
      simp only [removeStep, Bool.false_eq_true, if_false] at hq
      subst hq
      rcases hp with rfl | ⟨id, rfl⟩
      · rfl
      · exact Or.inl rfl
  · intro r hr
    rcases hlock with hl | ⟨r', hl, _, hno⟩
    · rw [hl] at hr
      cases hr
    · rw [hl] at hr
      cases hr
      exact hno

theorem Exclusive.outside (h : Exclusive s) {p : Place} (hpc : s.pc c = .at p)
    (hc : s.alive (s.pid c) = true) (ho : s.outside c ok p = some t) : Exclusive t := by
  have hgo : ∀ p', p'.stake = .nothing ∨ p'.stake = p.stake →
      Exclusive (s.goto c (.at p')) := fun p' hk =>
    h.keep (goto_turn _) rfl (by simpa [Pc.stake, hpc] using hk) (by simp)
  have hgoTaking : ∀ job, job.stake = .nothing →
      Exclusive (s.goto c (.taking job .candidate)) := fun job hk =>
    h.keep (goto_turn _) rfl (by simp [Pc.stake, hk]) (by simp)
  cases p with
  | idle => cases ho
  | held _ _ => cases ho
  | returned _ => cases ho
  | acquiring =>
    simp only [Coordination.outside] at ho
    split at ho <;> cases ho
    · exact hgo .idle (Or.inl rfl)
    · next hl =>
      refine h.change_outside (Turn.of_goto rfl rfl rfl rfl (Nat.le_refl _) rfl)
        (fun d _ hd => h.unclaimed (Or.inl hl) d hd) ?_ ?_ ⟨.made, by simp⟩ ?_ ?_
      · intro r hr
        cases hr
      · simp [Pc.stake, Place.stake, Stake.Fits]
      · intro r hr
        rw [hl] at hr
        cases hr
      · intro r hr
        cases hr
    · exact hgoTaking .reclaim rfl
  | claiming token =>
    simp only [Coordination.outside] at ho
    split at ho <;> cases ho
    · exact hgo .idle (Or.inl rfl)
    · exact hgo .acquiring (Or.inl rfl)
    · exact hgoTaking (.claim token) rfl
  | made =>
    have hk : s.HasStake c := ⟨hc, by simp [hpc, Pc.stake, Place.stake]⟩
    have hl : s.lock = some none := by
      simpa [hpc, Pc.stake, Place.stake, Stake.Fits] using h.fits c hc
    simp only [Coordination.outside] at ho
    split at ho <;> cases ho
    · refine h.change_outside (Turn.of_goto rfl rfl rfl rfl (Nat.le_succ _) rfl)
        (h.others hk) ?_ ?_ ⟨.held s.minted false, by simp⟩ ?_ ?_
      · intro r hr
        cases hr
        exact Nat.lt_succ_self _
      · simp [Pc.stake, Place.stake, Stake.Fits]
      · intro r hr
        rw [hl] at hr
        cases hr
      · intro r hr
        cases hr
        exact Nat.le_refl _
    · exact hgo .undo (Or.inr rfl)
  | undo =>
    simp only [Coordination.outside] at ho
    split at ho <;> cases ho
    · exact h.remove_outside hpc hc (Or.inl rfl) rfl
    · exact hgo .idle (Or.inl rfl)
  | fallback id mine =>
    cases mine with
    | false =>
      simp only [Coordination.outside] at ho
      split at ho <;> cases ho
      · split
        · refine h.quiet (goto_turn _) rfl ?_ ?_ (by simp)
          · simp [hpc, Pc.stake, Place.stake]
          · intro _
            have hfits := h.fits c hc
            rw [hpc] at hfits
            simp only [goto_pc, Function.update_self]
            exact Or.inr hfits
        · exact hgo .idle (Or.inl rfl)
      · exact hgo (.returned id) (Or.inr rfl)
    | true =>
      simp only [Coordination.outside] at ho
      split at ho <;> cases ho
      · exact h.remove_outside hpc hc (Or.inr ⟨id, rfl⟩) rfl
      · exact hgo (.fallback id true) (Or.inr rfl)

/-! ## Inside it -/

theorem Exclusive.change_inside (hone : s.OneBody) (hc : s.alive (s.pid c) = true)
    (hpc : s.pc c = .inside token b) (ht : Turn s t c)
    (hfree : ∀ d, d ≠ c → s.alive (s.pid d) = true → (s.pc d).stake = .nothing)
    (hrecord : ∀ r, t.lock = some (some r) → r.operationID < t.minted)
    (hfits : (t.pc c).stake.Fits (s.pid c) t.lock)
    (hself : ∀ token b, t.pc c = .inside token b → t.Settled b) : Exclusive t :=
  exclusive_of_change ht hfree hrecord hfits hself fun d _ _ hdc hd hb =>
    absurd (hone d c _ _ _ _ hd hc hb hpc) hdc

theorem Exclusive.inside (h : Exclusive s) (hpc : s.pc c = .inside token b)
    (hc : s.alive (s.pid c) = true)
    (hg : s.Guarded (.step c ok)) : Exclusive (s.inside c token ok b) := by
  have hfits : b.stake.Fits (s.pid c) s.lock := by
    have hc' := h.fits c hc
    rw [hpc] at hc'
    exact hc'
  have hsettled : s.Settled b := h.settled c token b hc hpc
  have hleave : ∀ p, p.stake = .nothing ∨ p.stake = b.stake →
      Exclusive (s.goto c (.leaving token false p)) := fun p hk =>
    h.keep (goto_turn _) rfl (by simpa [Pc.stake, hpc] using hk) (by simp)
  have hgo : ∀ b', b'.stake = .nothing ∨ b'.stake = b.stake → s.Settled b' →
      Exclusive (s.goto c (.inside token b')) := by
    intro b' hk hb
    refine h.keep (goto_turn _) rfl (by simpa [Pc.stake, hpc] using hk) ?_
    intro token' b'' hp
    simp only [goto_pc, Function.update_self, Pc.inside.injEq] at hp
    obtain ⟨_, rfl⟩ := hp
    exact hb
  cases b with
  | reclaim =>
    simp only [Coordination.inside]
    split
    · exact hgo _ (Or.inl rfl) trivial
    · exact hleave _ (Or.inl rfl)
  | reread id =>
    simp only [Coordination.inside]
    split
    · next o hl =>
      split
      · refine hgo _ (Or.inl rfl) ⟨h.record o hl, fun r hr _ => ?_⟩
        rw [hl] at hr
        cases hr
        rfl
      · exact hleave _ (Or.inl rfl)
    · exact hleave _ (Or.inl rfl)
  | check o =>
    have hgone : (s.alive o.pid = false ∨ o.handoff ≠ none) →
        Exclusive (s.goto c (.inside token (.aside o.operationID))) := by
      intro ho
      refine hgo (.aside o.operationID) (Or.inl rfl)
        ⟨hsettled.1, fun r hr heq => ?_⟩
      rw [hsettled.2 r hr heq]
      exact ho
    simp only [Coordination.inside]
    split
    · next hh =>
      split
      · exact hgone (Or.inr (by simp [hh]))
      · exact hleave .acquiring (Or.inl rfl)
    · split
      · next hdead =>
        simp only [Bool.and_eq_true, Bool.not_eq_true'] at hdead
        exact hgone (Or.inl hdead.2)
      · exact hleave .acquiring (Or.inl rfl)
  | aside id =>
    simp only [Coordination.inside]
    split
    · next d hl haside =>
      have hmoves := hg.2
      simp only [MovesChecked, movesChecked, hpc, hl, haside, decide_eq_true_eq,
        Option.map_eq_some_iff] at hmoves
      obtain ⟨r, rfl, rfl⟩ := hmoves
      refine Exclusive.change_inside hg.1 hc hpc
        (Turn.of_goto rfl rfl rfl rfl (Nat.le_refl _) rfl)
        (fun d _ hd => h.unclaimed (Or.inr ⟨r, hl, hsettled.2 r hl rfl⟩) d hd) ?_ ?_ ?_
      · intro r' hr'
        cases hr'
      · simp [Pc.stake, Body.stake, Stake.Fits]
      · intro token' b' hp
        simp only [goto_pc, Function.update_self, Pc.inside.injEq] at hp
        obtain ⟨_, rfl⟩ := hp
        trivial
    · exact hleave _ (Or.inl rfl)
    · exact hleave _ (Or.inl rfl)
  | moved id =>
    simp only [Coordination.inside]
    split
    · split
      · exact hgo _ (Or.inl rfl) trivial
      · exact hleave _ (Or.inl rfl)
    · exact hleave _ (Or.inl rfl)
  | clear id =>
    simp only [Coordination.inside]
    split
    · refine h.keep (Turn.of_goto rfl rfl rfl rfl (Nat.le_refl _) rfl) rfl
        (Or.inl ?_) ?_
      · split <;> simp [*] <;> rfl
      · intro token' b' hp
        simp only [goto_pc, Function.update_self] at hp
        split at hp <;> cases hp
        trivial
    · exact hleave _ (Or.inl rfl)
  | handoff id tok =>
    simp only [Coordination.inside]
    split
    · next o hl =>
      split
      · next heq => exact hgo _ (Or.inr (by simp [Body.stake, heq.1])) trivial
      · exact hleave _ (Or.inr rfl)
    · exact hleave _ (Or.inr rfl)
  | pass tok o =>
    simp only [Coordination.inside]
    split
    · refine Exclusive.change_inside hg.1 hc hpc
        (Turn.of_goto rfl rfl rfl rfl (Nat.le_refl _) rfl)
        (h.others ⟨hc, by simp [hpc, Pc.stake, Body.stake]⟩) ?_ ?_ (by simp)
      · intro r hr
        cases hr
        have hl : s.lock = some (some { operationID := o.operationID, pid := s.pid c }) :=
          hfits
        have hlt := h.record _ hl
        exact hlt
      · simp [Pc.stake, Place.stake, Stake.Fits]
    · exact hleave _ (Or.inr rfl)
  | release id =>
    simp only [Coordination.inside]
    split
    · split
      · refine h.quiet (goto_turn _) rfl ?_ ?_ ?_
        · simp [hpc, Pc.stake, Body.stake]
        · intro _
          simp only [goto_pc, Function.update_self]
          exact Or.inr hfits
        · intro token' b' hp
          simp only [goto_pc, Function.update_self, Pc.inside.injEq] at hp
          obtain ⟨_, rfl⟩ := hp
          trivial
      · exact hleave .idle (Or.inl rfl)
    · exact hleave (.returned id) (Or.inr rfl)
  | remove id =>
    simp only [Coordination.inside]
    split
    · have hgone : ∀ r, (removeStep s.lock).1 ≠ some (some r) := by
        intro r
        unfold removeStep
        split <;> simp
      refine Exclusive.change_inside hg.1 hc hpc
        (Turn.of_goto rfl rfl rfl rfl (Nat.le_refl _) rfl)
        (h.others ⟨hc, by simp [hpc, Pc.stake, Body.stake]⟩)
        (fun r hr => absurd hr (hgone r)) ?_ ?_
      · simp only [goto_pc, Function.update_self, goto_lock]
        rcases hfits with hl | hl <;> rw [hl] <;> simp only [removeStep]
        · trivial
        · exact Or.inl rfl
      · intro token' b' hp
        simp only [goto_pc, Function.update_self] at hp
        split at hp <;> cases hp
        trivial
    · exact hleave _ (Or.inr rfl)
  | claim tok =>
    simp only [Coordination.inside]
    split
    · exact hleave _ (Or.inl rfl)
    · next o hl =>
      split
      · exact hleave _ (Or.inl rfl)
      · next hh hho =>
        split
        · exact hgo _ (Or.inl rfl) trivial
        · split
          · exact hgo _ (Or.inl rfl) ⟨o, hl, by simp [hho]⟩
          · exact hleave _ (Or.inl rfl)
    · exact hleave _ (Or.inl rfl)
  | take =>
    simp only [Coordination.inside]
    split
    · obtain ⟨r, hl, hno⟩ := hsettled
      refine Exclusive.change_inside hg.1 hc hpc
        (Turn.of_goto rfl rfl rfl rfl (Nat.le_succ _) rfl)
        (fun d _ hd => h.unclaimed (Or.inr ⟨r, hl, Or.inr hno⟩) d hd) ?_ ?_ (by simp)
      · intro r' hr'
        cases hr'
        exact Nat.lt_succ_self _
      · simp [Pc.stake, Place.stake, Stake.Fits]
    · exact hleave _ (Or.inl rfl)

/-! ## The step and the run -/

theorem Exclusive.taking (h : Exclusive s) {job : Job} {ph : Taking}
    (hpc : s.pc c = .taking job ph) : Exclusive (s.taking c job ok ph) := by
  refine h.keep (taking_turn _ _ _) (taking_lock _ _ _).1 (Or.inr ?_) ?_
  · rcases taking_pc (s := s) (c := c) job ok ph with ⟨ph', hp⟩ | hp | ⟨token, hp⟩ <;>
      simp [hp, hpc, Pc.stake]
  · intro token b hb
    rcases taking_pc (s := s) (c := c) job ok ph with ⟨ph', hp⟩ | hp | ⟨token', hp⟩ <;>
      rw [hp] at hb <;> cases hb
    cases job <;> trivial

theorem Exclusive.leaving (h : Exclusive s) {next : Place} {removing : Bool}
    (hpc : s.pc c = .leaving token removing next) :
    Exclusive (s.leaving c token next ok removing) := by
  refine h.keep (leaving_turn _ _ _ _) (leaving_lock _ _ _ _).1 (Or.inr ?_) ?_
  · rcases leaving_pc (s := s) (c := c) token next ok removing with hp | hp <;>
      simp [hp, hpc, Pc.stake]
  · intro token' b hb
    rcases leaving_pc (s := s) (c := c) token next ok removing with hp | hp <;>
      rw [hp] at hb <;> cases hb

theorem begin_stake {call : Call} (hb : s.begin c call = some t) :
    (t.pc c).stake = (s.pc c).stake := by
  unfold Coordination.begin at hb
  split at hb <;> cases hb
  all_goals simp [*, Pc.stake, Place.stake, Job.stake]

theorem Exclusive.begin (h : Exclusive s) {call : Call} (hb : s.begin c call = some t) :
    Exclusive t := by
  have hpc := begin_pc hb
  have hstake := begin_stake hb
  obtain ⟨pc, rfl⟩ := begin_eq hb
  refine h.keep (goto_turn pc) rfl (Or.inr hstake) ?_
  intro token b hp
  rcases hpc with ⟨p, hpc⟩ | ⟨job, hpc⟩ <;> rw [hpc] at hp <;> cases hp

theorem Exclusive.crash (h : Exclusive s) (p : Nat) :
    Exclusive { s with alive := Function.update s.alive p false } := by
  have hback : ∀ q, Function.update s.alive p false q = true → s.alive q = true := by
    intro q hq
    by_cases hqp : q = p
    · subst hqp
      simp at hq
    · rwa [Function.update_of_ne hqp] at hq
  refine ⟨h.record, fun c hc => h.fits c (hback _ hc),
    fun c d hc hd => h.one c d ⟨hback _ hc.1, hc.2⟩ ⟨hback _ hd.1, hd.2⟩, ?_⟩
  intro c token b hc hpc
  have hb := h.settled c token b (hback _ hc) hpc
  cases b with
  | aside id =>
    refine ⟨hb.1, fun r hr heq => (hb.2 r hr heq).imp_left fun hdead => ?_⟩
    by_cases hrp : r.pid = p
    · simp [hrp]
    · simp only [Function.update_of_ne hrp]
      exact hdead
  | check o => exact hb
  | take => exact hb
  | _ => trivial

theorem Exclusive.step (h : Exclusive s) {e : LeaseEvent} (hg : s.Guarded e)
    (he : lease.step s e = some t) : Exclusive t := by
  cases happens he with
  | crash p => exact h.crash p
  | clock now =>
    exact ⟨h.record, h.fits, h.one, fun c token b hc hpc => by
      have hb := h.settled c token b hc hpc
      cases b <;> exact hb⟩
  | begin _ hb => exact h.begin hb
  | outside hc hpc ho => exact h.outside hpc hc ho
  | taking _ hpc => exact h.taking hpc
  | inside hc hpc => exact h.inside hpc hc hg
  | leaving _ hpc => exact h.leaving hpc

theorem exclusive (h : Machine.ReachesUnder lease Guarded s) : Exclusive s :=
  h.invariant (fun _ h0 => init_exclusive h0) fun _ _ _ hI hg he => hI.step hg he

/-! ## The result -/

/-- In a run where one body runs at a time and every reclaim moves what it
checked, two calls of live processes never have a stake in the lease at once. A
call that is making the directory or removing it counts too. -/
theorem operation_excludes {d : Nat} (h : Machine.ReachesUnder lease Guarded s)
    (hcd : c ≠ d) (hc : s.HasStake c) : ¬ s.HasStake d :=
  fun hd => hcd ((exclusive h).one c d hc hd)

theorem oneBody_of_movesRead (h : Machine.ReachesUnder lease MovesRead s) : s.OneBody := by
  intro c d token token' b b' hc hd hbc hbd
  exact (serial h).one c d ⟨hc, by simp [hbc, Pc.token?]⟩ ⟨hd, by simp [hbd, Pc.token?]⟩

/-- Call 0 acquires the lease and hands it to call 1; call 2 waits. -/
def leasePassed : List LeaseEvent :=
  [.begin 0 .acquire, .step 0 true, .step 0 true, .begin 0 (.handoff 7)] ++
    List.replicate 7 (.step 0 true) ++ [.begin 1 (.serve 7)] ++
    List.replicate 8 (.step 1 true) ++ [.begin 2 .acquire, .step 2 true]

theorem claimed_lease_alone :
    ¬ (lease.after ownProcesses leasePassed).HasStake 2 := by
  have hread : Machine.ReachesUnder lease (fun s e => s.MovesRead e ∧ s.MovesChecked e)
      (lease.after ownProcesses leasePassed) :=
    Machine.reaches_under_after ⟨id, _, rfl⟩ (by decide) (by decide)
  have hguard : Machine.ReachesUnder lease Guarded (lease.after ownProcesses leasePassed) :=
    hread.mono fun s e hs hg =>
      ⟨oneBody_of_movesRead (hs.mono fun _ _ _ h => h.1), hg.2⟩
  exact operation_excludes (c := 1) hguard (by decide)
    ⟨by decide, by decide⟩

/-- Call 1 reads call 0's record, under the mutation lock. Call 0 releases its
lease outside it, call 2 acquires the lease, and 0's process ends. Call 1 finds
0's process gone and renames 2's directory aside; call 3 acquires the lease. -/
def lateReclaim : List LeaseEvent :=
  [.begin 0 .acquire, .step 0 true, .step 0 true, .begin 1 .acquire] ++
    List.replicate 5 (.step 1 true) ++
    [.begin 0 .release, .step 0 false, .step 0 true, .step 0 true, .step 0 true,
      .begin 2 .acquire, .step 2 true, .step 2 true, .crash 0, .step 1 true, .step 1 true,
      .begin 3 .acquire, .step 3 true, .step 3 true]

theorem lease_held_twice :
    Machine.ReachesUnder lease (fun s _ => s.OneBody)
        (lease.after ownProcesses lateReclaim) ∧
      (lease.after ownProcesses lateReclaim).OneBody ∧
      (lease.after ownProcesses lateReclaim).alive 2 = true ∧
      (lease.after ownProcesses lateReclaim).alive 3 = true ∧
      (lease.after ownProcesses lateReclaim).pc 2 = .at (.held 2 false) ∧
      (lease.after ownProcesses lateReclaim).pc 3 = .at (.held 3 false) := by
  have hread : Machine.ReachesUnder lease MovesRead
      (lease.after ownProcesses lateReclaim) :=
    Machine.reaches_under_after ⟨id, _, rfl⟩ (by decide) (by decide)
  refine ⟨hread.mono fun _ _ hs _ => oneBody_of_movesRead hs,
    oneBody_of_movesRead hread, ?_, ?_, ?_, ?_⟩ <;> decide

end Coordination

end LocalBase.Lease
