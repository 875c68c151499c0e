import LocalBase.Lease.Operation

/-!
# Whether a crash can lock a root for ever

A directory left by a dead process is reclaimed through its record, so what a
crash must not leave is a directory without one. Both kinds have that window.
`AcquireOperation` makes the lock directory before it writes the record, and
`RemoveAll`, in `Release`, after a failed write and in `withMutation`'s deferred
removal, deletes the record before the directory. A process that dies in one of
them leaves a directory nobody reclaims: a reclaim without a record to read does
nothing, and a candidate is not renamed onto a directory.

In a run with no death in those windows every directory without a record has a
live process that is on its way to write the record or to finish the removal.
The names of the abandoned directories are free too, since a token or an id that
was moved aside never comes back. So once every process is dead, a new one finds
records only, all of them a dead owner's or of an expired handoff, and its own
steps are enough.
-/

namespace LocalBase.Lease

/-- The lease id a call has a stake in. -/
def Stake.id? : Stake → Option Nat
  | .lease id | .removing id => some id
  | .nothing | .made => none

/-- The call is between making the lock directory and its record, or removes
it. -/
def Stake.Sweeps : Stake → Prop
  | .made | .removing _ => True
  | .nothing | .lease _ => False

namespace Coordination

/-- The call answers for a directory without a record. -/
def Sweeping (s : Coordination) (c : Nat) : Prop :=
  (s.lock = some none ∧ (s.pc c).stake.Sweeps) ∨
    (s.mutation = some none ∧ ∃ token next, s.pc c = .leaving token true next)

/-- The condition on the steps before process `new` acquires: `new` takes no
part in them, and nobody who answers for a directory without a record dies or
gives its removal up. -/
def Sweeps (new : Nat) (s : Coordination) : LeaseEvent → Prop
  | .crash p => ∀ c, s.pid c = p → s.alive p = true → ¬ s.Sweeping c
  | .clock _ => True
  | .begin c _ => s.pid c ≠ new
  | .step c true => s.pid c ≠ new
  | .step c false => s.pid c ≠ new ∧
      (s.lock = some none → s.pc c ≠ .at .undo) ∧
      (s.mutation = some none → ∀ token next, s.pc c ≠ .leaving token true next)

variable {s t : Coordination} {c : Nat} {ok : Bool} {token new : Nat} {job : Job} {e : LeaseEvent}
  {next p : Place} {r : OperationOwner} {ph : Taking} {o : MutationOwner} {u : Coordination}
  {b : Body}

/-! ## Names under `withMutation` -/

/-- The token in place is not the name of an abandoned directory, and no token
to come is. -/
structure MutationNames (s : Coordination) : Prop where
  current : ∀ o, s.mutation = some (some o) →
    o.token < s.minted ∧ s.mutationAside o.token = none
  aside : ∀ token, s.mutationAside token ≠ none → token < s.minted
  presence : ∀ c job o, s.pc c = .taking job (.presence o) → o.token < s.minted
  moving : ∀ c job token, s.pc c = .taking job (.aside token) → token < s.minted

theorem init_mutationNames (h : lease.init s) : MutationNames s := by
  obtain ⟨pid, alive, rfl⟩ := h
  refine ⟨?_, ?_, ?_, ?_⟩
  · intro o ho
    cases ho
  · intro token ht
    exact absurd rfl ht
  · intro c job o hpc
    cases hpc
  · intro c job token hpc
    cases hpc

theorem MutationNames.quiet (h : MutationNames s) (ht : Turn s t c)
    (hm : ∀ o, t.mutation = some (some o) → s.mutation = some (some o))
    (ha : ∀ token, s.mutationAside token = none → t.mutationAside token = none)
    (hp : ∀ job o, t.pc c = .taking job (.presence o) → o.token < s.minted)
    (hv : ∀ job token, t.pc c = .taking job (.aside token) → token < s.minted) :
    MutationNames t := by
  refine ⟨?_, ?_, ?_, ?_⟩
  · intro o ho
    obtain ⟨hlt, hno⟩ := h.current o (hm o ho)
    exact ⟨Nat.lt_of_lt_of_le hlt ht.minted, ha _ hno⟩
  · intro token htok
    exact Nat.lt_of_lt_of_le (h.aside token fun hno => htok (ha token hno)) ht.minted
  · intro d job o hpc
    refine Nat.lt_of_lt_of_le ?_ ht.minted
    by_cases hdc : d = c
    · subst hdc
      exact hp job o hpc
    · exact h.presence d job o (ht.other hdc ▸ hpc)
  · intro d job token hpc
    refine Nat.lt_of_lt_of_le ?_ ht.minted
    by_cases hdc : d = c
    · subst hdc
      exact hv job token hpc
    · exact h.moving d job token (ht.other hdc ▸ hpc)

theorem MutationNames.take (h : MutationNames s) (b : Body) :
    MutationNames ({ s with
      mutation := some (some { token := s.minted, pid := s.pid c })
      minted := s.minted + 1 }.goto c (.inside s.minted b)) := by
  refine ⟨?_, ?_, ?_, ?_⟩
  · intro o ho
    cases ho
    refine ⟨Nat.lt_succ_self _, ?_⟩
    by_contra hne
    exact Nat.lt_irrefl _ (h.aside s.minted hne)
  · intro token htok
    exact Nat.lt_succ_of_lt (h.aside token htok)
  · intro d job o hpc
    by_cases hdc : d = c
    · subst hdc
      simp at hpc
    · simp only [goto_pc, Function.update_of_ne hdc] at hpc
      exact Nat.lt_succ_of_lt (h.presence d job o hpc)
  · intro d job token hpc
    by_cases hdc : d = c
    · subst hdc
      simp at hpc
    · simp only [goto_pc, Function.update_of_ne hdc] at hpc
      exact Nat.lt_succ_of_lt (h.moving d job token hpc)

theorem MutationNames.move (h : MutationNames s) (hpc : s.pc c = .taking job (.aside token))
    (d : Dir MutationOwner) :
    MutationNames ({ s with
      mutation := none
      mutationAside := Function.update s.mutationAside token d }.goto c
        (.taking job (.moved token))) := by
  refine ⟨?_, ?_, ?_, ?_⟩
  · intro o ho
    cases ho
  · intro token' ht'
    by_cases htt : token' = token
    · subst htt
      exact h.moving c job token' hpc
    · simp only [goto_mutationAside, Function.update_of_ne htt] at ht'
      exact h.aside token' ht'
  · intro e job' o hpc'
    by_cases hec : e = c
    · subst hec
      simp at hpc'
    · simp only [goto_pc, Function.update_of_ne hec] at hpc'
      exact h.presence e job' o hpc'
  · intro e job' token' hpc'
    by_cases hec : e = c
    · subst hec
      simp at hpc'
    · simp only [goto_pc, Function.update_of_ne hec] at hpc'
      exact h.moving e job' token' hpc'

theorem removeStep_record {ρ : Type} (d : Dir ρ) (r : ρ) :
    (removeStep d).1 ≠ some (some r) := by
  unfold removeStep
  split <;> simp

theorem MutationNames.taking (h : MutationNames s)
    (hpc : s.pc c = .taking job ph) : MutationNames (s.taking c job ok ph) := by
  have hgo : ∀ pc, (∀ job o, pc ≠ Pc.taking job (.presence o)) →
      (∀ job token, pc ≠ .taking job (.aside token)) → MutationNames (s.goto c pc) := by
    intro pc h1 h2
    refine h.quiet (goto_turn _) (fun _ h => h) (fun _ h => h) ?_ ?_
    · intro job o hp
      exact absurd (by simpa using hp) (h1 job o)
    · intro job token hp
      exact absurd (by simpa using hp) (h2 job token)
  cases ph with
  | candidate =>
    simp only [Coordination.taking]
    split <;> exact hgo _ (by simp) (by simp)
  | rename =>
    simp only [Coordination.taking]
    split
    · exact hgo _ (by simp) (by simp)
    · exact hgo _ (by simp) (by simp)
    · exact h.take job.body
  | look =>
    simp only [Coordination.taking]
    split
    · next o hm =>
      refine h.quiet (goto_turn _) (fun _ h => h) (fun _ h => h) ?_ (by simp)
      intro job' o' hp
      simp only [goto_pc, Function.update_self, Pc.taking.injEq,
        Taking.presence.injEq] at hp
      obtain ⟨_, rfl⟩ := hp
      exact (h.current o hm).1
    · exact hgo _ (by simp) (by simp)
  | presence o =>
    simp only [Coordination.taking]
    split
    · refine h.quiet (goto_turn _) (fun _ h => h) (fun _ h => h) (by simp) ?_
      intro job' token hp
      simp only [goto_pc, Function.update_self, Pc.taking.injEq,
        Taking.aside.injEq] at hp
      obtain ⟨_, rfl⟩ := hp
      exact h.presence c job o hpc
    · exact hgo _ (by simp) (by simp)
  | aside token =>
    simp only [Coordination.taking]
    split
    · exact h.move hpc _
    · exact hgo _ (by simp) (by simp)
  | moved token =>
    simp only [Coordination.taking]
    split
    · split <;> exact hgo _ (by simp) (by simp)
    · exact hgo _ (by simp) (by simp)
  | clear token =>
    simp only [Coordination.taking]
    split
    · refine h.quiet (Turn.of_goto rfl rfl rfl rfl (Nat.le_refl _) rfl)
        (fun _ h => h) ?_ ?_ ?_
      · intro token' hno
        by_cases htt : token' = token
        · subst htt
          simp [hno, removeStep]
        · simpa [Function.update_of_ne htt] using hno
      · intro job' o hp
        simp only [goto_pc, Function.update_self] at hp
        split at hp <;> cases hp
      · intro job' token' hp
        simp only [goto_pc, Function.update_self] at hp
        split at hp <;> cases hp
    · exact hgo _ (by simp) (by simp)
  | sleep =>
    simp only [Coordination.taking]
    split <;> exact hgo _ (by simp) (by simp)

/-- A call that ends its step outside the search for the lock, with what it
found as it was. -/
theorem MutationNames.away (h : MutationNames s) (ht : Turn s t c)
    (hm : ∀ o, t.mutation = some (some o) → s.mutation = some (some o))
    (ha : t.mutationAside = s.mutationAside)
    (hpc : ∀ job ph, t.pc c = .taking job ph → ph = .candidate) : MutationNames t := by
  refine h.quiet ht hm (fun token hno => ha ▸ hno) ?_ ?_
  · intro job o hp
    cases hpc _ _ hp
  · intro job token hp
    cases hpc _ _ hp

theorem MutationNames.leaving (h : MutationNames s) (token : Nat) (next : Place)
    (ok removing : Bool) : MutationNames (s.leaving c token next ok removing) := by
  refine h.away (leaving_turn _ _ _ _) ?_ ?_ ?_
  · cases removing <;> simp only [Coordination.leaving] <;> repeat' split
    all_goals
      first
      | exact fun _ h => h
      | exact fun o ho => absurd ho (removeStep_record _ o)
  · cases removing <;> simp only [Coordination.leaving] <;> repeat' split
    all_goals rfl
  · intro job ph hp
    rcases leaving_pc (s := s) (c := c) token next ok removing with hp' | hp' <;>
      rw [hp'] at hp <;> cases hp

theorem MutationNames.step (h : MutationNames s)
    (he : lease.step s e = some t) : MutationNames t := by
  cases happens he with
  | crash p => exact ⟨h.current, h.aside, h.presence, h.moving⟩
  | clock now => exact ⟨h.current, h.aside, h.presence, h.moving⟩
  | begin _ hb =>
    have hpc := begin_pc hb
    obtain ⟨pc, rfl⟩ := begin_eq hb
    refine h.away (goto_turn pc) (fun _ h => h) rfl ?_
    intro job ph hp
    rcases hpc with ⟨p, hpc⟩ | ⟨job', hpc⟩ <;> rw [hpc] at hp <;> cases hp
    rfl
  | outside _ _ ho =>
    obtain ⟨hm, ha⟩ := outside_mutation ho
    refine h.away (outside_turn ho) (fun o ho => hm ▸ ho) ha ?_
    intro job ph hp
    rcases outside_pc ho with ⟨p, hpc⟩ | ⟨job', hpc⟩ <;> rw [hpc] at hp <;> cases hp
    rfl
  | taking _ hpc => exact h.taking hpc
  | @inside c token ok b _ _ =>
    obtain ⟨hm, ha⟩ := inside_mutation (s := s) (c := c) token ok b
    refine h.away (inside_turn _ _ _) (fun o ho => hm ▸ ho) ha ?_
    intro job ph hp
    rcases inside_pc (s := s) (c := c) token ok b with ⟨b', hpc⟩ | ⟨next, hpc⟩ <;>
      rw [hpc] at hp <;> cases hp
  | leaving _ _ => exact h.leaving _ _ _ _

theorem mutationNames (h : Machine.Reachable lease s) : MutationNames s :=
  h.invariant (fun _ h0 => init_mutationNames h0) fun _ _ _ hI he => hI.step he

/-! ## Names of the lease -/

/-- While process `pid` has lease `id` and did not hand it off, every record of
that name says so, and nobody moves the directory aside under it. -/
structure Owned (s : Coordination) (id pid : Nat) : Prop where
  record : ∀ r, s.lock = some (some r) → r.operationID = id →
    r = { operationID := id, pid }
  check : ∀ d token o, s.pc d = .inside token (.check o) → o.operationID = id →
    o = { operationID := id, pid }
  moving : ∀ d token, s.pc d ≠ .inside token (.aside id)
  aside : s.lockAside id = none

/-- The id in place is not the name of an abandoned directory, and no id to come
is. The mutation lock plays no part. -/
structure LockNames (s : Coordination) : Prop where
  record : ∀ r, s.lock = some (some r) →
    r.operationID < s.minted ∧ s.lockAside r.operationID = none
  aside : ∀ id, s.lockAside id ≠ none → id < s.minted
  stake : ∀ c id, (s.pc c).stake.id? = some id → id < s.minted
  check : ∀ c token o, s.pc c = .inside token (.check o) → o.operationID < s.minted
  moving : ∀ c token id, s.pc c = .inside token (.aside id) → id < s.minted
  one : ∀ c d id, (s.pc c).stake.id? = some id → (s.pc d).stake.id? = some id → c = d
  own : ∀ c id, s.alive (s.pid c) = true → (s.pc c).stake.id? = some id →
    s.Owned id (s.pid c)
  passing : ∀ c token tok o, s.alive (s.pid c) = true →
    s.pc c = .inside token (.pass tok o) →
    o = { operationID := o.operationID, pid := s.pid c }

theorem init_lockNames (h : lease.init s) : LockNames s := by
  obtain ⟨pid, alive, rfl⟩ := h
  refine ⟨?_, ?_, ?_, ?_, ?_, ?_, ?_, ?_⟩
  · intro r hr
    cases hr
  · intro id hid
    exact absurd rfl hid
  · intro c id hid
    cases hid
  · intro c token o hpc
    cases hpc
  · intro c token id hpc
    cases hpc
  · intro c d id hid
    cases hid
  · intro c id _ hid
    cases hid
  · intro c token tok o _ hpc
    cases hpc

/-- A step that puts no record in place and nothing aside, and gives its call no
new lease. A record its call goes on to check is the one in place, and a
directory it goes on to move has a record it checked. -/
theorem LockNames.quiet (h : LockNames s) (ht : Turn s t c)
    (hrecord : ∀ r, t.lock = some (some r) → s.lock = some (some r))
    (haside : ∀ id, s.lockAside id = none → t.lockAside id = none)
    (hstake : ∀ id, (t.pc c).stake.id? = some id → (s.pc c).stake.id? = some id)
    (hcheck : ∀ token o, t.pc c = .inside token (.check o) → s.lock = some (some o))
    (hmoving : ∀ token id, t.pc c = .inside token (.aside id) →
      ∃ token' o, s.pc c = .inside token' (.check o) ∧ o.operationID = id ∧
        (s.alive o.pid = false ∨ o.handoff ≠ none))
    (hpassing : ∀ token tok o, t.pc c = .inside token (.pass tok o) →
      s.lock = some (some o) ∧ (s.pc c).stake.id? = some o.operationID) :
    LockNames t := by
  have hstakes : ∀ d id, (t.pc d).stake.id? = some id → (s.pc d).stake.id? = some id := by
    intro d id hid
    by_cases hdc : d = c
    · subst hdc
      exact hstake id hid
    · exact ht.other hdc ▸ hid
  refine ⟨?_, ?_, ?_, ?_, ?_, ?_, ?_, ?_⟩
  · intro r hr
    obtain ⟨hlt, hno⟩ := h.record r (hrecord r hr)
    exact ⟨Nat.lt_of_lt_of_le hlt ht.minted, haside _ hno⟩
  · intro id hid
    exact Nat.lt_of_lt_of_le (h.aside id fun hno => hid (haside id hno)) ht.minted
  · intro d id hid
    exact Nat.lt_of_lt_of_le (h.stake d id (hstakes d id hid)) ht.minted
  · intro d token o hpc
    refine Nat.lt_of_lt_of_le ?_ ht.minted
    by_cases hdc : d = c
    · subst hdc
      exact (h.record o (hcheck token o hpc)).1
    · exact h.check d token o (ht.other hdc ▸ hpc)
  · intro d token id hpc
    refine Nat.lt_of_lt_of_le ?_ ht.minted
    by_cases hdc : d = c
    · subst hdc
      obtain ⟨token', o, hpc', rfl, _⟩ := hmoving token id hpc
      exact h.check d token' o hpc'
    · exact h.moving d token id (ht.other hdc ▸ hpc)
  · intro d e id hd he
    exact h.one d e id (hstakes d id hd) (hstakes e id he)
  · intro d id hd hid
    rw [ht.alive, ht.pid] at hd
    rw [ht.pid]
    have hown := h.own d id hd (hstakes d id hid)
    refine ⟨fun r hr => hown.record r (hrecord r hr), ?_, ?_, haside id hown.aside⟩
    · intro e token o hpc heq
      by_cases hec : e = c
      · subst hec
        exact hown.record o (hcheck token o hpc) heq
      · exact hown.check e token o (ht.other hec ▸ hpc) heq
    · intro e token hpc
      by_cases hec : e = c
      · subst hec
        obtain ⟨token', o, hpc', heq, hgone⟩ := hmoving token id hpc
        rw [hown.check e token' o hpc' heq] at hgone
        rcases hgone with hgone | hgone
        · rw [hd] at hgone
          cases hgone
        · exact hgone rfl
      · exact hown.moving e token (ht.other hec ▸ hpc)
  · intro d token tok o hd hpc
    rw [ht.alive, ht.pid] at hd
    rw [ht.pid]
    by_cases hdc : d = c
    · subst hdc
      obtain ⟨hl, hid⟩ := hpassing token tok o hpc
      exact (h.own d o.operationID hd hid).record o hl rfl
    · exact h.passing d token tok o hd (ht.other hdc ▸ hpc)

theorem LockNames.write (h : LockNames s) {pc : Pc}
    (hpc : pc.stake = .lease s.minted) (hno : ∀ token b, pc ≠ .inside token b) :
    LockNames ({ s with
      lock := some (some { operationID := s.minted, pid := s.pid c })
      minted := s.minted + 1 }.goto c pc) := by
  have hfree : s.lockAside s.minted = none := by
    by_contra hne
    exact Nat.lt_irrefl _ (h.aside s.minted hne)
  have hold : ∀ d token b, Function.update s.pc c pc d = .inside token b →
      s.pc d = .inside token b := by
    intro d token b hd
    by_cases hdc : d = c
    · subst hdc
      rw [Function.update_self] at hd
      exact absurd hd (hno token b)
    · rwa [Function.update_of_ne hdc] at hd
  have hstakes : ∀ d id, (Function.update s.pc c pc d).stake.id? = some id →
      (d = c ∧ id = s.minted) ∨ (d ≠ c ∧ (s.pc d).stake.id? = some id) := by
    intro d id hid
    by_cases hdc : d = c
    · subst hdc
      rw [Function.update_self, hpc] at hid
      cases hid
      exact Or.inl ⟨rfl, rfl⟩
    · rw [Function.update_of_ne hdc] at hid
      exact Or.inr ⟨hdc, hid⟩
  refine ⟨?_, ?_, ?_, ?_, ?_, ?_, ?_, ?_⟩
  · intro r hr
    cases hr
    exact ⟨Nat.lt_succ_self _, hfree⟩
  · intro id hid
    exact Nat.lt_succ_of_lt (h.aside id hid)
  · intro d id hid
    rcases hstakes d id hid with ⟨_, rfl⟩ | ⟨_, hid⟩
    · exact Nat.lt_succ_self _
    · exact Nat.lt_succ_of_lt (h.stake d id hid)
  · intro d token o hd
    exact Nat.lt_succ_of_lt (h.check d token o (hold d token _ hd))
  · intro d token id hd
    exact Nat.lt_succ_of_lt (h.moving d token id (hold d token _ hd))
  · intro d e id hd he
    rcases hstakes d id hd with ⟨hdc, hid⟩ | ⟨_, hd'⟩
    · rcases hstakes e id he with ⟨hec, _⟩ | ⟨_, he'⟩
      · rw [hdc, hec]
      · exact absurd (hid ▸ h.stake e _ he') (Nat.lt_irrefl _)
    · rcases hstakes e id he with ⟨_, hid⟩ | ⟨_, he'⟩
      · exact absurd (hid ▸ h.stake d _ hd') (Nat.lt_irrefl _)
      · exact h.one d e id hd' he'
  · intro d id hd hid
    rcases hstakes d id hid with ⟨rfl, rfl⟩ | ⟨_, hid⟩
    · refine ⟨?_, ?_, ?_, hfree⟩
      · intro r hr _
        cases hr
        rfl
      · intro e token o he heq
        have hlt := h.check e token o (hold e token _ he)
        omega
      · intro e token he
        exact Nat.lt_irrefl _ (h.moving e token _ (hold e token _ he))
    · have hown := h.own d id hd hid
      have hlt := h.stake d id hid
      refine ⟨?_, ?_, ?_, hown.aside⟩
      · intro r hr heq
        cases hr
        simp only at heq
        omega
      · exact fun e token o he => hown.check e token o (hold e token _ he)
      · exact fun e token he => hown.moving e token (hold e token _ he)
  · exact fun d token tok o hd hpc' => h.passing d token tok o hd (hold d token _ hpc')

theorem LockNames.move (h : LockNames s) {id : Nat} (hpc : s.pc c = .inside token (.aside id))
    (d : Dir OperationOwner) :
    LockNames ({ s with
      lock := none
      lockAside := Function.update s.lockAside id d }.goto c
        (.inside token (.moved id))) := by
  have hold : ∀ e token' b, Function.update s.pc c (.inside token (.moved id)) e =
      .inside token' b → (∀ id', b ≠ .moved id') → s.pc e = .inside token' b := by
    intro e token' b he hb
    by_cases hec : e = c
    · subst hec
      rw [Function.update_self] at he
      cases he
      exact absurd rfl (hb id)
    · rwa [Function.update_of_ne hec] at he
  have hstakes : ∀ e id', (Function.update s.pc c (.inside token (.moved id)) e).stake.id? =
      some id' → (s.pc e).stake.id? = some id' := by
    intro e id' hid
    by_cases hec : e = c
    · subst hec
      rw [Function.update_self] at hid
      cases hid
    · rwa [Function.update_of_ne hec] at hid
  refine ⟨?_, ?_, ?_, ?_, ?_, ?_, ?_, ?_⟩
  · intro r hr
    cases hr
  · intro id' hid
    by_cases hii : id' = id
    · subst hii
      exact h.moving c token id' hpc
    · simp only [goto_lockAside, Function.update_of_ne hii] at hid
      exact h.aside id' hid
  · exact fun e id' hid => h.stake e id' (hstakes e id' hid)
  · exact fun e token' o he => h.check e token' o (hold e token' _ he (by simp))
  · exact fun e token' id' he => h.moving e token' id' (hold e token' _ he (by simp))
  · exact fun e f id' he hf => h.one e f id' (hstakes e id' he) (hstakes f id' hf)
  · intro e id' he hid
    have hown := h.own e id' he (hstakes e id' hid)
    refine ⟨?_, ?_, ?_, ?_⟩
    · intro r hr
      cases hr
    · exact fun f token' o hf => hown.check f token' o (hold f token' _ hf (by simp))
    · exact fun f token' hf => hown.moving f token' (hold f token' _ hf (by simp))
    · have hii : id' ≠ id := by
        rintro rfl
        exact hown.moving c token hpc
      simp only [goto_lockAside, Function.update_of_ne hii]
      exact hown.aside
  · exact fun e token' tok o he hpc' =>
      h.passing e token' tok o he (hold e token' _ hpc' (by simp))

theorem LockNames.pass (h : LockNames s) (hc : s.alive (s.pid c) = true) {tok : Nat}
    {o : OperationOwner} (hpc : s.pc c = .inside token (.pass tok o)) (hh : Option Handoff) :
    LockNames ({ s with lock := some (some { o with handoff := hh }) }.goto c
      (.leaving token false .idle)) := by
  have hid : (s.pc c).stake.id? = some o.operationID := by
    simp [hpc, Pc.stake, Body.stake, Stake.id?]
  have hold : ∀ e token' b, Function.update s.pc c (.leaving token false .idle) e =
      .inside token' b → s.pc e = .inside token' b := by
    intro e token' b he
    by_cases hec : e = c
    · subst hec
      rw [Function.update_self] at he
      cases he
    · rwa [Function.update_of_ne hec] at he
  have hstakes : ∀ e id, (Function.update s.pc c (.leaving token false .idle) e).stake.id? =
      some id → e ≠ c ∧ (s.pc e).stake.id? = some id := by
    intro e id hid
    by_cases hec : e = c
    · subst hec
      rw [Function.update_self] at hid
      cases hid
    · rw [Function.update_of_ne hec] at hid
      exact ⟨hec, hid⟩
  refine ⟨?_, h.aside, ?_, ?_, ?_, ?_, ?_, ?_⟩
  · intro r hr
    cases hr
    exact ⟨h.stake c _ hid, (h.own c _ hc hid).aside⟩
  · exact fun e id he => h.stake e id (hstakes e id he).2
  · exact fun e token' o' he => h.check e token' o' (hold e token' _ he)
  · exact fun e token' id he => h.moving e token' id (hold e token' _ he)
  · exact fun e f id he hf => h.one e f id (hstakes e id he).2 (hstakes f id hf).2
  · intro e id he hide
    obtain ⟨hec, hide⟩ := hstakes e id hide
    have hown := h.own e id he hide
    refine ⟨?_, ?_, ?_, hown.aside⟩
    · intro r hr heq
      cases hr
      simp only at heq
      subst heq
      exact absurd (h.one e c _ hide hid) hec
    · exact fun f token' o' hf => hown.check f token' o' (hold f token' _ hf)
    · exact fun f token' hf => hown.moving f token' (hold f token' _ hf)
  · exact fun e token' tok' o' he hpc' => h.passing e token' tok' o' he (hold e token' _ hpc')

theorem LockNames.outside (h : LockNames s) (hpc : s.pc c = .at p)
    (ho : s.outside c ok p = some t) : LockNames t := by
  have hremove : ∀ q, q.stake.id? = none ∨ q.stake.id? = p.stake.id? →
      LockNames ({ s with lock := (removeStep s.lock).1 }.goto c (.at q)) := by
    intro q hq
    refine h.quiet (Turn.of_goto rfl rfl rfl rfl (Nat.le_refl _) rfl)
      (fun r hr => absurd hr (removeStep_record _ r)) (fun _ h => h) ?_
      (by simp) (by simp) (by simp)
    intro id hid
    simp only [goto_pc, Function.update_self, Pc.stake] at hid
    rcases hq with hq | hq <;> rw [hq] at hid
    · cases hid
    · rw [hpc]
      exact hid
  have hgo : ∀ q, (q.stake.id? = none ∨ q.stake.id? = p.stake.id?) →
      LockNames (s.goto c (.at q)) := by
    intro q hq
    refine h.quiet (goto_turn _) (fun _ h => h) (fun _ h => h) ?_
      (by simp) (by simp) (by simp)
    intro id hid
    simp only [goto_pc, Function.update_self, Pc.stake] at hid
    rcases hq with hq | hq <;> rw [hq] at hid
    · cases hid
    · rw [hpc]
      exact hid
  have htake : ∀ job, job.stake = .nothing →
      LockNames (s.goto c (.taking job .candidate)) := by
    intro job hk
    refine h.quiet (goto_turn _) (fun _ h => h) (fun _ h => h) ?_
      (by simp) (by simp) (by simp)
    intro id hid
    simp [Pc.stake, hk, Stake.id?] at hid
  cases p with
  | idle => cases ho
  | held _ _ => cases ho
  | returned _ => cases ho
  | acquiring =>
    simp only [Coordination.outside] at ho
    split at ho <;> cases ho
    · exact hgo .idle (Or.inl rfl)
    · refine h.quiet (Turn.of_goto rfl rfl rfl rfl (Nat.le_refl _) rfl) ?_
        (fun _ h => h) ?_ (by simp) (by simp) (by simp)
      · intro r hr
        cases hr
      · intro id hid
        simp [Pc.stake, Place.stake, Stake.id?] at hid
    · exact htake .reclaim rfl
  | claiming token =>
    simp only [Coordination.outside] at ho
    split at ho <;> cases ho
    · exact hgo .idle (Or.inl rfl)
    · exact hgo .acquiring (Or.inl rfl)
    · exact htake (.claim token) rfl
  | made =>
    simp only [Coordination.outside] at ho
    split at ho <;> cases ho
    · exact h.write rfl (by simp)
    · exact hgo .undo (Or.inl rfl)
  | undo =>
    simp only [Coordination.outside] at ho
    split at ho <;> cases ho
    · refine hremove _ (Or.inl ?_)
      split <;> rfl
    · exact hgo .idle (Or.inl rfl)
  | fallback id mine =>
    cases mine with
    | false =>
      simp only [Coordination.outside] at ho
      split at ho <;> cases ho
      · split
        · exact hgo _ (Or.inr rfl)
        · exact hgo .idle (Or.inl rfl)
      · exact hgo (.returned id) (Or.inr rfl)
    | true =>
      simp only [Coordination.outside] at ho
      split at ho <;> cases ho
      · refine hremove _ ?_
        split
        · exact Or.inl rfl
        · exact Or.inr rfl
      · exact hgo (.fallback id true) (Or.inr rfl)

theorem LockNames.inside (h : LockNames s) (hpc : s.pc c = .inside token b)
    (hc : s.alive (s.pid c) = true) :
    LockNames (s.inside c token ok b) := by
  have hleave : ∀ p, p.stake.id? = none ∨ p.stake.id? = b.stake.id? →
      LockNames (s.goto c (.leaving token false p)) := by
    intro p hp
    refine h.quiet (goto_turn _) (fun _ h => h) (fun _ h => h) ?_
      (by simp) (by simp) (by simp)
    intro id hid
    simp only [goto_pc, Function.update_self, Pc.stake] at hid
    rcases hp with hp | hp <;> rw [hp] at hid
    · cases hid
    · rw [hpc]
      exact hid
  have hgo : ∀ b', (b'.stake.id? = none ∨ b'.stake.id? = b.stake.id?) →
      (∀ o, b' ≠ .check o) → (∀ id, b' ≠ .aside id) → (∀ tok o, b' ≠ .pass tok o) →
      LockNames (s.goto c (.inside token b')) := by
    intro b' hb hcheck haside hpass
    refine h.quiet (goto_turn _) (fun _ h => h) (fun _ h => h) ?_ ?_ ?_ ?_
    · intro id hid
      simp only [goto_pc, Function.update_self, Pc.stake] at hid
      rcases hb with hb | hb <;> rw [hb] at hid
      · cases hid
      · rw [hpc]
        exact hid
    · intro token' o hp
      simp only [goto_pc, Function.update_self, Pc.inside.injEq] at hp
      exact absurd hp.2 (hcheck o)
    · intro token' id hp
      simp only [goto_pc, Function.update_self, Pc.inside.injEq] at hp
      exact absurd hp.2 (haside id)
    · intro token' tok o hp
      simp only [goto_pc, Function.update_self, Pc.inside.injEq] at hp
      exact absurd hp.2 (hpass tok o)
  cases b with
  | reclaim =>
    simp only [Coordination.inside]
    split
    · exact hgo _ (Or.inl rfl) (by simp) (by simp) (by simp)
    · exact hleave .acquiring (Or.inl rfl)
  | reread id =>
    simp only [Coordination.inside]
    split
    · next o hl =>
      split
      · refine h.quiet (goto_turn _) (fun _ h => h) (fun _ h => h) ?_ ?_
          (by simp) (by simp)
        · intro id' hid
          simp [Pc.stake, Body.stake, Stake.id?] at hid
        · intro token' o' hp
          simp only [goto_pc, Function.update_self, Pc.inside.injEq,
            Body.check.injEq] at hp
          rw [← hp.2]
          exact hl
      · exact hleave .acquiring (Or.inl rfl)
    · exact hleave .acquiring (Or.inl rfl)
  | check o =>
    have hgone : (s.alive o.pid = false ∨ o.handoff ≠ none) →
        LockNames (s.goto c (.inside token (.aside o.operationID))) := by
      intro ho
      refine h.quiet (goto_turn _) (fun _ h => h) (fun _ h => h) ?_ (by simp) ?_
        (by simp)
      · intro id' hid
        simp [Pc.stake, Body.stake, Stake.id?] at hid
      · intro token' id hp
        simp only [goto_pc, Function.update_self, Pc.inside.injEq,
          Body.aside.injEq] at hp
        exact ⟨token, o, hpc, hp.2, ho⟩
    simp only [Coordination.inside]
    split
    · next hh =>
      split
      · exact hgone (Or.inr (by simp [hh]))
      · exact hleave .acquiring (Or.inl rfl)
    · split
      · next hdead =>
        simp only [Bool.and_eq_true, Bool.not_eq_true'] at hdead
        exact hgone (Or.inl hdead.2)
      · exact hleave .acquiring (Or.inl rfl)
  | aside id =>
    simp only [Coordination.inside]
    split
    · exact h.move hpc _
    · exact hleave .acquiring (Or.inl rfl)
    · exact hleave .idle (Or.inl rfl)
  | moved id =>
    simp only [Coordination.inside]
    split
    · split
      · exact hgo _ (Or.inl rfl) (by simp) (by simp) (by simp)
      · exact hleave .idle (Or.inl rfl)
    · exact hleave .idle (Or.inl rfl)
  | clear id =>
    simp only [Coordination.inside]
    split
    · have hpc' : ∀ token' b', (if (removeStep (s.lockAside id)).2 then
          Pc.leaving token false .acquiring else .inside token (.clear id)) =
          .inside token' b' → b' = .clear id := by
        intro token' b' hp
        split at hp <;> cases hp
        rfl
      refine h.quiet (Turn.of_goto rfl rfl rfl rfl (Nat.le_refl _) rfl)
        (fun _ h => h) ?_ ?_ ?_ ?_ ?_
      · intro id' hno
        by_cases hii : id' = id
        · subst hii
          simp [hno, removeStep]
        · simpa [Function.update_of_ne hii] using hno
      · intro id' hid
        simp only [goto_pc, Function.update_self] at hid
        split at hid <;> cases hid
      · intro token' o hp
        cases hpc' token' _ (by simpa using hp)
      · intro token' id' hp
        cases hpc' token' _ (by simpa using hp)
      · intro token' tok o hp
        cases hpc' token' _ (by simpa using hp)
    · exact hleave .acquiring (Or.inl rfl)
  | handoff id tok =>
    simp only [Coordination.inside]
    split
    · next o hl =>
      split
      · next heq =>
        have hid : (s.pc c).stake.id? = some o.operationID := by
          simp [hpc, Pc.stake, Body.stake, Stake.id?, heq.1]
        refine h.quiet (goto_turn _) (fun _ h => h) (fun _ h => h) ?_ (by simp)
          (by simp) ?_
        · intro id' hid'
          simp only [goto_pc, Function.update_self] at hid'
          rw [hid, ← hid']
          rfl
        · intro token' tok' o' hp
          simp only [goto_pc, Function.update_self, Pc.inside.injEq,
            Body.pass.injEq] at hp
          rw [← hp.2.2]
          exact ⟨hl, hid⟩
      · exact hleave (.held id false) (Or.inr rfl)
    · exact hleave (.held id false) (Or.inr rfl)
  | pass tok o =>
    simp only [Coordination.inside]
    split
    · exact h.pass hc hpc _
    · exact hleave (.held o.operationID false) (Or.inr rfl)
  | release id =>
    simp only [Coordination.inside]
    split
    · split
      · exact hgo _ (Or.inr rfl) (by simp) (by simp) (by simp)
      · exact hleave .idle (Or.inl rfl)
    · exact hleave (.returned id) (Or.inr rfl)
  | remove id =>
    simp only [Coordination.inside]
    split
    · have hpc' : ∀ token' b', (if (removeStep s.lock).2 then
          Pc.leaving token false .idle else .inside token (.remove id)) =
          .inside token' b' → b' = .remove id := by
        intro token' b' hp
        split at hp <;> cases hp
        rfl
      refine h.quiet (Turn.of_goto rfl rfl rfl rfl (Nat.le_refl _) rfl)
        (fun r hr => absurd hr (removeStep_record _ r)) (fun _ h => h) ?_ ?_ ?_ ?_
      · intro id' hid
        simp only [goto_pc, Function.update_self] at hid
        split at hid
        · cases hid
        · rw [hpc]
          exact hid
      · intro token' o hp
        cases hpc' token' _ (by simpa using hp)
      · intro token' id' hp
        cases hpc' token' _ (by simpa using hp)
      · intro token' tok o hp
        cases hpc' token' _ (by simpa using hp)
    · exact hleave (.fallback id true) (Or.inr rfl)
  | claim tok =>
    simp only [Coordination.inside]
    split
    · exact hleave .acquiring (Or.inl rfl)
    · split
      · exact hleave (.claiming tok) (Or.inl rfl)
      · split
        · exact hgo _ (Or.inl rfl) (by simp) (by simp) (by simp)
        · split
          · exact hgo _ (Or.inl rfl) (by simp) (by simp) (by simp)
          · exact hleave (.claiming tok) (Or.inl rfl)
    · exact hleave (.claiming tok) (Or.inl rfl)
  | take =>
    simp only [Coordination.inside]
    split
    · exact h.write rfl (by simp)
    · exact hleave .idle (Or.inl rfl)

theorem LockNames.crash (h : LockNames s) (p : Nat) :
    LockNames { s with alive := Function.update s.alive p false } := by
  have hback : ∀ q, Function.update s.alive p false q = true → s.alive q = true := by
    intro q hq
    by_cases hqp : q = p
    · subst hqp
      simp at hq
    · rwa [Function.update_of_ne hqp] at hq
  refine ⟨h.record, h.aside, h.stake, h.check, h.moving, h.one, ?_, ?_⟩
  · intro c id hc hid
    have hown := h.own c id (hback _ hc) hid
    exact ⟨hown.record, hown.check, hown.moving, hown.aside⟩
  · exact fun c token tok o hc hpc => h.passing c token tok o (hback _ hc) hpc

/-- A step that leaves the lock alone, and keeps its call's stake outside the
bodies that go by a record. -/
theorem LockNames.away (h : LockNames s) (ht : Turn s t c) (hl : t.lock = s.lock)
    (ha : t.lockAside = s.lockAside) (hstake : (t.pc c).stake = (s.pc c).stake)
    (hpc : ∀ token b, t.pc c = .inside token b → ∃ job : Job, b = job.body) :
    LockNames t := by
  refine h.quiet ht (fun r hr => hl ▸ hr) (fun id hno => ha ▸ hno)
    (fun id hid => hstake ▸ hid) ?_ ?_ ?_
  · intro token o hp
    obtain ⟨job, hb⟩ := hpc token _ hp
    cases job <;> cases hb
  · intro token id hp
    obtain ⟨job, hb⟩ := hpc token _ hp
    cases job <;> cases hb
  · intro token tok o hp
    obtain ⟨job, hb⟩ := hpc token _ hp
    cases job <;> cases hb

theorem LockNames.taking (h : LockNames s)
    (hpc : s.pc c = .taking job ph) : LockNames (s.taking c job ok ph) := by
  obtain ⟨hl, ha⟩ := taking_lock (s := s) (c := c) job ok ph
  refine h.away (taking_turn _ _ _) hl ha ?_ ?_
  · rcases taking_pc (s := s) (c := c) job ok ph with ⟨ph', hp⟩ | hp | ⟨token, hp⟩ <;>
      simp [hp, hpc, Pc.stake]
  · intro token b hb
    rcases taking_pc (s := s) (c := c) job ok ph with ⟨ph', hp⟩ | hp | ⟨token', hp⟩ <;>
      rw [hp] at hb <;> cases hb
    exact ⟨job, rfl⟩

theorem LockNames.leaving (h : LockNames s) {removing : Bool}
    (hpc : s.pc c = .leaving token removing next) :
    LockNames (s.leaving c token next ok removing) := by
  obtain ⟨hl, ha⟩ := leaving_lock (s := s) (c := c) token next ok removing
  refine h.away (leaving_turn _ _ _ _) hl ha ?_ ?_
  · rcases leaving_pc (s := s) (c := c) token next ok removing with hp | hp <;>
      simp [hp, hpc, Pc.stake]
  · intro token' b hb
    rcases leaving_pc (s := s) (c := c) token next ok removing with hp | hp <;>
      rw [hp] at hb <;> cases hb

theorem LockNames.step (h : LockNames s) (he : lease.step s e = some t) : LockNames t := by
  cases happens he with
  | crash p => exact h.crash p
  | clock now =>
    refine ⟨h.record, h.aside, h.stake, h.check, h.moving, h.one, ?_, h.passing⟩
    intro c id hc hid
    have hown := h.own c id hc hid
    exact ⟨hown.record, hown.check, hown.moving, hown.aside⟩
  | begin _ hb =>
    have hpc := begin_pc hb
    have hstake := begin_stake hb
    obtain ⟨pc, rfl⟩ := begin_eq hb
    refine h.away (goto_turn pc) rfl rfl hstake ?_
    intro token b hp
    rcases hpc with ⟨p, hpc⟩ | ⟨job, hpc⟩ <;> rw [hpc] at hp <;> cases hp
  | outside _ hpc ho => exact h.outside hpc ho
  | taking _ hpc => exact h.taking hpc
  | inside hc hpc => exact h.inside hpc hc
  | leaving _ hpc => exact h.leaving hpc

theorem lockNames (h : Machine.Reachable lease s) : LockNames s :=
  h.invariant (fun _ h0 => init_lockNames h0) fun _ _ _ hI he => hI.step he

/-! ## Directories without a record -/

/-- A directory without a record has a live process that answers for it. -/
structure Swept (s : Coordination) : Prop where
  lock : s.lock = some none → ∃ c, s.alive (s.pid c) = true ∧ (s.pc c).stake.Sweeps
  mutation : s.mutation = some none → ∃ c, s.alive (s.pid c) = true ∧
    ∃ token next, s.pc c = .leaving token true next

theorem init_swept (h : lease.init s) : Swept s := by
  obtain ⟨pid, alive, rfl⟩ := h
  exact ⟨fun hl => (by cases hl), fun hm => (by cases hm)⟩

theorem Swept.turn (h : Swept s) (ht : Turn s t c) (hc : s.alive (s.pid c) = true)
    (hl : t.lock = some none → (t.pc c).stake.Sweeps ∨
      (s.lock = some none ∧ ¬ (s.pc c).stake.Sweeps))
    (hm : t.mutation = some none → (∃ token next, t.pc c = .leaving token true next) ∨
      (s.mutation = some none ∧ ∀ token next, s.pc c ≠ .leaving token true next)) :
    Swept t := by
  refine ⟨fun hlock => ?_, fun hmut => ?_⟩
  · rcases hl hlock with hk | ⟨hold, hk⟩
    · exact ⟨c, by rw [ht.alive, ht.pid]; exact hc, hk⟩
    · obtain ⟨d, hd, hkd⟩ := h.lock hold
      have hdc : d ≠ c := fun hdc => hk (hdc ▸ hkd)
      exact ⟨d, by rw [ht.alive, ht.pid]; exact hd, by rw [ht.other hdc]; exact hkd⟩
  · rcases hm hmut with hk | ⟨hold, hk⟩
    · exact ⟨c, by rw [ht.alive, ht.pid]; exact hc, hk⟩
    · obtain ⟨d, hd, token, next, hpd⟩ := h.mutation hold
      have hdc : d ≠ c := fun hdc => hk token next (hdc ▸ hpd)
      exact ⟨d, by rw [ht.alive, ht.pid]; exact hd, token, next,
        by rw [ht.other hdc]; exact hpd⟩

theorem removeStep_left {ρ : Type} {d : Dir ρ} (h : (removeStep d).1 = some none) :
    (removeStep d).2 = false := by
  unfold removeStep at h ⊢
  split at h
  · rfl
  · cases h
  · cases h

theorem Swept.outside (h : Swept s) (hc : s.alive (s.pid c) = true) (hpc : s.pc c = .at p)
    (hg : Sweeps new s (.step c ok)) (ho : s.outside c ok p = some t) : Swept t := by
  have hm := (outside_mutation ho).1
  refine h.turn (outside_turn ho) hc ?_ fun hmut => Or.inr ⟨hm ▸ hmut, by simp [hpc]⟩
  intro hl
  rw [hpc]
  cases p with
  | idle => cases ho
  | held _ _ => cases ho
  | returned _ => cases ho
  | acquiring =>
    simp only [Coordination.outside] at ho
    split at ho <;> cases ho
    · exact Or.inr ⟨hl, id⟩
    · exact Or.inl (by simp [Pc.stake, Place.stake, Stake.Sweeps])
    · exact Or.inr ⟨hl, id⟩
  | claiming token =>
    simp only [Coordination.outside] at ho
    split at ho <;> cases ho
    all_goals exact Or.inr ⟨hl, id⟩
  | made =>
    simp only [Coordination.outside] at ho
    split at ho <;> cases ho
    · cases hl
    · exact Or.inl (by simp [Pc.stake, Place.stake, Stake.Sweeps])
  | undo =>
    cases ok with
    | false => exact absurd hpc (hg.2.1 (by cases ho; exact hl))
    | true =>
      simp only [Coordination.outside, if_true, Option.some.injEq] at ho
      subst ho
      have hleft := removeStep_left hl
      exact Or.inl (by simp [hleft, Pc.stake, Place.stake, Stake.Sweeps])
  | fallback id mine =>
    cases mine with
    | false =>
      simp only [Coordination.outside] at ho
      split at ho <;> cases ho
      all_goals exact Or.inr ⟨hl, fun h => h⟩
    | true =>
      simp only [Coordination.outside] at ho
      split at ho <;> cases ho
      · have hleft := removeStep_left hl
        exact Or.inl (by simp [hleft, Pc.stake, Place.stake, Stake.Sweeps])
      · exact Or.inl (by simp [Pc.stake, Place.stake, Stake.Sweeps])

theorem Swept.inside (h : Swept s) (hc : s.alive (s.pid c) = true)
    (hpc : s.pc c = .inside token b) :
    Swept (s.inside c token ok b) := by
  have hm := (inside_mutation (s := s) (c := c) token ok b).1
  refine h.turn (inside_turn _ _ _) hc ?_ fun hmut => Or.inr ⟨hm ▸ hmut, by simp [hpc]⟩
  intro hl
  rw [hpc]
  by_cases hb : ∃ id, b = .remove id
  · obtain ⟨id, rfl⟩ := hb
    left
    revert hl
    simp only [Coordination.inside]
    split
    · intro hl
      have hleft := removeStep_left hl
      simp [hleft, Pc.stake, Body.stake, Stake.Sweeps]
    · intro _
      simp [Pc.stake, Place.stake, Stake.Sweeps]
  · refine Or.inr ⟨?_, ?_⟩
    · revert hl
      cases b with
      | remove id => exact absurd ⟨id, rfl⟩ hb
      | _ =>
        simp only [Coordination.inside]
        repeat' split
        all_goals simp
    · cases b with
      | remove id => exact absurd ⟨id, rfl⟩ hb
      | _ => exact id

theorem Swept.taking (h : Swept s) (hc : s.alive (s.pid c) = true)
    (hpc : s.pc c = .taking job ph) :
    Swept (s.taking c job ok ph) := by
  have hl := (taking_lock (s := s) (c := c) job ok ph).1
  refine h.turn (taking_turn _ _ _) hc (fun hlock => Or.inr ⟨hl ▸ hlock, ?_⟩)
    fun hmut => Or.inr ⟨?_, by simp [hpc]⟩
  · rw [hpc]
    cases job <;> exact id
  · revert hmut
    cases ph <;> simp only [Coordination.taking] <;> repeat' split
    all_goals simp

theorem Swept.leaving (h : Swept s) {removing : Bool} (hc : s.alive (s.pid c) = true)
    (hpc : s.pc c = .leaving token removing next) (hg : Sweeps new s (.step c ok)) :
    Swept (s.leaving c token next ok removing) := by
  have hl := (leaving_lock (s := s) (c := c) token next ok removing).1
  refine h.turn (leaving_turn _ _ _ _) hc ?_ ?_
  · intro hlock
    have hk : ((s.leaving c token next ok removing).pc c).stake = (s.pc c).stake := by
      rcases leaving_pc (s := s) (c := c) token next ok removing with hp | hp <;>
        simp [hp, hpc, Pc.stake]
    rw [hk]
    exact (Classical.em _).imp_right fun hno => ⟨hl ▸ hlock, hno⟩
  · intro hmut
    cases removing with
    | false =>
      refine Or.inr ⟨?_, by simp [hpc]⟩
      revert hmut
      simp only [Coordination.leaving]
      split <;> exact fun h => h
    | true =>
      cases ok with
      | false => exact absurd hpc (hg.2.2 hmut token next)
      | true =>
        simp only [Coordination.leaving, if_true] at hmut ⊢
        have hleft := removeStep_left hmut
        exact Or.inl ⟨token, next, by simp [hleft]⟩

theorem Swept.step (h : Swept s) (hg : Sweeps new s e)
    (he : lease.step s e = some t) : Swept t := by
  cases happens he with
  | crash p =>
    refine ⟨fun hl => ?_, fun hm => ?_⟩
    · obtain ⟨c, hc, hk⟩ := h.lock hl
      have hcp : s.pid c ≠ p := by
        rintro rfl
        exact hg c rfl hc (Or.inl ⟨hl, hk⟩)
      exact ⟨c, by simpa [Function.update_of_ne hcp] using hc, hk⟩
    · obtain ⟨c, hc, hk⟩ := h.mutation hm
      have hcp : s.pid c ≠ p := by
        rintro rfl
        exact hg c rfl hc (Or.inr ⟨hm, hk⟩)
      exact ⟨c, by simpa [Function.update_of_ne hcp] using hc, hk⟩
  | clock now => exact ⟨h.lock, h.mutation⟩
  | @begin c _ _ hc hb =>
    have hpc := begin_pc hb
    have hstake := begin_stake hb
    have hno : ∀ token next, s.pc c ≠ .leaving token true next := by
      intro token next hp
      simp [Coordination.begin, hp] at hb
    obtain ⟨pc, rfl⟩ := begin_eq hb
    refine h.turn (goto_turn pc) hc (fun hl => ?_) fun hm => Or.inr ⟨hm, hno⟩
    rw [hstake]
    exact (Classical.em _).imp_right fun hno => ⟨hl, hno⟩
  | outside hc hpc ho => exact h.outside hc hpc hg ho
  | taking hc hpc => exact h.taking hc hpc
  | inside hc hpc => exact h.inside hc hpc
  | leaving hc hpc => exact h.leaving hc hpc hg

theorem swept (h : Machine.ReachesUnder lease (Sweeps new) s) : Swept s :=
  h.invariant (fun _ h0 => init_swept h0) fun _ _ _ hI hg he => hI.step hg he

/-! ## The process to come -/

/-- A process that has not begun: its calls are idle, and no record names it. -/
structure Untouched (new : Nat) (s : Coordination) : Prop where
  idle : ∀ c, s.pid c = new → s.pc c = .at .idle
  mutation : ∀ o, s.mutation = some (some o) → o.pid ≠ new
  lock : ∀ r, s.lock = some (some r) → r.pid ≠ new

theorem init_untouched (new : Nat) (h : lease.init s) : Untouched new s := by
  obtain ⟨pid, alive, rfl⟩ := h
  refine ⟨fun _ _ => rfl, ?_, ?_⟩
  · intro o ho
    cases ho
  · intro r hr
    cases hr

theorem Untouched.turn (h : Untouched new s) (ht : Turn s t c) (hc : s.pid c ≠ new)
    (hm : ∀ o, t.mutation = some (some o) → s.mutation = some (some o) ∨ o.pid = s.pid c)
    (hl : ∀ r, t.lock = some (some r) → s.lock = some (some r) ∨ r.pid = s.pid c) :
    Untouched new t := by
  refine ⟨?_, ?_, ?_⟩
  · intro d hd
    rw [ht.pid] at hd
    have hdc : d ≠ c := fun hdc => hc (hdc ▸ hd)
    rw [ht.other hdc]
    exact h.idle d hd
  · intro o ho
    rcases hm o ho with hold | hpid
    · exact h.mutation o hold
    · exact hpid ▸ hc
  · intro r hr
    rcases hl r hr with hold | hpid
    · exact h.lock r hold
    · exact hpid ▸ hc

theorem taking_writes (h : (s.taking c job ok ph).mutation = some (some o)) :
    s.mutation = some (some o) ∨ o.pid = s.pid c := by
  revert h
  cases ph <;> simp only [taking] <;> repeat' split
  all_goals
    intro h
    first
    | exact Or.inl h
    | (cases h; exact Or.inr rfl)
    | cases h

theorem leaving_writes {removing : Bool}
    (h : (s.leaving c token next ok removing).mutation = some (some o)) :
    s.mutation = some (some o) := by
  revert h
  cases removing <;> simp only [leaving] <;> split
  · split <;> exact fun h => h
  · exact fun h => h
  · exact fun h => absurd h (removeStep_record _ o)
  · exact fun h => h

theorem inside_writes (hn : LockNames s) (hc : s.alive (s.pid c) = true)
    (hpc : s.pc c = .inside token b) (h : (s.inside c token ok b).lock = some (some r)) :
    s.lock = some (some r) ∨ r.pid = s.pid c := by
  revert h
  cases b with
  | pass tok o =>
    simp only [inside]
    split
    · intro h
      cases h
      rw [hn.passing c token tok o hc hpc]
      exact Or.inr rfl
    · exact Or.inl
  | take =>
    simp only [inside]
    split
    · intro h
      cases h
      exact Or.inr rfl
    · exact Or.inl
  | remove id =>
    simp only [inside]
    split
    · exact fun h => absurd h (removeStep_record _ r)
    · exact Or.inl
  | aside id =>
    simp only [inside]
    split
    · intro h
      cases h
    · exact Or.inl
    · exact Or.inl
  | _ =>
    simp only [inside]
    repeat' split
    all_goals exact Or.inl

theorem outside_writes (ho : s.outside c ok p = some t) (h : t.lock = some (some r)) :
    s.lock = some (some r) ∨ r.pid = s.pid c := by
  revert h
  cases p with
  | idle => cases ho
  | held _ _ => cases ho
  | returned _ => cases ho
  | acquiring =>
    simp only [outside] at ho
    split at ho <;> cases ho
    · exact Or.inl
    · intro h
      cases h
    · exact Or.inl
  | claiming token =>
    simp only [outside] at ho
    split at ho <;> cases ho
    all_goals exact Or.inl
  | made =>
    simp only [outside] at ho
    split at ho <;> cases ho
    · intro h
      cases h
      exact Or.inr rfl
    · exact Or.inl
  | undo =>
    simp only [outside] at ho
    split at ho <;> cases ho
    · exact fun h => absurd h (removeStep_record _ r)
    · exact Or.inl
  | fallback id mine =>
    cases mine <;> simp only [outside] at ho <;> split at ho <;> cases ho
    · exact Or.inl
    · exact Or.inl
    · exact fun h => absurd h (removeStep_record _ r)
    · exact Or.inl

theorem Sweeps.other (hg : Sweeps new s (.step c ok)) :
    s.pid c ≠ new := by
  cases ok with
  | true => exact hg
  | false => exact hg.1

theorem Untouched.step (h : Untouched new s) (hn : LockNames s) (hg : Sweeps new s e)
    (he : lease.step s e = some t) :
    Untouched new t := by
  cases happens he with
  | crash p => exact ⟨h.idle, h.mutation, h.lock⟩
  | clock now => exact ⟨h.idle, h.mutation, h.lock⟩
  | begin _ hb =>
    obtain ⟨pc, rfl⟩ := begin_eq hb
    exact h.turn (goto_turn pc) hg (fun _ => Or.inl) fun _ => Or.inl
  | outside _ _ ho =>
    have hm := (outside_mutation ho).1
    exact h.turn (outside_turn ho) hg.other (fun o hmut => Or.inl (hm ▸ hmut))
      fun r hl => outside_writes ho hl
  | @taking c ok job ph _ _ =>
    have hl := (taking_lock (s := s) (c := c) job ok ph).1
    exact h.turn (taking_turn _ _ _) hg.other (fun o => taking_writes)
      fun r hlock => Or.inl (hl ▸ hlock)
  | @inside c token ok b hc hpc =>
    have hm := (inside_mutation (s := s) (c := c) token ok b).1
    exact h.turn (inside_turn _ _ _) hg.other (fun o hmut => Or.inl (hm ▸ hmut))
      fun r => inside_writes hn hc hpc
  | @leaving c token ok removing next _ _ =>
    have hl := (leaving_lock (s := s) (c := c) token next ok removing).1
    exact h.turn (leaving_turn _ _ _ _) hg.other (fun o hm => Or.inl (leaving_writes hm))
      fun r hlock => Or.inl (hl ▸ hlock)

theorem untouched (h : Machine.ReachesUnder lease (Sweeps new) s) :
    Untouched new s :=
  h.invariant_with (fun _ hs => lockNames hs.reachable) (fun _ h0 => init_untouched new h0)
    fun _ _ _ hn _ hI hg he => hI.step hn hg he

/-! ## Alone -/

/-- Some steps of call `c`, each of them working, lead from `s` to `t`. -/
def Alone (c : Nat) (s t : Coordination) : Prop :=
  ∃ n, lease.run s (List.replicate n (.step c true)) = some t

theorem Alone.refl (c : Nat) (s : Coordination) : Alone c s s := ⟨0, rfl⟩

theorem Alone.trans (h : Alone c s t) (h' : Alone c t u) :
    Alone c s u := by
  obtain ⟨n, hn⟩ := h
  obtain ⟨m, hm⟩ := h'
  exact ⟨n + m, by rw [← List.replicate_append_replicate, Machine.run_append hn, hm]⟩

theorem Alone.step (hc : s.alive (s.pid c) = true) (hact : s.act c true = some t)
    (h : Alone c t u) : Alone c s u := by
  obtain ⟨n, hn⟩ := h
  refine ⟨n + 1, ?_⟩
  have hstep : lease.step s (.step c true) = some t := by
    simp [lease, Coordination.step, hc, hact]
  rw [List.replicate_succ, Machine.System.run, hstep]
  exact hn

@[simp] theorem goto_goto (pc pc' : Pc) : (s.goto c pc).goto c pc' = s.goto c pc' := by
  simp [goto]

theorem alone_take (job : Job) (hc : s.alive (s.pid c) = true)
    (hpc : s.pc c = .taking job .candidate) (hm : s.mutation = none) :
    Alone c s ({ s with
      mutation := some (some { token := s.minted, pid := s.pid c })
      minted := s.minted + 1 }.goto c (.inside s.minted job.body)) := by
  refine Alone.step hc (t := s.goto c (.taking job .rename)) (by simp [act, hpc, taking]) ?_
  refine Alone.step hc ?_ (Alone.refl _ _)
  simp [act, taking, hm, goto]

theorem alone_reclaim_mutation (hc : s.alive (s.pid c) = true)
    (hpc : s.pc c = .taking job .candidate) (hm : s.mutation = some (some o))
    (hdead : s.alive o.pid = false) (hfree : s.mutationAside o.token = none) :
    Alone c s ({ s with mutation := none }.goto c (.taking job .candidate)) := by
  refine Alone.step hc (t := s.goto c (.taking job .rename)) (by simp [act, hpc, taking]) ?_
  refine Alone.step hc (t := s.goto c (.taking job .look)) (by simp [act, taking, hm]) ?_
  refine Alone.step hc (t := s.goto c (.taking job (.presence o)))
    (by simp [act, taking, hm]) ?_
  refine Alone.step hc (t := s.goto c (.taking job (.aside o.token)))
    (by simp [act, taking, hdead]) ?_
  let aside := fun d => { s with
    mutation := none
    mutationAside := Function.update s.mutationAside o.token d }
  refine Alone.step hc (t := (aside (some (some o))).goto c (.taking job (.moved o.token)))
    (by simp [act, taking, hm, hfree, aside, goto]) ?_
  refine Alone.step hc (t := (aside (some (some o))).goto c (.taking job (.clear o.token)))
    (by simp [act, taking, aside]) ?_
  refine Alone.step hc (t := (aside (some none)).goto c (.taking job (.clear o.token)))
    (by simp [act, taking, aside, removeStep, goto]) ?_
  refine Alone.step hc ?_ (Alone.refl _ _)
  simp [act, taking, aside, removeStep, goto, ← hfree]

theorem alone_reclaim_lock (token : Nat) (hc : s.alive (s.pid c) = true)
    (hpc : s.pc c = .inside token .reclaim) (hl : s.lock = some (some r))
    (hfree : s.lockAside r.operationID = none)
    (hgone : ∀ h, r.handoff = some h → s.expired h = true)
    (hdead : r.handoff = none → s.alive r.pid = false) :
    Alone c s ({ s with lock := none }.goto c (.leaving token false .acquiring)) := by
  refine Alone.step hc (t := s.goto c (.inside token (.reread r.operationID)))
    (by simp [act, hpc, inside, hl]) ?_
  refine Alone.step hc (t := s.goto c (.inside token (.check r)))
    (by simp [act, inside, hl]) ?_
  have hcheck : (s.goto c (.inside token (.check r))).act c true =
      some (s.goto c (.inside token (.aside r.operationID))) := by
    cases hh : r.handoff with
    | none => simp [act, inside, hh, hdead hh]
    | some h =>
      have hexp : h.expiresAt ≤ s.now := by simpa [expired] using hgone h hh
      simp [act, inside, hh, expired, hexp]
  refine Alone.step hc hcheck ?_
  let aside := fun d => { s with
    lock := none
    lockAside := Function.update s.lockAside r.operationID d }
  refine Alone.step hc
    (t := (aside (some (some r))).goto c (.inside token (.moved r.operationID)))
    (by simp [act, inside, hl, hfree, aside, goto]) ?_
  refine Alone.step hc
    (t := (aside (some (some r))).goto c (.inside token (.clear r.operationID)))
    (by simp [act, inside, aside]) ?_
  refine Alone.step hc
    (t := (aside (some none)).goto c (.inside token (.clear r.operationID)))
    (by simp [act, inside, aside, removeStep, goto]) ?_
  refine Alone.step hc ?_ (Alone.refl _ _)
  simp [act, inside, aside, removeStep, goto, ← hfree]

theorem alone_leave {pid : Nat} (hc : s.alive (s.pid c) = true)
    (hpc : s.pc c = .leaving token false next) (hm : s.mutation = some (some { token, pid })) :
    Alone c s ({ s with mutation := none }.goto c (.at next)) := by
  refine Alone.step hc (t := s.goto c (.leaving token true next))
    (by simp [act, hpc, leaving, hm]) ?_
  refine Alone.step hc
    (t := { s with mutation := some none }.goto c (.leaving token true next))
    (by simp [act, leaving, hm, removeStep, goto]) ?_
  refine Alone.step hc ?_ (Alone.refl _ _)
  simp [act, leaving, removeStep, goto]

theorem alone_make (hc : s.alive (s.pid c) = true) (hpc : s.pc c = .at .acquiring)
    (hl : s.lock = none) :
    Alone c s ({ s with
      lock := some (some { operationID := s.minted, pid := s.pid c })
      minted := s.minted + 1 }.goto c (.at (.held s.minted false))) := by
  refine Alone.step hc (t := { s with lock := some none }.goto c (.at .made))
    (by simp [act, hpc, outside, hl]) ?_
  refine Alone.step hc ?_ (Alone.refl _ _)
  simp [act, outside, goto]

theorem alone_locks (job : Job) (hc : s.alive (s.pid c) = true)
    (hpc : s.pc c = .taking job .candidate)
    (hm : s.mutation = none ∨ ∃ o, s.mutation = some (some o) ∧
      s.alive o.pid = false ∧ s.mutationAside o.token = none) :
    Alone c s ({ s with
      mutation := some (some { token := s.minted, pid := s.pid c })
      minted := s.minted + 1 }.goto c (.inside s.minted job.body)) := by
  rcases hm with hm | ⟨o, hm, hdead, hfree⟩
  · exact alone_take job hc hpc hm
  · have htake := alone_take (s := { s with mutation := none }.goto c (.taking job .candidate))
      (c := c) job hc (by simp) rfl
    refine (alone_reclaim_mutation hc hpc hm hdead hfree).trans ?_
    simpa [goto] using htake

theorem Alone.finish {pid : Nat} (h : Alone c s u) (hc : u.alive (u.pid c) = true)
    (hpc : u.pc c = .leaving token false .acquiring)
    (hm : u.mutation = some (some { token, pid })) (hl : u.lock = none) :
    ∃ t id, Alone c s t ∧ t.pc c = .at (.held id false) ∧
      t.lock = some (some { operationID := id, pid := u.pid c }) := by
  have hmake := alone_make (s := { u with mutation := none }.goto c (.at .acquiring))
    (c := c) hc (by simp) hl
  exact ⟨_, u.minted, h.trans ((alone_leave hc hpc hm).trans hmake), by simp, rfl⟩

/-- A call that begins to acquire where nothing but records of dead owners and
expired handoffs is left comes to hold the lease. -/
theorem alone_acquires (hc : s.alive (s.pid c) = true) (hpc : s.pc c = .at .acquiring)
    (hm : s.mutation = none ∨ ∃ o, s.mutation = some (some o) ∧
      s.alive o.pid = false ∧ s.mutationAside o.token = none)
    (hl : s.lock = none ∨ ∃ r, s.lock = some (some r) ∧
      s.lockAside r.operationID = none ∧ (∀ h, r.handoff = some h → s.expired h = true) ∧
      (r.handoff = none → s.alive r.pid = false)) :
    ∃ t id, Alone c s t ∧ t.pc c = .at (.held id false) ∧
      t.lock = some (some { operationID := id, pid := s.pid c }) := by
  rcases hl with hl | ⟨r, hl, hfree, hgone, hdead⟩
  · exact ⟨_, s.minted, alone_make hc hpc hl, by simp, rfl⟩
  · have hbegin : Alone c s (s.goto c (.taking .reclaim .candidate)) :=
      Alone.step hc (by simp [act, hpc, outside, hl]) (Alone.refl _ _)
    have hlocked := alone_locks (s := s.goto c (.taking .reclaim .candidate)) (c := c)
      .reclaim hc (by simp) hm
    have hreclaimed := alone_reclaim_lock (c := c) (r := r)
      (s := { s.goto c (.taking .reclaim .candidate) with
        mutation := some (some { token := s.minted, pid := s.pid c })
        minted := s.minted + 1 }.goto c (.inside s.minted .reclaim))
      s.minted hc (by simp) hl hfree hgone hdead
    exact (hbegin.trans (hlocked.trans hreclaimed)).finish hc (by simp) rfl rfl

/-! ## The result -/

/-- Before process `new` acquires, no call answers for a directory without a
record any more, so there is none. -/
theorem Swept.no_bare (h : Swept s) (hu : Untouched new s)
    (hdead : ∀ p, p ≠ new → s.alive p = false) :
    s.lock ≠ some none ∧ s.mutation ≠ some none := by
  have hpid : ∀ d, s.alive (s.pid d) = true → s.pc d = .at .idle := by
    intro d hd
    refine hu.idle d ?_
    by_contra hne
    rw [hdead _ hne] at hd
    cases hd
  refine ⟨fun hl => ?_, fun hm => ?_⟩
  · obtain ⟨d, hd, hk⟩ := h.lock hl
    rw [hpid d hd] at hk
    exact hk
  · obtain ⟨d, hd, token, next, hpc⟩ := h.mutation hm
    rw [hpid d hd] at hpc
    cases hpc

/-- A run in which nobody dies or gives up while it answers for a directory
without a record leaves a root that can be acquired: with every process of it
dead and its handoff expired, a call of a new process that works alone comes to
hold the lease. -/
theorem acquires_after_crashes {new : Nat}
    (h : Machine.ReachesUnder lease (Sweeps new) s) (hnew : s.alive new = true)
    (hdead : ∀ p, p ≠ new → s.alive p = false)
    (hexpired : ∀ r hd, s.lock = some (some r) → r.handoff = some hd → s.expired hd = true)
    (hc : s.pid c = new) :
    ∃ n t id, lease.run s (.begin c .acquire :: List.replicate n (.step c true)) = some t ∧
      t.pc c = .at (.held id false) ∧
      t.lock = some (some { operationID := id, pid := new }) := by
  have hu := untouched h
  have hm := mutationNames h.reachable
  have hn := lockNames h.reachable
  obtain ⟨hnolock, hnomut⟩ := (swept h).no_bare hu hdead
  have halive : s.alive (s.pid c) = true := hc ▸ hnew
  have hmutation : s.mutation = none ∨ ∃ o, s.mutation = some (some o) ∧
      s.alive o.pid = false ∧ s.mutationAside o.token = none := by
    cases hmut : s.mutation with
    | none => exact Or.inl rfl
    | some d =>
      cases d with
      | none => exact absurd hmut hnomut
      | some o =>
        exact Or.inr ⟨o, rfl, hdead _ (hu.mutation o hmut), (hm.current o hmut).2⟩
  have hlock : s.lock = none ∨ ∃ r, s.lock = some (some r) ∧
      s.lockAside r.operationID = none ∧ (∀ h, r.handoff = some h → s.expired h = true) ∧
      (r.handoff = none → s.alive r.pid = false) := by
    cases hl : s.lock with
    | none => exact Or.inl rfl
    | some d =>
      cases d with
      | none => exact absurd hl hnolock
      | some r =>
        exact Or.inr ⟨r, rfl, (hn.record r hl).2, fun hd => hexpired r hd hl,
          fun _ => hdead _ (hu.lock r hl)⟩
  obtain ⟨t, id, ⟨n, hrun⟩, hpc, hl⟩ := alone_acquires (s := s.goto c (.at .acquiring))
    (c := c) halive (by simp) hmutation hlock
  have hbegin : lease.step s (.begin c .acquire) = some (s.goto c (.at .acquiring)) := by
    simp [lease, Coordination.step, Coordination.begin, halive, hu.idle c hc]
  refine ⟨n, t, id, ?_, hpc, ?_⟩
  · rw [Machine.System.run, hbegin]
    exact hrun
  · rw [hl, goto_pid, hc]

/-- Three processes, one for each of the first calls. -/
def threeProcesses : Coordination := { pid := id, alive := fun p => decide (p < 3) }

/-- Process 0 dies with the lease, process 2 with the mutation lock. -/
def diedHolding : List LeaseEvent :=
  [.begin 0 .acquire, .step 0 true, .step 0 true, .begin 2 .acquire, .step 2 true,
    .step 2 true, .step 2 true, .crash 0, .crash 2]

theorem others_dead {p : Nat} (hp : p ≠ 1) :
    Function.update (Function.update threeProcesses.alive 0 false) 2 false p = false := by
  by_cases h2 : p = 2
  · simp [h2]
  by_cases h0 : p = 0
  · simp [h0]
  · simp only [Function.update_of_ne h2, Function.update_of_ne h0, threeProcesses,
      decide_eq_false_iff_not]
    omega

theorem third_process_acquires :
    ∃ n t id, lease.run (lease.after threeProcesses diedHolding)
        (.begin 1 .acquire :: List.replicate n (.step 1 true)) = some t ∧
      t.pc 1 = .at (.held id false) ∧
      t.lock = some (some { operationID := id, pid := 1 }) := by
  have hguard : Machine.ReachesUnder lease (Sweeps 1)
      (lease.after threeProcesses diedHolding) := by
    refine Machine.reaches_under_after ⟨id, _, rfl⟩ ?_ (by decide)
    iterate 7
      refine ⟨show _ ≠ _ by decide, ?_⟩
      rintro _ ⟨⟩
    refine ⟨fun c _ _ h => ?_, ?_⟩
    · rcases h with ⟨hl, _⟩ | ⟨hm, _⟩
      · cases hl
      · cases hm
    rintro _ ⟨⟩
    refine ⟨fun c _ _ h => ?_, ?_⟩
    · rcases h with ⟨hl, _⟩ | ⟨hm, _⟩
      · cases hl
      · cases hm
    rintro _ ⟨⟩
    trivial
  refine acquires_after_crashes hguard (by decide) ?_ ?_ (by decide)
  · exact fun p hp => others_dead hp
  · intro r hd hl hh
    have hlock : (lease.after threeProcesses diedHolding).lock =
        some (some { operationID := 0, pid := 0 }) := by decide
    rw [hlock] at hl
    cases hl
    cases hh

/-- A lone call that goes round: the lock directory has no record, and the call
is at its `Mkdir` or under a `withMutation` that finds nothing to reclaim. -/
def Circling (s : Coordination) (c : Nat) : Prop :=
  s.lock = some none ∧ (s.pc c = .at .acquiring ∨ (∃ ph, s.pc c = .taking .reclaim ph) ∨
    (∃ token, s.pc c = .inside token .reclaim) ∨
    ∃ token removing, s.pc c = .leaving token removing .acquiring)

theorem Circling.act (h : Circling s c) (ha : s.act c true = some t) : Circling t c := by
  obtain ⟨hl, hpc | ⟨ph, hpc⟩ | ⟨token, hpc⟩ | ⟨token, removing, hpc⟩⟩ := h
  · simp only [Coordination.act, hpc, outside, hl, Option.some.injEq] at ha
    subst ha
    exact ⟨hl, Or.inr (Or.inl ⟨.candidate, by simp⟩)⟩
  · simp only [Coordination.act, hpc, Option.some.injEq] at ha
    subst ha
    refine ⟨by rw [(taking_lock _ _ _).1, hl], Or.inr ?_⟩
    cases ph <;> simp only [taking] <;> repeat' split
    all_goals simp_all [Job.body]
  · simp only [Coordination.act, hpc, inside, hl, Option.some.injEq] at ha
    subst ha
    exact ⟨hl, Or.inr (Or.inr (Or.inr ⟨token, false, by simp⟩))⟩
  · simp only [Coordination.act, hpc, Option.some.injEq] at ha
    subst ha
    refine ⟨by rw [(leaving_lock _ _ _ _).1, hl], ?_⟩
    rcases leaving_pc (s := s) (c := c) token .acquiring true removing with hp | hp
    · exact Or.inl hp
    · exact Or.inr (Or.inr (Or.inr ⟨token, true, hp⟩))

theorem Circling.run (h : Circling s c) {n : Nat}
    (hr : lease.run s (List.replicate n (.step c true)) = some t) : Circling t c := by
  induction n generalizing s with
  | zero =>
    cases hr
    exact h
  | succ n ih =>
    rw [List.replicate_succ] at hr
    obtain ⟨u, hu, hrest⟩ := Machine.run_cons hr
    simp only [lease, Coordination.step] at hu
    split at hu
    · exact ih (h.act hu) hrest
    · cases hu

/-- Process 0 dies between making the lock directory and writing its record. -/
def diedMaking : List LeaseEvent := [.begin 0 .acquire, .step 0 true, .crash 0, .crash 2]

theorem root_locked_for_ever :
    Machine.Reachable lease (lease.after threeProcesses diedMaking) ∧
      (∀ p, p ≠ 1 → (lease.after threeProcesses diedMaking).alive p = false) ∧
      (lease.after threeProcesses diedMaking).alive 1 = true ∧
      (lease.after threeProcesses diedMaking).lock = some none ∧
      ∀ n t, lease.run (lease.after threeProcesses diedMaking)
          (.begin 1 .acquire :: List.replicate n (.step 1 true)) = some t →
        ∀ id claimed, t.pc 1 ≠ .at (.held id claimed) := by
  refine ⟨Machine.reachable_after ⟨id, _, rfl⟩ (by decide), ?_, by decide,
    by decide, ?_⟩
  · exact fun p hp => others_dead hp
  · intro n t hr id claimed hpc
    obtain ⟨u, hu, hrest⟩ := Machine.run_cons hr
    cases hu
    have hcirc := Circling.run (c := 1) ⟨rfl, Or.inl rfl⟩ hrest
    obtain ⟨_, h | ⟨_, h⟩ | ⟨_, h⟩ | ⟨_, _, h⟩⟩ := hcirc <;> rw [hpc] at h <;> cases h

end Coordination

end LocalBase.Lease
