import LocalBase.Lease.Model

/-!
# Whether the mutation lock excludes

`withMutation` reclaims a dead owner's directory in four steps: it reads the
record, asks for the owner's presence, renames the directory aside and reads
what it moved. The name is the only thing the rename looks at. Between the read
and the rename another process may have reclaimed the dead owner's directory
and a third have taken the lock, and then the rename takes the lock from under
its live owner. The read that follows sees it and goes on waiting, but the name
is free by then, and the next candidate is renamed into it.

In a run where no rename does that, a live process that has the lock has its
own record in place, so nobody can take the lock before it is removed.
-/

namespace LocalBase.Lease

/-- The token of a call that has taken the mutation lock and is not done
removing it. -/
def Pc.token? : Pc → Option Nat
  | .inside token _ => some token
  | .leaving token _ _ => some token
  | _ => none

namespace Coordination

/-- A live process has the mutation lock through this call: its candidate was
renamed into place, and its deferred removal is not done. -/
def HasMutation (s : Coordination) (c : Nat) : Prop :=
  s.alive (s.pid c) = true ∧ (s.pc c).token?.isSome = true

/-- The rename aside moves the directory whose record was read. -/
def movesRead (s : Coordination) : LeaseEvent → Bool
  | .step c true =>
    match s.pc c with
    | .taking _ (.aside token) =>
      match s.mutation, s.mutationAside token with
      | some d, none => decide (d.map (·.token) = some token)
      | _, _ => true
    | _ => true
  | _ => true

def MovesRead (s : Coordination) (e : LeaseEvent) : Prop := s.movesRead e = true

instance (s : Coordination) (e : LeaseEvent) : Decidable (s.MovesRead e) :=
  inferInstanceAs (Decidable (_ = true))

/-- What holds of the mutation lock: a record read is the record of its token
for good, a rename aside is of a token whose owner is dead, and a live process
that has the lock has its record in place until it removes it. -/
structure Serial (s : Coordination) : Prop where
  fresh : ∀ o, s.mutation = some (some o) → o.token < s.minted
  seen : ∀ c job o, s.pc c = .taking job (.presence o) → o.token < s.minted ∧
    ∀ o', s.mutation = some (some o') → o'.token = o.token → o' = o
  dead : ∀ c job token, s.pc c = .taking job (.aside token) → token < s.minted ∧
    ∀ o, s.mutation = some (some o) → o.token = token → s.alive o.pid = false
  held : ∀ c token, s.alive (s.pid c) = true → (s.pc c).token? = some token →
    s.mutation = some (some { token, pid := s.pid c }) ∨
      ∃ next, s.pc c = .leaving token true next ∧ s.mutation = some none
  one : ∀ c d, s.HasMutation c → s.HasMutation d → c = d

variable {s t : Coordination} {c : Nat}

theorem Serial.mutation_ne_none (h : Serial s) (hc : s.HasMutation c) :
    s.mutation ≠ none := by
  obtain ⟨token, htok⟩ := Option.isSome_iff_exists.mp hc.2
  rcases h.held c token hc.1 htok with hm | ⟨_, _, hm⟩ <;> simp [hm]

theorem Serial.not_has_of_dead (h : Serial s) {o : MutationOwner}
    (hm : s.mutation = some (some o)) (hdead : s.alive o.pid = false) :
    ¬ s.HasMutation c := by
  intro hc
  obtain ⟨token, htok⟩ := Option.isSome_iff_exists.mp hc.2
  rcases h.held c token hc.1 htok with hm' | ⟨_, _, hm'⟩
  · rw [hm'] at hm
    cases hm
    rw [hc.1] at hdead
    cases hdead
  · rw [hm'] at hm
    cases hm

theorem init_serial (h : lease.init s) : Serial s := by
  obtain ⟨pid, alive, rfl⟩ := h
  refine ⟨?_, ?_, ?_, ?_, ?_⟩
  · intro o ho
    cases ho
  · intro c job o hpc
    cases hpc
  · intro c job token hpc
    cases hpc
  · intro c token _ htok
    cases htok
  · intro c d hc
    cases hc.2

/-- A step that leaves the mutation directory alone, and gives its call no new
claim on it. -/
theorem Serial.quiet (h : Serial s) (ht : Turn s t c)
    (hm : t.mutation = s.mutation)
    (hseen : ∀ job o, t.pc c = .taking job (.presence o) → o.token < s.minted ∧
      ∀ o', s.mutation = some (some o') → o'.token = o.token → o' = o)
    (hdead : ∀ job token, t.pc c = .taking job (.aside token) → token < s.minted ∧
      ∀ o, s.mutation = some (some o) → o.token = token → s.alive o.pid = false)
    (htok : ∀ token, (t.pc c).token? = some token →
      (s.pc c).token? = some token ∧ ∀ next, s.pc c ≠ .leaving token true next) :
    Serial t := by
  have hhas : ∀ d, t.HasMutation d → s.HasMutation d := by
    rintro d ⟨halive, hd⟩
    rw [ht.alive, ht.pid] at halive
    by_cases hdc : d = c
    · subst hdc
      obtain ⟨token, htoken⟩ := Option.isSome_iff_exists.mp hd
      exact ⟨halive, by rw [(htok token htoken).1]; rfl⟩
    · rw [ht.other hdc] at hd
      exact ⟨halive, hd⟩
  refine ⟨?_, ?_, ?_, ?_, ?_⟩
  · intro o ho
    rw [hm] at ho
    exact Nat.lt_of_lt_of_le (h.fresh o ho) ht.minted
  · intro d job o hpc
    have hold : o.token < s.minted ∧
        ∀ o', s.mutation = some (some o') → o'.token = o.token → o' = o := by
      by_cases hdc : d = c
      · subst hdc
        exact hseen job o hpc
      · rw [ht.other hdc] at hpc
        exact h.seen d job o hpc
    rw [hm]
    exact ⟨Nat.lt_of_lt_of_le hold.1 ht.minted, hold.2⟩
  · intro d job token hpc
    have hold : token < s.minted ∧
        ∀ o, s.mutation = some (some o) → o.token = token → s.alive o.pid = false := by
      by_cases hdc : d = c
      · subst hdc
        exact hdead job token hpc
      · rw [ht.other hdc] at hpc
        exact h.dead d job token hpc
    rw [hm, ht.alive]
    exact ⟨Nat.lt_of_lt_of_le hold.1 ht.minted, hold.2⟩
  · intro d token halive hd
    rw [ht.alive, ht.pid] at halive
    rw [hm, ht.pid]
    by_cases hdc : d = c
    · subst hdc
      obtain ⟨hs, hnot⟩ := htok token hd
      rcases h.held d token halive hs with hm' | ⟨next, hpc, _⟩
      · exact Or.inl hm'
      · exact absurd hpc (hnot next)
    · rw [ht.other hdc] at hd ⊢
      exact h.held d token halive hd
  · intro d e hd he
    exact h.one d e (hhas d hd) (hhas e he)

/-- The same, for a step that ends at none of the places the invariant is
about. -/
theorem Serial.away (h : Serial s) (ht : Turn s t c) (hm : t.mutation = s.mutation)
    (hpc : (∃ p, t.pc c = .at p) ∨ ∃ job ph, t.pc c = .taking job ph ∧
      (∀ o, ph ≠ .presence o) ∧ ∀ token, ph ≠ .aside token) : Serial t := by
  refine h.quiet ht hm ?_ ?_ ?_
  · intro job o hp
    rcases hpc with ⟨p, hpc⟩ | ⟨_, ph, hpc, hno, _⟩ <;> rw [hpc] at hp <;> cases hp
    exact absurd rfl (hno o)
  · intro job token hp
    rcases hpc with ⟨p, hpc⟩ | ⟨_, ph, hpc, _, hno⟩ <;> rw [hpc] at hp <;> cases hp
    exact absurd rfl (hno token)
  · intro token hp
    rcases hpc with ⟨p, hpc⟩ | ⟨_, ph, hpc, _, _⟩ <;> rw [hpc] at hp <;> cases hp

theorem Serial.begin (h : Serial s) {call : Call} (hb : s.begin c call = some t) :
    Serial t := by
  have hpc := begin_pc hb
  obtain ⟨pc, rfl⟩ := begin_eq hb
  refine h.away (goto_turn pc) rfl ?_
  rcases hpc with hp | ⟨job, hp⟩
  · exact Or.inl hp
  · exact Or.inr ⟨job, .candidate, hp, by simp, by simp⟩

theorem Serial.outside (h : Serial s) {ok : Bool} {p : Place}
    (ho : s.outside c ok p = some t) : Serial t := by
  refine h.away (outside_turn ho) (outside_mutation ho).1 ?_
  rcases outside_pc ho with hp | ⟨job, hp⟩
  · exact Or.inl hp
  · exact Or.inr ⟨job, .candidate, hp, by simp, by simp⟩

theorem Serial.inside (h : Serial s) {token : Nat} {ok : Bool} {b : Body}
    (hpc : s.pc c = .inside token b) : Serial (s.inside c token ok b) := by
  refine h.quiet (inside_turn _ _ _) (inside_mutation _ _ _).1 ?_ ?_ ?_
  all_goals
    rcases inside_pc (s := s) (c := c) token ok b with ⟨b', hb⟩ | ⟨next, hb⟩ <;>
      simp [hb, hpc, Pc.token?]

theorem Serial.take (h : Serial s) (hm : s.mutation = none)
    (halive : s.alive (s.pid c) = true) (b : Body) :
    Serial ({ s with
      mutation := some (some { token := s.minted, pid := s.pid c })
      minted := s.minted + 1 }.goto c (.inside s.minted b)) := by
  have hno : ∀ d, ¬ s.HasMutation d := fun d hd => h.mutation_ne_none hd hm
  have hfree : ∀ d, d ≠ c → s.alive (s.pid d) = true → (s.pc d).token? = none := by
    intro d _ hd
    by_contra htok
    exact hno d ⟨hd, Option.isSome_iff_ne_none.mpr htok⟩
  refine ⟨?_, ?_, ?_, ?_, ?_⟩
  · intro o ho
    cases ho
    exact Nat.lt_succ_self _
  · intro d job o hpc
    by_cases hdc : d = c
    · subst hdc
      simp at hpc
    · simp only [goto_pc, Function.update_of_ne hdc] at hpc
      have hlt := (h.seen d job o hpc).1
      refine ⟨Nat.lt_succ_of_lt hlt, fun o' ho' heq => ?_⟩
      cases ho'
      simp only at heq
      omega
  · intro d job token hpc
    by_cases hdc : d = c
    · subst hdc
      simp at hpc
    · simp only [goto_pc, Function.update_of_ne hdc] at hpc
      have hlt := (h.dead d job token hpc).1
      refine ⟨Nat.lt_succ_of_lt hlt, fun o' ho' heq => ?_⟩
      cases ho'
      simp only at heq
      omega
  · intro d token hd htok
    by_cases hdc : d = c
    · subst hdc
      simp only [goto_pc, Function.update_self, Pc.token?, Option.some.injEq] at htok
      subst htok
      exact Or.inl rfl
    · simp only [goto_pc, Function.update_of_ne hdc] at htok
      rw [hfree d hdc hd] at htok
      cases htok
  · intro d e hd he
    have hself : ∀ x, HasMutation ({ s with
        mutation := some (some { token := s.minted, pid := s.pid c })
        minted := s.minted + 1 }.goto c (.inside s.minted b)) x → x = c := by
      intro x hx
      by_contra hxc
      have htok := hx.2
      simp only [goto_pc, Function.update_of_ne hxc] at htok
      rw [hfree x hxc hx.1] at htok
      cases htok
    rw [hself d hd, hself e he]

theorem Serial.aside (h : Serial s) {job : Job} {o : MutationOwner}
    (hpc : s.pc c = .taking job (.aside o.token)) (hm : s.mutation = some (some o))
    (d : Dir MutationOwner) :
    Serial ({ s with
      mutation := none
      mutationAside := Function.update s.mutationAside o.token d }.goto c
        (.taking job (.moved o.token))) := by
  have hno : ∀ d, ¬ s.HasMutation d := fun _ =>
    h.not_has_of_dead hm ((h.dead c job o.token hpc).2 o hm rfl)
  have hfree : ∀ e, s.alive (s.pid e) = true → (s.pc e).token? = none := by
    intro e he
    by_contra htok
    exact hno e ⟨he, Option.isSome_iff_ne_none.mpr htok⟩
  have hnone : ∀ e, s.alive (s.pid e) = true →
      (Function.update s.pc c (.taking job (.moved o.token)) e).token? = none := by
    intro e he
    by_cases hec : e = c
    · subst hec
      simp [Pc.token?]
    · rw [Function.update_of_ne hec]
      exact hfree e he
  refine ⟨?_, ?_, ?_, ?_, ?_⟩
  · intro o' ho'
    cases ho'
  · intro e job' o' hpc'
    by_cases hec : e = c
    · subst hec
      simp at hpc'
    · simp only [goto_pc, Function.update_of_ne hec] at hpc'
      exact ⟨(h.seen e job' o' hpc').1, fun _ ho => by cases ho⟩
  · intro e job' token hpc'
    by_cases hec : e = c
    · subst hec
      simp at hpc'
    · simp only [goto_pc, Function.update_of_ne hec] at hpc'
      exact ⟨(h.dead e job' token hpc').1, fun _ ho => by cases ho⟩
  · intro e token he htok
    rw [goto_pc, hnone e he] at htok
    cases htok
  · intro e f he
    have htok := he.2
    rw [goto_pc, hnone e he.1] at htok
    cases htok

theorem Serial.taking (h : Serial s) {job : Job} {ph : Taking} {ok : Bool}
    (hpc : s.pc c = .taking job ph) (halive : s.alive (s.pid c) = true)
    (hg : s.MovesRead (.step c ok)) : Serial (s.taking c job ok ph) := by
  -- All but four of the steps go to a harmless place.
  have haway : ∀ ph', (∀ o, ph' ≠ Taking.presence o) → (∀ token, ph' ≠ .aside token) →
      Serial (s.goto c (.taking job ph')) := fun ph' h1 h2 =>
    h.away (goto_turn _) rfl (Or.inr ⟨job, ph', by simp, h1, h2⟩)
  have hfailed : Serial (s.goto c (.at job.failed)) :=
    h.away (goto_turn _) rfl (Or.inl ⟨job.failed, by simp⟩)
  cases ph with
  | candidate =>
    simp only [Coordination.taking]
    split
    · exact haway .rename (by simp) (by simp)
    · exact hfailed
  | rename =>
    simp only [Coordination.taking]
    split
    · exact hfailed
    · exact haway .look (by simp) (by simp)
    · next hm => exact h.take hm halive job.body
  | look =>
    simp only [Coordination.taking]
    split
    · next o hm =>
      refine h.quiet (goto_turn _) rfl ?_ (by simp) (by simp [Pc.token?])
      intro job' o' hpc'
      simp only [goto_pc, Function.update_self, Pc.taking.injEq,
        Taking.presence.injEq] at hpc'
      obtain ⟨_, rfl⟩ := hpc'
      refine ⟨h.fresh o hm, fun o' ho' _ => ?_⟩
      rw [hm] at ho'
      cases ho'
      rfl
    · exact haway .sleep (by simp) (by simp)
  | presence o =>
    simp only [Coordination.taking]
    split
    · next hgone =>
      refine h.quiet (goto_turn _) rfl (by simp) ?_ (by simp [Pc.token?])
      intro job' token hpc'
      simp only [goto_pc, Function.update_self, Pc.taking.injEq,
        Taking.aside.injEq] at hpc'
      obtain ⟨_, rfl⟩ := hpc'
      obtain ⟨hlt, hsame⟩ := h.seen c job o hpc
      refine ⟨hlt, fun o' ho' heq => ?_⟩
      rw [hsame o' ho' heq]
      simp only [Bool.and_eq_true, Bool.not_eq_true'] at hgone
      exact hgone.2
    · exact haway .sleep (by simp) (by simp)
  | aside token =>
    simp only [Coordination.taking]
    split
    · next d hm haside =>
      simp only [MovesRead, movesRead, hpc, hm, haside, decide_eq_true_eq,
        Option.map_eq_some_iff] at hg
      obtain ⟨o, rfl, rfl⟩ := hg
      exact h.aside hpc hm _
    · exact haway .sleep (by simp) (by simp)
  | moved token =>
    simp only [Coordination.taking]
    split
    · split
      · exact haway (.clear token) (by simp) (by simp)
      · exact haway .sleep (by simp) (by simp)
    · exact haway .sleep (by simp) (by simp)
  | clear token =>
    simp only [Coordination.taking]
    split
    · refine h.away (Turn.of_goto rfl rfl rfl rfl (Nat.le_refl _) rfl) rfl (Or.inr ?_)
      split
      · exact ⟨job, .candidate, by simp, by simp, by simp⟩
      · exact ⟨job, .clear token, by simp, by simp, by simp⟩
    · exact haway .candidate (by simp) (by simp)
  | sleep =>
    simp only [Coordination.taking]
    split
    · exact haway .candidate (by simp) (by simp)
    · exact hfailed

/-- One more entry of the mutation directory goes, and its remover is the only
live process that has the lock. -/
theorem Serial.remove (h : Serial s) {token : Nat} {next : Place}
    (hpc : s.pc c = .leaving token true next) (halive : s.alive (s.pid c) = true) :
    Serial ({ s with mutation := (removeStep s.mutation).1 }.goto c
      (if (removeStep s.mutation).2 then .at next else .leaving token true next)) := by
  have hhas : s.HasMutation c := ⟨halive, by simp [hpc, Pc.token?]⟩
  have hfree : ∀ d, d ≠ c → s.alive (s.pid d) = true → (s.pc d).token? = none := by
    intro d hdc hd
    by_contra htok
    exact hdc (h.one d c ⟨hd, Option.isSome_iff_ne_none.mpr htok⟩ hhas)
  have hgone : ∀ o, (removeStep s.mutation).1 ≠ some (some o) := by
    intro o
    unfold removeStep
    split <;> simp
  have hpc' : ∀ job ph, (if (removeStep s.mutation).2 then Pc.at next
      else .leaving token true next) ≠ .taking job ph := by
    intro job ph
    split <;> simp
  refine ⟨?_, ?_, ?_, ?_, ?_⟩
  · intro o ho
    exact absurd ho (hgone o)
  · intro d job o hd
    by_cases hdc : d = c
    · subst hdc
      exact absurd hd (by simpa using hpc' job (.presence o))
    · simp only [goto_pc, Function.update_of_ne hdc] at hd
      exact ⟨(h.seen d job o hd).1, fun o' ho' => absurd ho' (hgone o')⟩
  · intro d job tok hd
    by_cases hdc : d = c
    · subst hdc
      exact absurd hd (by simpa using hpc' job (.aside tok))
    · simp only [goto_pc, Function.update_of_ne hdc] at hd
      exact ⟨(h.dead d job tok hd).1, fun o' ho' => absurd ho' (hgone o')⟩
  · intro d tok hd htok
    by_cases hdc : d = c
    · subst hdc
      right
      simp only [goto_pc, Function.update_self] at htok ⊢
      rcases h.held d token halive (by simp [hpc, Pc.token?]) with hm | ⟨_, _, hm⟩
      · rw [hm] at htok ⊢
        simp only [removeStep, Bool.false_eq_true, if_false, Pc.token?,
          Option.some.injEq] at htok
        subst htok
        exact ⟨next, by simp [removeStep], by simp [removeStep]⟩
      · rw [hm] at htok
        simp [removeStep, Pc.token?] at htok
    · simp only [goto_pc, Function.update_of_ne hdc] at htok
      rw [hfree d hdc hd] at htok
      cases htok
  · intro d e hd he
    have hself : ∀ x, HasMutation ({ s with mutation := (removeStep s.mutation).1 }.goto c
        (if (removeStep s.mutation).2 then .at next else .leaving token true next)) x →
        x = c := by
      intro x hx
      by_contra hxc
      have htok := hx.2
      simp only [goto_pc, Function.update_of_ne hxc] at htok
      rw [hfree x hxc hx.1] at htok
      cases htok
    rw [hself d hd, hself e he]

theorem Serial.leaving (h : Serial s) {token : Nat} {next : Place} {ok removing : Bool}
    (hpc : s.pc c = .leaving token removing next) (halive : s.alive (s.pid c) = true) :
    Serial (s.leaving c token next ok removing) := by
  have hat : Serial (s.goto c (.at next)) :=
    h.away (goto_turn _) rfl (Or.inl ⟨next, by simp⟩)
  cases removing with
  | false =>
    simp only [Coordination.leaving]
    split
    · split
      · refine h.quiet (goto_turn _) rfl (by simp) (by simp) ?_
        intro tok htok
        simp only [goto_pc, Function.update_self, Pc.token?, Option.some.injEq] at htok
        subst htok
        exact ⟨by simp [hpc, Pc.token?], by simp [hpc]⟩
      · exact hat
    · exact hat
  | true =>
    simp only [Coordination.leaving]
    split
    · exact h.remove hpc halive
    · exact hat

theorem Serial.crash (h : Serial s) (p : Nat) :
    Serial { s with alive := Function.update s.alive p false } := by
  have hback : ∀ q, Function.update s.alive p false q = true → s.alive q = true := by
    intro q hq
    by_cases hqp : q = p
    · subst hqp
      simp at hq
    · rwa [Function.update_of_ne hqp] at hq
  have hstay : ∀ q, s.alive q = false → Function.update s.alive p false q = false := by
    intro q hq
    by_cases hqp : q = p
    · subst hqp
      simp
    · rwa [Function.update_of_ne hqp]
  refine ⟨h.fresh, h.seen, ?_, ?_, ?_⟩
  · intro c job token hpc
    exact ⟨(h.dead c job token hpc).1, fun o ho heq =>
      hstay _ ((h.dead c job token hpc).2 o ho heq)⟩
  · intro c token halive htok
    exact h.held c token (hback _ halive) htok
  · intro c d hc hd
    exact h.one c d ⟨hback _ hc.1, hc.2⟩ ⟨hback _ hd.1, hd.2⟩

theorem Serial.step (h : Serial s) {e : LeaseEvent} (hg : s.MovesRead e)
    (he : lease.step s e = some t) : Serial t := by
  cases happens he with
  | crash p => exact h.crash p
  | clock now => exact ⟨h.fresh, h.seen, h.dead, h.held, h.one⟩
  | begin _ hb => exact h.begin hb
  | outside _ _ ho => exact h.outside ho
  | taking hc hpc => exact h.taking hpc hc hg
  | inside _ hpc => exact h.inside hpc
  | leaving hc hpc => exact h.leaving hpc hc

theorem serial (h : Machine.ReachesUnder lease MovesRead s) : Serial s :=
  h.invariant (fun _ h0 => init_serial h0) fun _ _ _ hI hg he => hI.step hg he

/-! ## The result -/

/-- In a run whose renames aside move what was read, two calls of live processes
never have the mutation lock at once. -/
theorem mutation_excludes {d : Nat} (h : Machine.ReachesUnder lease MovesRead s)
    (hcd : c ≠ d) (hc : s.HasMutation c) : ¬ s.HasMutation d :=
  fun hd => hcd ((serial h).one c d hc hd)

/-- Call 0 has the root's lease, and call 1 the mutation lock on its way to find
that out. -/
def mutationTaken : List LeaseEvent :=
  [.begin 0 .acquire, .step 0 true, .step 0 true, .begin 1 .acquire, .step 1 true,
    .step 1 true, .step 1 true]

/-- Every call in its own process. -/
def ownProcesses : Coordination := { pid := id }

theorem second_call_without :
    ¬ (lease.after ownProcesses (mutationTaken ++ [.begin 2 .acquire])).HasMutation 2 :=
  mutation_excludes (c := 1)
    (Machine.reaches_under_after ⟨id, _, rfl⟩ (by decide) (by decide))
    (by decide) ⟨by decide, by decide⟩

/-- Call 1's process dies with the mutation lock. Calls 2 and 3 both find it so;
3 reclaims the directory and takes the lock, 2 renames it aside, 4 takes it. -/
def lateRename : List LeaseEvent :=
  mutationTaken ++ .crash 1 ::
    [.begin 2 .acquire, .begin 3 .acquire, .begin 4 .acquire] ++
    List.replicate 5 (.step 2 true) ++ List.replicate 11 (.step 3 true) ++
    [.step 2 true] ++ List.replicate 3 (.step 4 true)

theorem mutation_held_twice :
    Machine.Reachable lease (lease.after ownProcesses lateRename) ∧
      (lease.after ownProcesses lateRename).HasMutation 3 ∧
      (lease.after ownProcesses lateRename).HasMutation 4 ∧
      (lease.after ownProcesses lateRename).pc 3 = .inside 2 .reclaim ∧
      (lease.after ownProcesses lateRename).pc 4 = .inside 3 .reclaim := by
  refine ⟨Machine.reachable_after ⟨id, _, rfl⟩ ?_, ⟨?_, ?_⟩, ⟨?_, ?_⟩, ?_, ?_⟩ <;>
    decide

end Coordination

end LocalBase.Lease
