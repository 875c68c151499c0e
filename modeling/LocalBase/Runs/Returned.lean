import LocalBase.Runs.Held

/-!
# Every byte is given back

A run that goes out of the map is released by whoever took it out, and what it
takes after that is given back by `finish`, or by `create` when it never
reached the queue. `Accounted` is what a run out of the map, and out of the
hands of the deletions and sweeps, still has to look forward to: somebody who
will release it, or nothing left to release and nobody left to add to it.
-/

namespace LocalBase.Runs

open Machine Relation

inductive Call.Accounted (c : Call) : Prop
  /-- `create` forgets the run. -/
  | forgetting : c.create = .forgetting ∨ c.create = .releasing → Accounted c
  /-- `finish` gives back what a deleted run held since. -/
  | finishing : c.inner = .releasing → Accounted c
  | dismissed : c.run.dismissed = true → c.inner.active = true → Accounted c
  /-- Refused before the queue, which `create` will find. -/
  | unqueued : c.run.queuedSeen = false → c.create = .waiting → c.inner = .settled → Accounted c
  | empty : c.inner.active = false → c.run.held = 0 → c.run.body = 0 → Accounted c

variable {r : Run}

namespace Call

variable {cfg : Config} {held n : Int} {c c' : Call} {e : CallEvent}

theorem Sound.create_ne_forget (h : c.Sound) (hi : c.inner.active = true) :
    ¬ (c.create = .forgetting ∨ c.create = .releasing) := by
  rintro (hc | hc)
  · rw [(h.forgotten (Or.inl hc)).inner] at hi
    cases hi
  · rw [(h.forgotten (Or.inr (Or.inl hc))).inner] at hi
    cases hi

theorem Accounted.dismissed_of_active (ha : c.Accounted) (h : c.Sound)
    (hi : c.inner.active = true) : c.run.dismissed = true := by
  cases ha with
  | forgetting hc => exact absurd hc (h.create_ne_forget hi)
  | finishing hr => rw [hr] at hi; cases hi
  | dismissed hd => exact hd
  | unqueued _ _ hs => rw [hs] at hi; cases hi
  | empty hi' => rw [hi] at hi'; cases hi'

theorem stop_dismissed {status : Status} {reason : Reason} :
    (r.stop status reason).dismissed = r.dismissed := by
  unfold Run.stop
  split <;> rfl

theorem stopChunk_dismissed {reason : Reason} :
    (r.stopChunk reason).dismissed = r.dismissed := by
  unfold Run.stopChunk
  split <;> rfl

theorem Section.dismissed (hs : Section cfg held e c c' n) :
    c'.run.dismissed = c.run.dismissed := by
  cases hs with
  | stopping | stop => exact stop_dismissed
  | past | uncharged => exact stopChunk_dismissed
  | _ => rfl

theorem Accounted.still (ha : c.Accounted) (hd : c.run.dismissed = true → r.dismissed = true)
    (hq : r.queuedSeen = c.run.queuedSeen)
    (hz : c.run.held = 0 → c.run.body = 0 → r.held = 0 ∧ r.body = 0) :
    Accounted { c with run := r } := by
  cases ha with
  | forgetting hc => exact .forgetting hc
  | finishing hr => exact .finishing hr
  | dismissed hd' hi => exact .dismissed (hd hd') hi
  | unqueued hq' hc hs => exact .unqueued (hq.trans hq') hc hs
  | empty hi hh hb => exact .empty hi (hz hh hb).1 (hz hh hb).2

theorem Section.accounted (h : c.Sound) (hp : c.create.published = true) (ha : c.Accounted)
    (hs : Section cfg held e c c' n) : c'.Accounted := by
  have hd := hs.dismissed
  -- While the inner request is active, the deletion is what is left of it.
  have hgo : c.inner.active = true → c'.inner.active = true → c'.Accounted :=
    fun hi hi' => .dismissed (hd.trans (ha.dismissed_of_active h hi)) hi'
  have hrun : c.inner = .running → c'.inner = .running → c'.Accounted :=
    fun hi hi' => hgo (by rw [hi]; rfl) (by rw [hi']; rfl)
  cases hs with
  | charge hc | unsized hc | refused hc | full hc => rw [hc] at hp; cases hp
  | gaveBody hi => exact hgo (by rw [hi]; rfl) rfl
  | answer hc hq =>
    cases ha with
    | forgetting hc' => rcases hc' with hc' | hc' <;> rw [hc] at hc' <;> cases hc'
    | finishing hr => exact .finishing hr
    | dismissed hd' hi => exact .dismissed hd' hi
    | unqueued hq' => rw [hq] at hq'; cases hq'
    | empty hi hh hb => exact .empty hi hh hb
  | refuse => exact .forgetting (Or.inl rfl)
  | queued hh | admitted hh | finished hh | writer hh | body hh | error hh | past hh
  | charging hh => exact hrun hh.inner hh.inner
  | added hpc | exceeding hpc | stopping hpc | uncharged hpc | charged hpc =>
    have hi := h.writing (by rw [hpc]; simp)
    exact hrun hi hi
  | returned hh => exact hgo (by rw [hh.inner]; rfl) rfl
  | finishBody hi hinner =>
    refine hgo (by rw [hi]; rfl) ?_
    rcases hinner with rfl | rfl <;> rfl
  | unseen hi hq =>
    have hr := h.running (by rw [hi]; rfl)
    rcases hr.create with hc | ⟨_, hq'⟩
    · exact .unqueued hq hc rfl
    · rw [hq] at hq'; cases hq'
  | ended hi _ hinner =>
    have hdis := ha.dismissed_of_active h (by rw [hi]; rfl)
    rcases hinner with ⟨_, rfl⟩ | ⟨hno, _⟩
    · exact .finishing rfl
    · rw [hdis] at hno; cases hno
  | finishRelease => exact .empty rfl rfl rfl
  | stop =>
    exact ha.still (fun hdis => stop_dismissed.trans hdis) Run.still_stop.queuedSeen
      fun hh hb => ⟨Run.stop_held.trans hh, Run.stop_body.trans hb⟩

end Call

variable {cfg : Config} {G : Int → Call → CallEvent → Prop} {n : Int} {c : Call}

theorem Move.dismissed_mono {c' : Call} (hm : Move cfg G c c') (hd : c.run.dismissed = true) :
    c'.run.dismissed = true := by
  cases hm with
  | create => cases hd
  | «section» _ hs => exact (Call.section_of_step hs).dismissed.trans hd
  | stop => exact Call.stop_dismissed.trans hd
  | dismissed => rfl
  | _ => exact hd

theorem Move.accounted {c' : Call} (hm : Move cfg G c c') (h : c.Sound)
    (hp : c.create.published = true) (ha : c.Accounted) : c'.Accounted := by
  cases hm with
  | create => cases hp
  | «section» _ hs => exact (Call.section_of_step hs).accounted h hp ha
  | publish hc => rw [hc] at hp; cases hp
  | ended hc => rw [hc] at hp; cases hp
  | refuse hc => rcases hc with hc | ⟨_, e, hc⟩ <;> rw [hc] at hp <;> cases hp
  | forget => exact .forgetting (Or.inr rfl)
  | forgotten hc =>
    refine .empty ?_ rfl rfl
    rw [(h.forgotten (Or.inr (Or.inl hc))).inner]
    rfl
  | stop =>
    exact ha.still (fun hdis => Call.stop_dismissed.trans hdis) Run.still_stop.queuedSeen
      fun hh hb => ⟨Run.stop_held.trans hh, Run.stop_body.trans hb⟩
  | dismissed => exact ha.still (fun _ => rfl) rfl fun hh hb => ⟨hh, hb⟩
  | release => exact ha.still id rfl fun _ _ => ⟨rfl, rfl⟩

/-- A release leaves nothing, unless the run is still active; then it must
have been marked as deleted. -/
theorem Call.accounted_release (h : c.Sound)
    (hd : c.run.terminal = true ∨ c.run.dismissed = true) :
    Accounted { c with run := c.run.release } := by
  cases hi : c.inner.active with
  | false => exact .empty hi rfl rfl
  | true =>
    rcases hd with ht | hd
    · rw [(h.running hi).live.terminal] at ht
      cases ht
    · exact .dismissed hd hi

theorem Call.Section.unpublished {held : Int} {c' : Call} {e : CallEvent}
    (hs : Section cfg held e c c' n) (hp : c'.create.published = true) :
    c.create.published = true := by
  cases hs with
  | charge _ hpc => rcases hpc with rfl | rfl <;> cases hp
  | unsized | refused | full => cases hp
  | answer hc | refuse hc => rw [hc]; rfl
  | _ => exact hp

/-- What a number of moves keep of one run. -/
structure Kept (c c' : Call) : Prop where
  sound : c.Sound → c'.Sound
  published : c.create.published = true → c'.create.published = true
  dismissed : c.run.dismissed = true → c'.run.dismissed = true
  terminal : c.Sound → c.run.terminal = true → c'.run.terminal = true
  accounted : c.Sound → c.create.published = true → c.Accounted → c'.Accounted

theorem Kept.refl (c : Call) : Kept c c := ⟨id, id, id, fun _ => id, fun _ _ => id⟩

theorem kept_of_moves {c' : Call} (h : ReflTransGen (Move cfg G) c c') : Kept c c' := by
  induction h with
  | refl => exact Kept.refl _
  | tail _ hm ih =>
    exact
      { sound := fun hs => hm.sound (ih.sound hs)
        published := fun hp => hm.published (ih.published hp)
        dismissed := fun hd => hm.dismissed_mono (ih.dismissed hd)
        terminal := fun hs ht => hm.terminal (ih.sound hs) (ih.terminal hs ht)
        accounted := fun hs hp ha =>
          hm.accounted (ih.sound hs) (ih.published hp) (ih.accounted hs hp ha) }

/-! ## Nothing is forgotten -/

namespace Manager

variable {w w' : Manager} {k l : Nat} {j : Nat} {pc : DeletePc}

/-- A deletion or a sweep has taken the run out of the map, to release it. -/
def Taken (w : Manager) (k : Nat) : Prop :=
  (∃ j, w.delete j = .removed k ∨ w.delete j = .marked k) ∨ ∃ i, k ∈ w.sweep i

structure Returns (w : Manager) : Prop where
  marked : ∀ j k, w.delete j = .marked k → (w.call k).run.dismissed = true
  swept : ∀ i, ∀ k ∈ w.sweep i, (w.call k).run.terminal = true
  dropped : ∀ k, (w.call k).create.published = true → k ∉ w.runs →
    w.Taken k ∨ (w.call k).Accounted

theorem returns_init (h : w.Started) : w.Returns where
  marked j k hj := by
    rw [h.delete j] at hj
    cases hj
  swept i k hk := by
    rw [h.sweep i] at hk
    cases hk
  dropped k hp hk := by
    rw [h.fresh k (Nat.not_lt.mp fun hlt => hk ((h.runs k).mpr hlt))] at hp
    cases hp

/-- A step keeps the account when every run out of the map is accounted for
after it, or was out of the map before and in nobody's hands who let it go. -/
theorem Returns.frame (h : w.Returns) (hsound : ∀ k, (w.call k).Sound)
    (hkept : ∀ k, Kept (w.call k) (w'.call k))
    (hmarked : ∀ j k, w'.delete j = .marked k →
      w.delete j = .marked k ∨ (w'.call k).run.dismissed = true)
    (hswept : ∀ i, ∀ k ∈ w'.sweep i, k ∈ w.sweep i ∨ (w'.call k).run.terminal = true)
    (hdropped : ∀ k, (w'.call k).create.published = true → k ∉ w'.runs →
      w'.Taken k ∨ (w'.call k).Accounted ∨
        (w.call k).create.published = true ∧ k ∉ w.runs ∧
          (w.Taken k → w'.Taken k ∨ (w'.call k).Accounted)) : w'.Returns where
  marked j k hj := by
    rcases hmarked j k hj with hj | hd
    · exact (hkept k).dismissed (h.marked j k hj)
    · exact hd
  swept i k hk := by
    rcases hswept i k hk with hk | ht
    · exact (hkept k).terminal (hsound k) (h.swept i k hk)
    · exact ht
  dropped k hp hk := by
    rcases hdropped k hp hk with ht | ha | ⟨hp, hk, ht⟩
    · exact Or.inl ht
    · exact Or.inr ha
    · rcases h.dropped k hp hk with htaken | ha
      · exact ht htaken
      · exact Or.inr ((hkept k).accounted (hsound k) hp ha)

theorem kept_setCall (hm : Kept (w.call k) c) (l : Nat) :
    Kept (w.call l) ((w.setCall k c n).call l) := by
  by_cases hl : l = k
  · subst hl
    rw [setCall_self]
    exact hm
  · rw [setCall_of_ne hl]
    exact Kept.refl _

theorem Returns.setCall (h : w.Returns) (hsound : ∀ k, (w.call k).Sound) (hm : Kept (w.call k) c)
    (hp : c.create.published = true → (w.call k).create.published = true) :
    (w.setCall k c n).Returns := by
  refine h.frame hsound (kept_setCall hm) (fun _ _ => Or.inl) (fun _ _ => Or.inl) ?_
  intro l hpl hl
  refine Or.inr (Or.inr ⟨?_, hl, Or.inl⟩)
  by_cases hlk : l = k
  · subst hlk
    rw [setCall_self] at hpl
    exact hp hpl
  · rw [setCall_of_ne hlk] at hpl
    exact hpl

theorem kept_move (hm : Move cfg G (w.call k) c) (l : Nat) :
    Kept (w.call l) ((w.setCall k c n).call l) :=
  kept_setCall (kept_of_moves (ReflTransGen.single hm)) l

theorem kept_release (cfg : Config) (l : Nat) : Kept (w.call l) ((w.release k).call l) := by
  have hm : Move cfg (fun _ _ _ => True) (w.call k)
      { w.call k with run := (w.call k).run.release } := Move.release
  exact kept_move hm l

theorem Returns.drop (cfg : Config) (h : w.Returns) (hsound : ∀ k, (w.call k).Sound)
    (ht : (w.call k).run.terminal = true) : (w.drop k).Returns := by
  refine h.frame hsound (kept_release cfg) (fun _ _ => Or.inl) (fun _ _ => Or.inl) ?_
  intro l hp hl
  change ((w.release k).call l).create.published = true at hp
  by_cases hlk : l = k
  · subst hlk
    refine Or.inr (Or.inl ?_)
    show ((w.release l).call l).Accounted
    rw [release_self]
    exact Call.accounted_release (hsound l) (Or.inl ht)
  · rw [release_of_ne hlk] at hp
    exact Or.inr (Or.inr ⟨hp, fun hin => hl ((List.mem_erase_of_ne hlk).mpr hin), Or.inl⟩)

theorem Returns.trimLoop (cfg : Config) (h : w.Returns) (hsound : ∀ k, (w.call k).Sound) {n : Nat}
    {ks : List Nat} : (Manager.trimLoop n ks w).Returns := by
  induction ks generalizing n w with
  | nil =>
    cases n with
    | zero => exact h
    | succ n => exact h
  | cons k ks ih =>
    cases n with
    | zero => exact h
    | succ n =>
      rw [Manager.trimLoop]
      split
      · next ht =>
        exact ih (h.drop cfg hsound ht) fun l => (kept_release cfg l).sound (hsound l)
      · exact ih h hsound

theorem Returns.insert (h : w.Returns) (hsound : ∀ k, (w.call k).Sound)
    (hm : Move cfg G (w.call k) c) : (w.insert k c).Returns := by
  have hkept : ∀ l, Kept (w.call l) ((w.setCall k c 0).call l) := kept_move hm
  have hcons : ({ w.setCall k c 0 with runs := k :: w.runs } : Manager).Returns := by
    refine h.frame hsound hkept (fun _ _ => Or.inl) (fun _ _ => Or.inl) ?_
    intro l hp hl
    change ((w.setCall k c 0).call l).create.published = true at hp
    have hlk : l ≠ k := fun he => hl (he ▸ List.mem_cons_self)
    have hl : l ∉ w.runs := fun hin => hl (List.mem_cons_of_mem _ hin)
    rw [setCall_of_ne hlk] at hp
    exact Or.inr (Or.inr ⟨hp, hl, Or.inl⟩)
  exact hcons.trimLoop cfg fun l => (hkept l).sound (hsound l)

theorem Returns.publish (h : w.Returns) (hsound : ∀ k, (w.call k).Sound)
    (hs : w.publish cfg k = some w') : w'.Returns := by
  have hrefuse : ∀ {size : Int} {why : Refusal},
      (w.call k).create = .sized size ∨ size = 0 ∧ (∃ e, (w.call k).create = .ended e) →
        (w.refuse k size why).Returns := by
    intro size why hc
    have hm : Move cfg (fun _ _ _ => True) (w.call k)
        { w.call k with create := .refusing size why } := Move.refuse hc
    exact h.setCall hsound (kept_of_moves (ReflTransGen.single hm)) fun hp => by cases hp
  simp only [Manager.publish] at hs
  split at hs
  · next size hc =>
    cases hs
    split
    · exact hrefuse (Or.inl hc)
    · have hm : Move cfg (fun _ _ _ => True) (w.call k) _ := Move.publish hc
      exact h.insert hsound hm
  · next e hc =>
    cases hs
    split
    · exact hrefuse (Or.inr ⟨rfl, e, hc⟩)
    · have hm : Move cfg (fun _ _ _ => True) (w.call k) _ := Move.ended hc
      exact h.insert hsound hm
  · cases hs

theorem taken_setDelete (ht : w.Taken l)
    (hj : w.delete j ≠ .removed l ∧ w.delete j ≠ .marked l ∨ pc = .removed l ∨ pc = .marked l) :
    (w.setDelete j pc).Taken l := by
  rcases ht with ⟨i, hi⟩ | hsweep
  · refine Or.inl ?_
    by_cases hij : i = j
    · subst hij
      rcases hj with ⟨hr, hm⟩ | hj
      · rcases hi with hi | hi
        · exact absurd hi hr
        · exact absurd hi hm
      · exact ⟨i, by simpa [Manager.setDelete] using hj⟩
    · exact ⟨i, by simpa [Manager.setDelete, Function.update_of_ne hij] using hi⟩
  · exact Or.inr hsweep

theorem marked_setDelete {i : Nat}
    (h : (w.setDelete j pc).delete i = .marked k) : w.delete i = .marked k ∨ pc = .marked k := by
  by_cases hij : i = j
  · subst hij
    simp only [Manager.setDelete, Function.update_self] at h
    exact Or.inr h
  · simp only [Manager.setDelete, Function.update_of_ne hij] at h
    exact Or.inl h

/-- A deletion moves on without taking a run out of the map or releasing it;
the run it is about may have changed. -/
theorem Returns.setDelete (h : w.Returns)
    (hmarked : ∀ k, pc = .marked k → (w.call k).run.dismissed = true)
    (hj : ∀ l, w.delete j ≠ .removed l ∧ w.delete j ≠ .marked l ∨ pc = .removed l ∨
      pc = .marked l) : (w.setDelete j pc).Returns where
  marked i k hi := by
    rcases marked_setDelete hi with hi | hpc
    · exact h.marked i k hi
    · exact hmarked k hpc
  swept := h.swept
  dropped k hp hk := (h.dropped k hp hk).imp_left fun ht => taken_setDelete ht (hj k)

theorem Returns.setRun (h : w.Returns) (hsound : ∀ k, (w.call k).Sound)
    (hm : Move cfg G (w.call k) { w.call k with run := r }) :
    (w.setCall k { w.call k with run := r } n).Returns :=
  h.setCall hsound (kept_of_moves (ReflTransGen.single hm)) fun hp => hp

theorem Returns.delete_step (cfg : Config) (h : w.Returns) (hsound : ∀ k, (w.call k).Sound)
    {e : DeleteEvent} (hs : w.stepDelete j e = some w') : w'.Returns := by
  cases deletes_of_step hs with
  | find hpc => exact h.setDelete (fun k hk => by cases hk) fun l => Or.inl (by rw [hpc]; simp)
  | @stop k hpc =>
    have hm : Move cfg (fun _ _ _ => True) (w.call k) { w.call k with
        run := (w.call k).run.stop StopCause.stopped.status StopCause.stopped.reason } :=
      Move.stop
    exact (h.setRun hsound hm).setDelete (fun k hk => by cases hk)
      fun l => Or.inl (by rw [setCall_delete, hpc]; simp)
  | leave hpc => exact h.setDelete (fun k hk => by cases hk) fun l => Or.inl (by rw [hpc]; simp)
  | @dismiss k hpc =>
    refine h.frame hsound (fun l => Kept.refl _) ?_ (fun _ _ => Or.inl) ?_
    · intro i l hi
      exact Or.inl ((marked_setDelete hi).resolve_right fun hm => by cases hm)
    · intro l hp hl
      by_cases hlk : l = k
      · subst hlk
        exact Or.inl (Or.inl ⟨j, Or.inl (Function.update_self ..)⟩)
      · refine Or.inr (Or.inr ⟨hp, fun hin => hl ((List.mem_erase_of_ne hlk).mpr hin), ?_⟩)
        exact fun ht => Or.inl (taken_setDelete ht (Or.inl (by rw [hpc]; simp)))
  | @mark k hpc =>
    have hm : Move cfg (fun _ _ _ => True) (w.call k) { w.call k with
        run := { (w.call k).run with dismissed := true } } := Move.dismissed
    refine (h.setRun hsound hm).setDelete ?_ ?_
    · intro l hl
      cases hl
      rw [setCall_self]
    · intro l
      by_cases hlk : l = k
      · exact Or.inr (Or.inr (by rw [hlk]))
      · exact Or.inl (by rw [setCall_delete, hpc]; simp [Ne.symm hlk])
  | @release k hpc =>
    have hdis := h.marked j k hpc
    refine h.frame hsound (kept_release cfg) ?_ (fun _ _ => Or.inl) ?_
    · intro i l hi
      exact Or.inl ((marked_setDelete hi).resolve_right fun hm => by cases hm)
    · intro l hp hl
      change ((w.release k).call l).create.published = true at hp
      by_cases hlk : l = k
      · subst hlk
        refine Or.inr (Or.inl ?_)
        show ((w.release l).call l).Accounted
        rw [release_self]
        exact Call.accounted_release (hsound l) (Or.inr hdis)
      · rw [release_of_ne hlk] at hp
        refine Or.inr (Or.inr ⟨hp, hl, fun ht => Or.inl ?_⟩)
        exact taken_setDelete (w := w.release k) ht
          (Or.inl (by
            show w.delete j ≠ _ ∧ w.delete j ≠ _
            rw [hpc]
            simp [Ne.symm hlk]))

theorem Returns.sweep (h : w.Returns) (hsound : ∀ k, (w.call k).Sound) {i now : Nat}
    (hi : w.sweep i = []) :
    { w with
      runs := w.runs.filter fun k => !w.expired now k
      sweep := Function.update w.sweep i (w.runs.filter (w.expired now)) }.Returns := by
  refine h.frame hsound (fun l => Kept.refl _) (fun _ _ => Or.inl) ?_ ?_
  · intro j k hk
    by_cases hj : j = i
    · subst hj
      simp only [Function.update_self] at hk
      have hexpired := (List.mem_filter.mp hk).2
      simp only [expired, Bool.and_eq_true] at hexpired
      exact Or.inr hexpired.1
    · simp only [Function.update_of_ne hj] at hk
      exact Or.inl hk
  · intro k hp hk
    by_cases hin : k ∈ w.runs
    · refine Or.inl (Or.inr ⟨i, ?_⟩)
      simp only [Function.update_self]
      refine List.mem_filter.mpr ⟨hin, ?_⟩
      by_contra hno
      exact hk (List.mem_filter.mpr ⟨hin, by simpa using hno⟩)
    · refine Or.inr (Or.inr ⟨hp, hin, ?_⟩)
      rintro (hdelete | ⟨j, hj⟩)
      · exact Or.inl (Or.inl hdelete)
      · have hne : j ≠ i := by
          rintro rfl
          rw [hi] at hj
          cases hj
        exact Or.inl (Or.inr ⟨j, by simpa only [Function.update_of_ne hne] using hj⟩)

theorem Returns.sweepRelease (cfg : Config) (h : w.Returns) (hsound : ∀ k, (w.call k).Sound)
    {i : Nat} {ks : List Nat} (hi : w.sweep i = k :: ks) :
    { w.release k with sweep := Function.update w.sweep i ks }.Returns := by
  have ht := h.swept i k (by rw [hi]; exact List.mem_cons_self)
  refine h.frame hsound (kept_release cfg) (fun _ _ => Or.inl) ?_ ?_
  · intro j l hl
    by_cases hj : j = i
    · subst hj
      simp only [Function.update_self] at hl
      exact Or.inl (by rw [hi]; exact List.mem_cons_of_mem _ hl)
    · simp only [Function.update_of_ne hj] at hl
      exact Or.inl hl
  · intro l hp hl
    change ((w.release k).call l).create.published = true at hp
    by_cases hlk : l = k
    · subst hlk
      refine Or.inr (Or.inl ?_)
      show ((w.release l).call l).Accounted
      rw [release_self]
      exact Call.accounted_release (hsound l) (Or.inl ht)
    · rw [release_of_ne hlk] at hp
      refine Or.inr (Or.inr ⟨hp, hl, ?_⟩)
      rintro (hdelete | ⟨j, hj⟩)
      · exact Or.inl (Or.inl hdelete)
      · refine Or.inl (Or.inr ⟨j, ?_⟩)
        by_cases hji : j = i
        · subst hji
          rw [hi] at hj
          simp only [Function.update_self]
          exact (List.mem_cons.mp hj).resolve_left hlk
        · simpa only [Function.update_of_ne hji] using hj

theorem Returns.step (h : w.Returns) (hw : w.Wired) (hsound : ∀ k, (w.call k).Sound) {e : Event}
    (hs : w.step cfg e = some w') : w'.Returns := by
  have hstep := hs
  cases e with
  | create owner target =>
    cases hs
    have hkept : ∀ l, Kept (w.call l) _ := fun l =>
      kept_of_moves (step_moves hw.fresh (guard_true w _) hstep l)
    refine h.frame hsound hkept (fun _ _ => Or.inl) (fun _ _ => Or.inl) ?_
    intro l hp hl
    by_cases hlk : l = w.count
    · subst hlk
      simp only [Manager.setCall, Function.update_self] at hp
      split at hp <;> cases hp
    · simp only [Manager.setCall, Function.update_of_ne hlk] at hp
      exact Or.inr (Or.inr ⟨hp, hl, Or.inl⟩)
  | call k e =>
    simp only [Manager.step] at hs
    split at hs
    · obtain ⟨⟨c, n⟩, hc, rfl⟩ := Option.map_eq_some_iff.mp hs
      have hm : Move cfg (fun _ _ _ => True) (w.call k) c := Move.section trivial hc
      exact h.setCall hsound (kept_of_moves (ReflTransGen.single hm))
        (Call.section_of_step hc).unpublished
    · cases hs
  | publish k =>
    simp only [Manager.step] at hs
    split at hs
    · exact h.publish hsound hs
    · cases hs
  | forget k =>
    simp only [Manager.step] at hs
    split at hs
    · next hc =>
      cases hs
      have hm : Move cfg (fun _ _ _ => True) (w.call k)
          { w.call k with create := .releasing } := Move.forget hc
      refine h.frame hsound (kept_move (n := 0) hm) (fun _ _ => Or.inl) (fun _ _ => Or.inl) ?_
      intro l hp hl
      change ((w.setCall k { w.call k with create := .releasing } 0).call l).create.published =
        true at hp
      by_cases hlk : l = k
      · subst hlk
        refine Or.inr (Or.inl (Call.Accounted.forgetting (Or.inr ?_)))
        show ((w.setCall l { w.call l with create := .releasing } 0).call l).create = _
        rw [setCall_self]
      · rw [setCall_of_ne hlk] at hp
        exact Or.inr (Or.inr
          ⟨hp, fun hin => hl ((List.mem_erase_of_ne hlk).mpr hin), Or.inl⟩)
    · cases hs
  | forgetRelease k =>
    simp only [Manager.step] at hs
    split at hs
    · next hc =>
      split at hs
      · cases hs
      · cases hs
        have hm : Move cfg (fun _ _ _ => True) (w.call k) _ := Move.forgotten hc
        exact h.setCall hsound (kept_of_moves (ReflTransGen.single hm))
          fun _ => by rw [hc]; rfl
    · cases hs
  | sweep i now =>
    simp only [Manager.step] at hs
    split at hs
    · next hi =>
      cases hs
      exact h.sweep hsound hi
    · cases hs
  | sweepRelease i =>
    simp only [Manager.step] at hs
    split at hs
    · next k ks hi =>
      split at hs
      · cases hs
      · cases hs
        exact h.sweepRelease cfg hsound hi
    · cases hs
  | close =>
    cases hs
    exact ⟨h.marked, h.swept, h.dropped⟩
  | delete j e => exact h.delete_step cfg hsound hs
  | stream i e =>
    obtain ⟨s, rfl⟩ := stepStream_eq hs
    exact ⟨h.marked, h.swept, h.dropped⟩

theorem returns_of_reachable (h : Reachable (manager cfg) w) : w.Returns :=
  Reachable.invariant_with (J := Known) (I := Returns) (fun _ => known_of_reachable)
    (fun _ => returns_init) (fun _ _ _ hj _ hI hs => hI.step hj.wired hj.sound hs) h

/-! ## The counter -/

/-- No addition to the counter is under way. -/
structure Quiet (w : Manager) : Prop where
  create : ∀ k, (w.call k).create.counting = false
  writer : ∀ k, (w.call k).writer.pc.counting = false

/-- The run is out of the map, nobody has yet to release it, `create` is done
with it and its inner request has returned and been settled. -/
structure GivenBack (w : Manager) (k : Nat) : Prop where
  published : (w.call k).create.published = true
  dropped : k ∉ w.runs
  released : ¬ w.Taken k
  create : (w.call k).create = .answered ∨ (w.call k).create = .forgotten
  inner : (w.call k).inner = .none ∨ (w.call k).inner = .settled

theorem Quiet.weight (h : w.Quiet) (k : Nat) :
    (w.call k).weight = (w.call k).run.held + (w.call k).run.body := by
  unfold Call.weight
  rw [CreatePc.counted_eq_zero (h.create k), WriterPc.counted_eq_zero (h.writer k)]
  omega

theorem Returns.given_back (h : w.Returns) (hb : w.GivenBack k) :
    (w.call k).run.held = 0 ∧ (w.call k).run.body = 0 := by
  rcases h.dropped k hb.published hb.dropped with ht | ha
  · exact absurd ht hb.released
  · cases ha with
    | forgetting hc =>
      rcases hb.create with hc' | hc' <;> rcases hc with hc | hc <;> rw [hc] at hc' <;> cases hc'
    | finishing hi => rcases hb.inner with hi' | hi' <;> rw [hi] at hi' <;> cases hi'
    | dismissed _ hi => rcases hb.inner with hi' | hi' <;> rw [hi'] at hi <;> cases hi
    | unqueued _ hc => rcases hb.create with hc' | hc' <;> rw [hc] at hc' <;> cases hc'
    | empty _ hh hbody => exact ⟨hh, hbody⟩

open Classical in
/-- Between operations the counter is what the runs hold that have not been
given back. A run that has been given back holds nothing, whichever paths
dropped it; so the counter is 0 when there is no other run. -/
theorem held_is_exact (h : Reachable (manager cfg) w) :
    (w.Quiet → w.held =
      ∑ k ∈ (Finset.range w.count).filter fun k => ¬ w.GivenBack k,
        ((w.call k).run.held + (w.call k).run.body)) ∧
    (∀ k, w.GivenBack k → (w.call k).run.held = 0 ∧ (w.call k).run.body = 0) ∧
    ((∀ k, k < w.count → w.GivenBack k ∨ ∃ why, (w.call k).create = .refused why) →
      w.held = 0) := by
  have hexact := exact_of_reachable h
  have hreturns := returns_of_reachable h
  have hsound := sound_of_reachable h
  unfold Exact total at hexact
  refine ⟨?_, fun k => hreturns.given_back, ?_⟩
  · intro hquiet
    rw [hexact, Finset.sum_congr rfl fun k _ => hquiet.weight k, Finset.sum_filter_of_ne]
    intro k _ hne hb
    obtain ⟨hh, hbody⟩ := hreturns.given_back hb
    rw [hh, hbody] at hne
    exact hne rfl
  · intro hall
    rw [hexact]
    refine Finset.sum_eq_zero fun k hk => ?_
    rcases hall k (Finset.mem_range.mp hk) with hb | ⟨why, hc⟩
    · obtain ⟨hh, hbody⟩ := hreturns.given_back hb
      have hpc : (w.call k).writer.pc = .idle := (hsound k).writer_idle (by
        rcases hb.inner with hi | hi <;> rw [hi] <;> simp)
      unfold Call.weight
      rcases hb.create with hc | hc <;>
        simp [hh, hbody, hpc, hc, CreatePc.counted, WriterPc.counted]
    · have hb := (hsound k).before (by rw [hc]; rfl)
      have hpc : (w.call k).writer.pc = .idle :=
        (hsound k).writer_idle (by rw [hb.inner]; simp)
      unfold Call.weight
      rw [hb.held, hb.body, hpc, hc]
      rfl

/-- A picture is deleted while its body is being written: the deletion gives
back what the run holds, and `finish` what it took since. -/
def deletedRun : List Event :=
  [.create "ada" .imageGenerations, .call 0 (.charge 10 5), .publish 0, .call 0 .queued,
    .call 0 .answer, .delete 0 (.find 0), .delete 0 .stop, .delete 0 .dismiss, .delete 0 .mark,
    .call 0 (.write [1, 2, 3]), .delete 0 .release, .call 0 .wrote, .call 0 .returned,
    .call 0 .finishBody, .call 0 (.finish 9), .call 0 .finishRelease]

theorem deleted_run_gives_all_back :
    ((manager plainConfig).after {} deletedRun).GivenBack 0 ∧
      ((manager plainConfig).after {} deletedRun).held = 0 := by
  have hr : Reachable (manager plainConfig) ((manager plainConfig).after {} deletedRun) :=
    reachable_after started_empty (by decide)
  have hdelete : ∀ j, ((manager plainConfig).after {} deletedRun).delete j = .idle := by
    intro j
    cases j with
    | zero => decide
    | succ j => rfl
  have hback : ((manager plainConfig).after {} deletedRun).GivenBack 0 :=
    { published := by decide
      dropped := by decide
      released := by
        rintro (⟨j, hj⟩ | ⟨i, hi⟩)
        · rw [hdelete j] at hj
          rcases hj with hj | hj <;> cases hj
        · exact List.not_mem_nil hi
      create := Or.inl rfl
      inner := Or.inr rfl }
  refine ⟨hback, (held_is_exact hr).2.2 fun k hk => Or.inl ?_⟩
  have hk : k < 1 := hk
  obtain rfl : k = 0 := by omega
  exact hback

end Manager

end LocalBase.Runs
