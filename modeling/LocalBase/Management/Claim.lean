import LocalBase.Management.Installer

/-!
# Whose install it is

A request that finds the installer free when it claims it, and not only when it
asked, has it to itself until its goroutine gives it back; and a refused request
whose clearing finds it free clears nothing. In such runs the installer knows
what it is installing.

In other runs it need not. Between a request's question and its claim another
install may claim; and between the last section of a refused install and the
clearing by its request, another install may claim and be accepted.
-/

namespace LocalBase.Management

open Machine

/-- The install holds the claim: it has started, and not given it back. -/
def InstallPc.inProgress : InstallPc → Bool
  | .starting | .checking | .downloading | .ended _ => true
  | .none | .sending _ | .closing | .finished => false

/-- Claims, and clearings, that find the installer free. -/
def ClaimsFree (w : Installer) : Event → Prop
  | .call _ .claim | .call _ .clear => w.installing = ""
  | _ => True

instance decidableClaimsFree (w : Installer) (e : Event) : Decidable (ClaimsFree w e) :=
  match e with
  | .call _ .claim | .call _ .clear => inferInstanceAs (Decidable (w.installing = ""))
  | .call _ .ask | .call _ (.refuse _) | .call _ .receive | .call _ .lease
  | .call _ (.leaseFails _) | .call _ (.work _) | .call _ .record | .call _ .stop
  | .call _ .done | .call _ .timeout | .call _ .answer | .request .. | .install .. | .shutdown =>
    isTrue trivial

namespace Installer

/-- An accepted install is running. -/
def Running (w : Installer) (i : Nat) : Prop :=
  (w.install i).accepted = true ∧ (w.install i).pc.inProgress = true

/-- The installer is install `i`'s. -/
structure Owns (w : Installer) (i : Nat) : Prop where
  installing : w.installing = (w.request i).model
  cancelInstall : w.cancelInstall = some i
  installDone : w.installDone = some i

structure Knows (w : Installer) : Prop where
  owns : ∀ i, (w.install i).pc.inProgress = true → w.Owns i
  model : ∀ r, (w.request r).pc ≠ .idle → (w.request r).model ≠ ""
  asked : ∀ i, (w.install i).pc ≠ .none → (w.request i).pc ≠ .idle
  fresh : ∀ r, w.calls ≤ r → (w.request r).pc = .idle

variable {w w' : Installer} {r i : Nat}

theorem Knows.not_free (h : w.Knows) (hi : (w.install i).pc.inProgress = true) :
    w.installing ≠ "" := by
  rw [(h.owns i hi).installing]
  refine h.model i (h.asked i ?_)
  intro hnone
  rw [hnone] at hi
  cases hi

/-! ## What a step leaves alone -/

/-- The claim is where it was, and so is every install. -/
structure Same (w w' : Installer) : Prop where
  installing : w'.installing = w.installing
  cancelInstall : w'.cancelInstall = w.cancelInstall
  installDone : w'.installDone = w.installDone
  calls : w'.calls = w.calls
  model : ∀ r, (w'.request r).model = (w.request r).model
  idle : ∀ r, (w'.request r).pc = .idle ↔ (w.request r).pc = .idle
  pc : ∀ i, (w'.install i).pc.inProgress = true → (w.install i).pc.inProgress = true
  none : ∀ i, (w'.install i).pc ≠ .none → (w.install i).pc ≠ .none

theorem Knows.same (h : w.Knows) (hs : w.Same w') : w'.Knows where
  owns i hi := by
    have ho := h.owns i (hs.pc i hi)
    exact ⟨by rw [hs.installing, hs.model, ho.installing],
      hs.cancelInstall.trans ho.cancelInstall, hs.installDone.trans ho.installDone⟩
  model r hr := by
    rw [hs.model]
    exact h.model r fun hidle => hr ((hs.idle r).mpr hidle)
  asked i hi hidle := h.asked i (hs.none i hi) ((hs.idle i).mp hidle)
  fresh r hr := (hs.idle r).mpr (h.fresh r (hs.calls ▸ hr))

theorem same_setRequest {pc pc' : RequestPc} (hpc : (w.request r).pc = pc) (hne : pc ≠ .idle)
    (hne' : pc' ≠ .idle) : w.Same (w.setRequest r pc') where
  installing := rfl
  cancelInstall := rfl
  installDone := rfl
  calls := rfl
  model l := by
    by_cases hl : l = r
    · subst hl
      simp only [setRequest, Function.update_self]
    · simp only [setRequest, Function.update_of_ne hl]
  idle l := by
    by_cases hl : l = r
    · subst hl
      simp only [setRequest, Function.update_self]
      exact ⟨fun h => absurd h hne', fun h => absurd (hpc.symm.trans h) hne⟩
    · simp only [setRequest, Function.update_of_ne hl]
  pc _ := id
  none _ := id

theorem same_setInstall {x : Install}
    (hpc : x.pc.inProgress = true → (w.install i).pc.inProgress = true)
    (hnone : x.pc ≠ .none → (w.install i).pc ≠ .none) : w.Same (w.setInstall i x) where
  installing := rfl
  cancelInstall := rfl
  installDone := rfl
  calls := rfl
  model _ := rfl
  idle _ := Iff.rfl
  pc j hj := by
    by_cases hji : j = i
    · subst hji
      simp only [setInstall, Function.update_self] at hj
      exact hpc hj
    · simp only [setInstall, Function.update_of_ne hji] at hj
      exact hj
  none j hj := by
    by_cases hji : j = i
    · subst hji
      simp only [setInstall, Function.update_self] at hj
      exact hnone hj
    · simp only [setInstall, Function.update_of_ne hji] at hj
      exact hj

theorem Same.refl (w : Installer) : w.Same w :=
  ⟨rfl, rfl, rfl, rfl, fun _ => rfl, fun _ => Iff.rfl, fun _ => id, fun _ => id⟩

theorem Same.trans {v : Installer} (h : w.Same w') (h' : w'.Same v) : w.Same v where
  installing := h'.installing.trans h.installing
  cancelInstall := h'.cancelInstall.trans h.cancelInstall
  installDone := h'.installDone.trans h.installDone
  calls := h'.calls.trans h.calls
  model r := (h'.model r).trans (h.model r)
  idle r := (h'.idle r).trans (h.idle r)
  pc i hi := h.pc i (h'.pc i hi)
  none i hi := h.none i (h'.none i hi)

theorem Same.with_operation {model : String} {op : Operation} (h : w.Same w') :
    w.Same (w'.setOperation model op) :=
  ⟨h.installing, h.cancelInstall, h.installDone, h.calls, h.model, h.idle, h.pc, h.none⟩

theorem Same.with_lease {l : Option Nat} (h : w.Same w') : w.Same { w' with lease := l } :=
  ⟨h.installing, h.cancelInstall, h.installDone, h.calls, h.model, h.idle, h.pc, h.none⟩

/-! ## The steps of a request -/

theorem Knows.claim (h : w.Knows) (hfree : w.installing = "") (hpc : (w.request r).pc = .passed) :
    (w.claim r).Knows := by
  have hnone : ∀ j, ¬ (w.install j).pc.inProgress = true := fun j hj => h.not_free hj hfree
  have hmodel : ∀ l, ((w.claim r).request l).model = (w.request l).model := by
    intro l
    by_cases hl : l = r
    · subst hl
      simp only [Installer.claim, setInstall, setRequest, Function.update_self]
    · simp only [Installer.claim, setInstall, setRequest, Function.update_of_ne hl]
  have hwaits : w.Same (w.setRequest r .awaiting) := same_setRequest hpc (by simp) (by simp)
  have hidle : ∀ l, ((w.claim r).request l).pc = .idle ↔ (w.request l).pc = .idle := hwaits.idle
  have hinstall : ∀ j, j ≠ r → (w.claim r).install j = w.install j := fun j hj => by
    simp only [Installer.claim, setInstall, setRequest, Function.update_of_ne hj]
  refine ⟨?_, ?_, ?_, ?_⟩
  · intro j hj
    by_cases hjr : j = r
    · subst hjr
      exact ⟨(hmodel j).symm, rfl, rfl⟩
    · rw [hinstall j hjr] at hj
      exact absurd hj (hnone j)
  · intro l hl
    rw [hmodel]
    exact h.model l fun hi => hl ((hidle l).mpr hi)
  · intro j hj
    by_cases hjr : j = r
    · subst hjr
      rw [Ne, hidle, hpc]
      simp
    · rw [hinstall j hjr] at hj
      exact fun hi => h.asked j hj ((hidle j).mp hi)
  · intro l hl
    exact (hidle l).mpr (h.fresh l hl)

theorem same_stop (hpc : (w.request r).pc = .begun) : w.Same (w.stop r) := by
  have hset : ∀ pc : RequestPc, pc ≠ .idle → w.Same (w.setRequest r pc) :=
    fun pc hne => same_setRequest hpc (by simp) hne
  unfold stop
  simp only []
  split
  · next i hcancel =>
    split
    · exact hset _ (by simp)
    · have hcancelled : w.Same (w.setInstall i { w.install i with cancelled := true }) :=
        same_setInstall id id
      refine hcancelled.trans (same_setRequest hpc (by simp) ?_)
      split <;> simp
  · exact hset _ (by simp)

theorem same_request {e : RequestEvent} (hs : w.stepRequest r e = some w')
    (hclaim : e ≠ .claim) (hclear : e ≠ .clear) : w.Same w' := by
  cases e with
  | claim => exact absurd rfl hclaim
  | clear => exact absurd rfl hclear
  | ask =>
    simp only [stepRequest] at hs
    split at hs
    · next hpc =>
      split at hs <;> cases hs
      refine same_setRequest hpc (by simp) ?_
      split <;> simp
    · cases hs
  | refuse err | timeout | answer =>
    simp only [stepRequest] at hs
    split at hs <;> cases hs
    next hpc => exact same_setRequest hpc (by simp) (by simp)
  | receive =>
    simp only [stepRequest] at hs
    split at hs
    · next hpc =>
      split at hs <;> cases hs
      · exact same_setRequest hpc (by simp) (by simp)
      · exact same_setRequest hpc (by simp) (by simp)
    · cases hs
  | lease =>
    simp only [stepRequest] at hs
    split at hs
    · next hpc =>
      split at hs <;> cases hs
      exact (same_setRequest hpc (by simp) (by simp)).with_lease
    · cases hs
  | leaseFails err =>
    simp only [stepRequest] at hs
    split at hs
    · next hpc =>
      split at hs <;> cases hs
      exact same_setRequest hpc (by simp) (by simp)
    · cases hs
  | work err =>
    simp only [stepRequest] at hs
    split at hs <;> cases hs
    next hpc =>
      refine Same.with_lease (same_setRequest hpc (by simp) ?_)
      split <;> simp
  | record =>
    simp only [stepRequest] at hs
    split at hs <;> cases hs
    next hpc =>
      exact (Same.refl w).with_operation.trans (same_setRequest hpc (by simp) (by simp))
  | stop =>
    simp only [stepRequest] at hs
    split at hs
    · next hpc =>
      split at hs <;> cases hs
      exact same_stop hpc
    · cases hs
  | done =>
    simp only [stepRequest] at hs
    split at hs
    · next hpc =>
      split at hs <;> cases hs
      exact same_setRequest hpc (by simp) (by simp)
    · cases hs

theorem same_clear {err : MgmtError} (hpc : (w.request r).pc = .clearing err)
    (hfree : w.installing = "") :
    w.Same { w.setRequest r (.returned (.error err)) with installing := "" } := by
  have hs : w.Same (w.setRequest r (.returned (.error err))) :=
    same_setRequest hpc (by simp) (by simp)
  exact ⟨hfree.symm, hs.cancelInstall, hs.installDone, hs.calls, hs.model, hs.idle, hs.pc, hs.none⟩

/-! ## The steps of an install -/

theorem same_settle {err : Option MgmtError} (kept : Bool) (reason : String)
    (hpc : (w.install i).pc = .ended err) :
    ∃ v, w.Same v ∧ (v.install i).pc = .sending err ∧
      w.settle i err kept reason =
        { v with installing := "", cancelInstall := none, installDone := none } := by
  have hsend (v : Installer) (hv : v.install = w.install) :
      v.Same (v.setInstall i { w.install i with pc := .sending err }) :=
    same_setInstall (fun h => by cases h) fun _ => by rw [hv, hpc]; simp
  unfold Installer.settle
  cases w.outcome i err kept reason with
  | some op =>
    refine ⟨_, (Same.refl w).with_operation.trans (hsend _ rfl), ?_, rfl⟩
    simp only [setInstall, Function.update_self]
  | none =>
    refine ⟨_, hsend w rfl, ?_, rfl⟩
    simp only [setInstall, Function.update_self]

theorem Knows.settle {err : Option MgmtError} {kept : Bool} {reason : String} (h : w.Knows)
    (hpc : (w.install i).pc = .ended err) : (w.settle i err kept reason).Knows := by
  have hi : (w.install i).pc.inProgress = true := by
    rw [hpc]
    rfl
  obtain ⟨v, hs, hsend, heq⟩ := same_settle kept reason hpc
  rw [heq]
  refine ⟨?_, (h.same hs).model, (h.same hs).asked, (h.same hs).fresh⟩
  intro j hj
  by_cases hji : j = i
  · subst hji
    change (v.install j).pc.inProgress = true at hj
    rw [hsend] at hj
    cases hj
  · have heq := (h.owns j (hs.pc j hj)).cancelInstall
    rw [(h.owns i hi).cancelInstall] at heq
    cases heq
    exact absurd rfl hji

theorem Knows.install {e : InstallEvent} (h : w.Knows) (hs : w.stepInstall i e = some w') :
    w'.Knows := by
  cases e with
  | lease =>
    simp only [stepInstall] at hs
    split at hs
    · next hpc =>
      split at hs <;> cases hs
      exact h.same (Same.with_lease
        (same_setInstall (fun _ => by rw [hpc]; rfl) fun _ => by rw [hpc]; simp))
    · cases hs
  | leaseFails err =>
    simp only [stepInstall] at hs
    split at hs <;> cases hs
    next hpc =>
      exact h.same (same_setInstall (fun _ => by rw [hpc]; rfl) fun _ => by rw [hpc]; simp)
  | refuse err | ended err =>
    simp only [stepInstall] at hs
    split at hs <;> cases hs
    next hpc =>
      exact h.same (Same.with_lease
        (same_setInstall (fun _ => by rw [hpc]; rfl) fun _ => by rw [hpc]; simp))
  | accept total =>
    simp only [stepInstall] at hs
    split at hs <;> cases hs
    next hpc =>
      exact h.same (Same.with_operation
        (same_setInstall (fun _ => by rw [hpc]; rfl) fun _ => by rw [hpc]; simp))
  | progress detail bytes =>
    simp only [stepInstall] at hs
    split at hs <;> cases hs
    exact h.same (Same.refl w).with_operation
  | settle kept reason =>
    simp only [stepInstall] at hs
    split at hs <;> cases hs
    next hpc => exact h.settle hpc
  | send | close =>
    simp only [stepInstall] at hs
    split at hs <;> cases hs
    next hpc =>
      exact h.same (same_setInstall (fun h => by cases h) fun _ => by rw [hpc]; simp)

/-! ## Every step -/

theorem addRequest_of_ne {q : Request} (h : r ≠ w.calls) :
    (w.addRequest q).request r = w.request r :=
  Function.update_of_ne h ..

@[simp] theorem addRequest_self {q : Request} : (w.addRequest q).request w.calls = q :=
  Function.update_self ..

theorem Knows.add {q : Request} (h : w.Knows) (hmodel : q.model ≠ "") :
    (w.addRequest q).Knows where
  owns i hi := by
    have hne : i ≠ w.calls := by
      rintro rfl
      refine h.asked _ ?_ (h.fresh _ (Nat.le_refl _))
      intro hnone
      change (w.install w.calls).pc.inProgress = true at hi
      rw [hnone] at hi
      cases hi
    have ho := h.owns i hi
    refine ⟨?_, ho.cancelInstall, ho.installDone⟩
    rw [addRequest_of_ne hne]
    exact ho.installing
  model l hl := by
    by_cases hlc : l = w.calls
    · subst hlc
      rw [addRequest_self]
      exact hmodel
    · rw [addRequest_of_ne hlc] at hl ⊢
      exact h.model l hl
  asked i hi := by
    have hne : i ≠ w.calls := by
      rintro rfl
      exact h.asked _ hi (h.fresh _ (Nat.le_refl _))
    rw [addRequest_of_ne hne]
    exact h.asked i hi
  fresh l hl := by
    rw [addRequest_of_ne (Nat.ne_of_gt hl)]
    exact h.fresh l (Nat.le_of_succ_le hl)

theorem Knows.step {e : Event} (h : w.Knows) (hg : ClaimsFree w e) (hs : w.step e = some w') :
    w'.Knows := by
  cases e with
  | request model action =>
    simp only [Installer.step] at hs
    split at hs <;> cases hs
    next hmodel =>
      exact h.add hmodel
  | call r e =>
    have hcall : w.stepRequest r e = some w' := hs
    cases e with
    | claim =>
      simp only [stepRequest] at hcall
      split at hcall
      · next hpc =>
        split at hcall <;> cases hcall
        exact h.claim hg hpc
      · cases hcall
    | clear =>
      simp only [stepRequest] at hcall
      split at hcall <;> cases hcall
      next hpc => exact h.same (same_clear hpc hg)
    | _ => exact h.same (same_request hcall (by simp) (by simp))
  | install i e => exact h.install hs
  | shutdown =>
    cases hs
    exact ⟨fun i hi => ⟨(h.owns i hi).installing, (h.owns i hi).cancelInstall,
      (h.owns i hi).installDone⟩, h.model, h.asked, h.fresh⟩

theorem Started.knows (h : w.Started) : w.Knows where
  owns i hi := by
    rw [h.install] at hi
    cases hi
  model r hr := absurd (by rw [h.request]) hr
  asked i hi := absurd (by rw [h.install]) hi
  fresh r _ := by rw [h.request]

theorem knows_of_reaches (h : ReachesUnder installer ClaimsFree w) : w.Knows :=
  h.invariant (fun _ => Started.knows) fun _ _ _ hw hg hs => hw.step hg hs

/-- What holds while install `i` is running: the installer is its own, a cancel
of its model reaches it, and nobody else passes the busy check. -/
structure Known (w : Installer) (i : Nat) : Prop where
  owns : w.Owns i
  cancel : ∀ r w', w.step (.call r .stop) = some w' → (w.request r).model = (w.request i).model →
    (w'.install i).cancelled = true ∧ (w'.request r).pc = .waiting i
  busy : ∀ r w', w.step (.call r .ask) = some w' →
    (w'.request r).pc = .returned (.error busyError)

theorem Knows.known (hw : w.Knows) (hi : w.Running i) : w.Known i := by
  have ho := hw.owns i hi.2
  refine ⟨ho, fun r w' hs hmodel => ?_, fun r w' hs => ?_⟩
  · simp only [Installer.step, stepRequest] at hs
    split at hs
    · split at hs <;> cases hs
      have hsame : ¬ w.installing ≠ (w.request r).model := by
        rw [hmodel]
        exact not_not.mpr ho.installing
      unfold stop
      simp only [ho.cancelInstall, ho.installDone, if_neg hsame]
      exact ⟨by simp only [setRequest, setInstall, Function.update_self],
        by simp only [setRequest, Function.update_self]⟩
    · cases hs
  · simp only [Installer.step, stepRequest] at hs
    split at hs
    · split at hs <;> cases hs
      rw [if_pos (hw.not_free hi.2)]
      simp only [setRequest, Function.update_self]
    · cases hs

theorem Knows.taken {e : Event} (hw : w.Knows) (hi : w.Running i) (hs : w.step e = some w')
    (hg : ¬ ClaimsFree w e) : ¬ (w'.Running i ∧ w'.Owns i) := by
  rintro ⟨hrun, ho⟩
  cases e with
  | call r e =>
    have hcall : w.stepRequest r e = some w' := hs
    cases e with
    | claim =>
      simp only [stepRequest] at hcall
      split at hcall
      · split at hcall <;> cases hcall
        have hr : r = i := Option.some.inj ho.cancelInstall
        subst hr
        have haccepted := hrun.1
        simp only [Installer.claim, setInstall, Function.update_self] at haccepted
        cases haccepted
      · cases hcall
    | clear =>
      simp only [stepRequest] at hcall
      split at hcall <;> cases hcall
      next err hpc =>
        have hsame : w.Same (w.setRequest r (.returned (.error err))) :=
          same_setRequest hpc (by simp) (by simp)
        have hfree := ho.installing.trans (hsame.model i)
        have hinstalling := (hw.owns i hi.2).installing
        rw [← hinstalling] at hfree
        exact hw.not_free hi.2 hfree.symm
    | _ => exact hg trivial
  | _ => exact hg trivial

/-- In every run whose claims and clearings find the installer free, it knows
the install that is running; and the first that does not, while one is running,
ends that. -/
theorem installer_knows (h : ReachesUnder installer ClaimsFree w) (hi : w.Running i) :
    w.Known i ∧
      ∀ e w', w.step e = some w' → ¬ ClaimsFree w e → ¬ (w'.Running i ∧ w'.Owns i) :=
  ⟨(knows_of_reaches h).known hi, fun _ _ hs hg => (knows_of_reaches h).taken hi hs hg⟩

/-! ## Two runs -/

/-- A model is asked for, and its install claims and is accepted. -/
def accepted (r : Nat) : List Event :=
  [.call r .claim, .install r .lease, .install r (.accept 100)]

/-- An install that is cancelled while it runs. -/
def cancelledInstall : List Event :=
  [.request "qwen" .install, .call 0 .ask] ++ accepted 0 ++
    [.call 0 .receive, .request "qwen" .cancel]

theorem started_empty : Started {} :=
  ⟨rfl, rfl, rfl, rfl, rfl, fun _ => rfl, fun _ => rfl⟩

theorem cancelled_install_known :
    let w := installer.after {} cancelledInstall
    w.Running 0 ∧ w.Known 0 := by
  have hr : ReachesUnder installer ClaimsFree (installer.after {} cancelledInstall) :=
    reaches_under_after started_empty (by decide) (by decide)
  have hrun : (installer.after {} cancelledInstall).Running 0 :=
    ⟨by decide, by decide⟩
  exact ⟨hrun, (installer_knows hr hrun).1⟩

/-- The first install is refused. Before its request clears the installer, a
second has been accepted. -/
def clearedAway : List Event :=
  [.request "qwen" .install, .call 0 .ask, .call 0 .claim, .install 0 .lease,
    .install 0 (.refuse ⟨"insufficient_storage", "Insufficient storage for model installation."⟩),
    .install 0 (.settle false ""), .install 0 .send, .call 0 .receive,
    .request "llama" .install, .call 1 .ask] ++ accepted 1 ++ [.call 0 .clear]

/-- The second install is running, and the installer takes itself to be free. -/
theorem refused_install_clears_anothers_claim :
    ¬ ∀ w : Installer, Reachable installer w → ∀ i, w.Running i → w.Known i := by
  intro hall
  have hr : Reachable installer (installer.after {} clearedAway) :=
    reachable_after started_empty (by decide)
  have ho := (hall _ hr 1 ⟨by decide, by decide⟩).owns.installing
  revert ho
  decide

end Installer

end LocalBase.Management
