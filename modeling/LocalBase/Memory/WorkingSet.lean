import LocalBase.Lib.Machine
import LocalBase.Memory.Controller

/-!
# The GPU working set, and handles that outlive their reservation

A unified host caps what all the runtimes together may keep on the GPU. The
controller never stores that sum: `evaluate` adds the reservations up again at
each admission and compares the sum with the cap only when the new demand is
for some accelerator bytes. Between two admissions the sum moves down only,
because a demand is a number of bytes, so the cap holds in every state.

`Reserve` returns a handle, and nothing stops a caller from using it after
`Release`, when another runtime holds the same id. The handle names the
allocation and not only the id. Allocations are never used twice, so a handle
whose id has been reserved again finds a record that is not its own.
-/

namespace LocalBase.Memory

open Machine

/-- A demand as every caller builds it: from file sizes, measured peaks and
declared overheads, none of which is negative. -/
structure ByteDemand extends Demand where
  acceleratorBytes_nonneg : 0 ≤ acceleratorBytes

/-- The controller, and every handle `Reserve` has returned, newest first. -/
structure Handles where
  ctl : Controller
  issued : List Reservation := []

namespace Handles

inductive Event
  /-- `Reserve` decides, on an epoch and a reading of whenever it took them. -/
  | reserve (id : String) (d : ByteDemand) (snap : Snapshot) (seen : Nat)
  | materialize (h : Reservation) (pid : Nat)
  | release (h : Reservation)
  | poll (snap : Snapshot)

def step (w : Handles) : Event → Option Handles
  | .reserve id d snap seen =>
    match w.ctl.reserve id d.toDemand snap seen with
    | .error _ => some w
    | .ok (h, ctl) => some { ctl := ctl, issued := h :: w.issued }
  | .materialize h pid => some { w with ctl := w.ctl.materialize h pid }
  | .release h => some { w with ctl := w.ctl.release h }
  | .poll snap => some { w with ctl := w.ctl.poll snap }

/-- Any controller that is not bypassed, before its first reservation. -/
def controller : System Handles Event where
  init w := w.ctl.bypass = false ∧ w.ctl.reservations = ∅ ∧ w.issued = []
  step := step

/-- The accelerator bytes of all the reservations held. -/
def accelerator (w : Handles) : Int :=
  Tally.total (fun _ r => r.accelerator) w.ctl.reservations

/-- The handle's id has been reserved again since `Reserve` returned it. -/
def ReservedAgain (w : Handles) (h : Reservation) : Prop :=
  ∃ later h' earlier, w.issued = later ++ h' :: earlier ∧ h'.id = h.id ∧ h ∈ earlier

/-! ## The invariant -/

/-- What one record of the map keeps: it is some number of bytes, it has been
allocated, and no handle of its id was returned after its own. -/
structure EntryKept (w : Handles) (id : String) (r : ReservationEntry) : Prop where
  bytes : 0 ≤ r.accelerator
  allocated : r.ref < w.ctl.nextRef
  newest : ∀ h ∈ w.issued, h.id = id → h.ref ≤ r.ref

structure Kept (w : Handles) : Prop where
  not_bypassed : w.ctl.bypass = false
  entries : ∀ id r, w.ctl.reservations.lookup id = some r → EntryKept w id r
  issued_allocated : ∀ h ∈ w.issued, h.ref < w.ctl.nextRef
  decreasing : w.issued.Pairwise fun h h' => h'.ref < h.ref
  fits : w.ctl.topology.unified = true → 0 < w.ctl.topology.gpuWorkingSetBytes →
    w.accelerator ≤ w.ctl.topology.gpuWorkingSetBytes

variable {w w' : Handles}

theorem kept_init (h : controller.init w) : Kept w := by
  obtain ⟨hb, hr, hi⟩ := h
  refine ⟨hb, ?_, ?_, ?_, ?_⟩
  · intro id r hlook
    rw [hr, AList.lookup_empty] at hlook
    cases hlook
  · intro h hmem
    rw [hi] at hmem
    cases hmem
  · rw [hi]
    exact List.Pairwise.nil
  · intro _ hpos
    unfold accelerator
    rw [hr, Tally.total_empty]
    omega

/-! ## One lemma for each operation -/

theorem Kept.release (hk : Kept w) (h : Reservation) :
    Kept { w with ctl := w.ctl.release h } := by
  unfold Controller.release
  cases hs : w.ctl.shared h with
  | none => exact hk
  | some r =>
    have hheld := (shared_eq_some.mp hs).1
    have hentry : ∀ id r', (w.ctl.reservations.erase h.id).lookup id = some r' →
        EntryKept w id r' := by
      intro id r' hlook
      by_cases hid : id = h.id
      · subst hid
        rw [AList.lookup_erase] at hlook
        cases hlook
      · rw [AList.lookup_erase_ne hid] at hlook
        exact hk.entries id r' hlook
    refine ⟨hk.not_bypassed, ?_, hk.issued_allocated, hk.decreasing, ?_⟩
    · intro id r' hlook
      have he := hentry id r' hlook
      exact ⟨he.bytes, he.allocated, he.newest⟩
    · -- A record is a number of bytes, so the sum only falls.
      intro hu hpos
      have hsum := Tally.total_erase (fun _ r => r.accelerator) hheld
      have hr := (hk.entries _ _ hheld).bytes
      have hfits := hk.fits hu hpos
      unfold accelerator at hfits ⊢
      simp only []
      omega

theorem Kept.materialize (hk : Kept w) (h : Reservation) (pid : Nat) :
    Kept { w with ctl := w.ctl.materialize h pid } := by
  unfold Controller.materialize
  cases hs : w.ctl.shared h with
  | none => exact hk
  | some r =>
    have hheld := (shared_eq_some.mp hs).1
    have hr := hk.entries _ _ hheld
    refine ⟨hk.not_bypassed, ?_, hk.issued_allocated, hk.decreasing, ?_⟩
    · intro id r' hlook
      by_cases hid : id = h.id
      · subst hid
        simp only [AList.lookup_insert, Option.some.injEq] at hlook
        subst hlook
        exact ⟨hr.bytes, hr.allocated, hr.newest⟩
      · simp only [AList.lookup_insert_ne hid] at hlook
        have he := hk.entries id r' hlook
        exact ⟨he.bytes, he.allocated, he.newest⟩
    · intro hu hpos
      have hsum := Tally.total_erase (fun _ r => r.accelerator) hheld
      have hfits := hk.fits hu hpos
      unfold accelerator at hfits ⊢
      rw [Tally.total_insert]
      simp only [] at hsum ⊢
      omega

theorem Kept.poll (hk : Kept w) (snap : Snapshot) :
    Kept { w with ctl := w.ctl.poll snap } := by
  obtain ⟨state, normalRun, hpoll⟩ := poll_eq w.ctl snap
  rw [hpoll]
  refine ⟨hk.not_bypassed, ?_, hk.issued_allocated, hk.decreasing, hk.fits⟩
  intro id r hlook
  have he := hk.entries id r hlook
  exact ⟨he.bytes, he.allocated, he.newest⟩

theorem Kept.room {d : ByteDemand} {snap : Snapshot} {seen : Nat} (hk : Kept w)
    (ha : Admits w.ctl d.toDemand snap (w.ctl.ledger [] (fun _ => none) seen))
    (hu : w.ctl.topology.unified = true) (hpos : 0 < w.ctl.topology.gpuWorkingSetBytes) :
    d.acceleratorBytes + w.accelerator ≤ w.ctl.topology.gpuWorkingSetBytes := by
  have hbytes := d.acceleratorBytes_nonneg
  have hfits := hk.fits hu hpos
  have hledger : (w.ctl.ledger [] (fun _ => none) seen).resident = w.accelerator := by
    rw [ledger_eq]
    exact Tally.total_congr fun id r _ => by simp [residentOf]
  rcases hbytes.lt_or_eq with hsome | hnone
  · have hsum := ha.gpu_sum
    rw [hledger] at hsum
    by_contra hpast
    exact hsum ⟨hu, hpos, hsome, by omega⟩
  · omega

theorem Kept.reserve {id : String} {d : ByteDemand} {snap : Snapshot} {seen : Nat}
    {h : Reservation} {ctl : Controller} (hk : Kept w)
    (hr : w.ctl.reserve id d.toDemand snap seen = .ok (h, ctl)) :
    Kept { ctl := ctl, issued := h :: w.issued } := by
  obtain ⟨hfree, ha, rfl, rfl⟩ := reserve_ok hk.not_bypassed hr
  unfold Controller.record
  refine ⟨hk.not_bypassed, ?_, ?_, ?_, ?_⟩
  · intro id' r hlook
    by_cases hid : id' = id
    · subst hid
      simp only [AList.lookup_insert, Option.some.injEq] at hlook
      subst hlook
      refine ⟨d.acceleratorBytes_nonneg, Nat.lt_succ_self _, ?_⟩
      intro h hmem _
      rcases List.mem_cons.mp hmem with rfl | hold
      · exact Nat.le_refl _
      · exact Nat.le_of_lt (hk.issued_allocated h hold)
    · simp only [AList.lookup_insert_ne hid] at hlook
      have he := hk.entries id' r hlook
      refine ⟨he.bytes, Nat.lt_succ_of_lt he.allocated, ?_⟩
      intro h hmem hidh
      rcases List.mem_cons.mp hmem with rfl | hold
      · exact absurd hidh.symm hid
      · exact he.newest h hold hidh
  · intro h hmem
    rcases List.mem_cons.mp hmem with rfl | hold
    · exact Nat.lt_succ_self _
    · exact Nat.lt_succ_of_lt (hk.issued_allocated h hold)
  · exact List.Pairwise.cons (fun h hold => hk.issued_allocated h hold) hk.decreasing
  · intro hu hpos
    have hroom := hk.room ha hu hpos
    unfold accelerator at hroom ⊢
    rw [Tally.total_insert_of_notMem _ hfree]
    exact hroom

theorem kept_step {e : Event} (hk : Kept w) (hs : controller.step w e = some w') : Kept w' := by
  cases e with
  | reserve id d snap seen =>
    simp only [controller, step] at hs
    split at hs
    · cases hs
      exact hk
    · next hr =>
      cases hs
      exact hk.reserve hr
  | materialize h pid =>
    cases hs
    exact hk.materialize h pid
  | release h =>
    cases hs
    exact hk.release h
  | poll snap =>
    cases hs
    exact hk.poll snap

theorem kept_of_reachable (hr : Reachable controller w) : Kept w :=
  hr.invariant (fun _ => kept_init) fun _ _ _ => kept_step

/-! ## The cap and the stale handle -/

theorem Kept.shared_eq_none {h : Reservation} (hk : Kept w) (ha : w.ReservedAgain h) :
    w.ctl.shared h = none := by
  obtain ⟨later, h', earlier, hissued, hid, hmem⟩ := ha
  have hdec := hk.decreasing
  rw [hissued, List.pairwise_append] at hdec
  have hlt : h.ref < h'.ref := List.rel_of_pairwise_cons hdec.2.1 hmem
  by_contra hsome
  obtain ⟨r, hr⟩ := Option.ne_none_iff_exists'.mp hsome
  obtain ⟨hlook, href⟩ := shared_eq_some.mp hr
  have hmem' : h' ∈ w.issued := by
    rw [hissued]
    exact List.mem_append_right _ List.mem_cons_self
  have hle := (hk.entries _ _ hlook).newest h' hmem' hid
  omega

/-- Whatever has happened, the reservations held fit in the GPU working set of
a unified host; and a handle whose id has been reserved again does nothing. -/
theorem working_set_holds (hr : Reachable controller w) :
    (w.ctl.topology.unified = true → 0 < w.ctl.topology.gpuWorkingSetBytes →
      w.accelerator ≤ w.ctl.topology.gpuWorkingSetBytes) ∧
    ∀ h, w.ReservedAgain h →
      w.ctl.release h = w.ctl ∧ ∀ pid, w.ctl.materialize h pid = w.ctl := by
  have hk := kept_of_reachable hr
  refine ⟨hk.fits, ?_⟩
  intro h ha
  have hnone := hk.shared_eq_none ha
  refine ⟨?_, ?_⟩
  · rw [Controller.release, hnone]
  · intro pid
    rw [Controller.materialize, hnone]

/-- A unified host of 100 bytes, 60 of them for the GPU at most. -/
def cappedHost : Handles where
  ctl :=
    { topology := { unified := true, systemCapacity := 100, gpuWorkingSetBytes := 60 }
      system :=
        { percent := 10, minimumGB := 0, percent_nonneg := by decide
          percent_le := by decide, minimumGB_nonneg := le_refl 0 }
      bypass := false }

def bytes (n : Nat) : ByteDemand where
  unifiedBytes := n
  hostBytes := n
  acceleratorBytes := n
  confidence := "measured"
  acceleratorBytes_nonneg := Int.natCast_nonneg n

/-- The language model is switched: the first one's handle is still around
when the second one holds the id. -/
def switchedModel : List Event :=
  [.reserve "llm" (bytes 30) ⟨90, .normal⟩ 0, .materialize ⟨"llm", 0⟩ 7, .release ⟨"llm", 0⟩,
    .reserve "llm" (bytes 40) ⟨90, .normal⟩ 1, .reserve "image" (bytes 20) ⟨90, .normal⟩ 1,
    .reserve "video" (bytes 1) ⟨90, .normal⟩ 1]

theorem switched_model_keeps_its_reservation :
    let w := controller.after cappedHost switchedModel
    w.accelerator = 60 ∧ w.accelerator ≤ w.ctl.topology.gpuWorkingSetBytes ∧
      w.ctl.release ⟨"llm", 0⟩ = w.ctl := by
  have hr : Reachable controller (controller.after cappedHost switchedModel) :=
    reachable_after ⟨rfl, rfl, rfl⟩ (by decide +kernel)
  have hagain : (controller.after cappedHost switchedModel).ReservedAgain ⟨"llm", 0⟩ :=
    ⟨[⟨"image", 2⟩], ⟨"llm", 1⟩, [⟨"llm", 0⟩], by decide +kernel, rfl, List.mem_singleton.mpr rfl⟩
  obtain ⟨hfits, hstale⟩ := working_set_holds hr
  exact ⟨by decide +kernel, hfits (by decide +kernel) (by decide +kernel), (hstale _ hagain).1⟩

end Handles

end LocalBase.Memory
