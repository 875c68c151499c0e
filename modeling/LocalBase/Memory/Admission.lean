import LocalBase.Lib.Machine
import LocalBase.Memory.Controller

/-!
# Admission under every interleaving

`Reserve` is three steps, and anything may happen between them: the epoch is
read, later the host is sampled, later still the decision is taken under the
lock. The machine here plays those steps for any number of calls at once,
between the `Materialize` and `Release` of any reservation and the polls of
the pressure monitor, and next to them the runtimes' own use of memory.

What a runtime uses is the world's business. `Life` says how much it uses and
how much it may still grow: it loads up to a final amount it fixed when it was
admitted, uses exactly that from `Materialize` on, and gives it back before
its reservation is released.

The promise is `reserve_never_overcommits`. The argument is about samples:
what a call's reading shows free, together with everything the reservations
in that sample will ever use, is at most what the computer has. That holds
when the sample is taken, because a runtime shown in it is fully loaded, and
no later step breaks it, because a reservation that becomes resident after
the sample's epoch was read stays out of the sample. So the decision counts
every other reservation at its full projection, once and never twice.
-/

namespace LocalBase.Memory

open Machine

/-- A runtime's use of memory, from its admission on. -/
inductive Life
  | loading (used final : Nat) (le : used ≤ final)
  | resident (final : Nat)
  | exiting (used : Nat)
  deriving DecidableEq

def Life.used : Life → Int
  | .loading u _ _ => u
  | .resident f => f
  | .exiting u => u

def Life.remaining : Life → Int
  | .loading u f _ => f - u
  | .resident _ => 0
  | .exiting _ => 0

/-- All it uses and will still take. -/
def Life.total (l : Life) : Int := l.used + l.remaining

/-- One `Reserve` call. -/
inductive Call
  | idle
  | sampled (id : String) (d : Demand) (seen : Nat)
  | read (id : String) (d : Demand) (seen : Nat) (snap : Snapshot)
  | admitted (h : Reservation)
  | failed
  deriving DecidableEq

structure World where
  ctl : Controller
  /-- Memory that is free when none of these runtimes uses any: everything
  else uses a constant amount. -/
  budget : Nat
  /-- The runtimes, by the allocation of their reservation. -/
  life : Nat → Life
  calls : Nat → Call

namespace World

/-- What all the reserved runtimes use. -/
def used (w : World) : Int :=
  Tally.total (fun _ r => (w.life r.ref).used) w.ctl.reservations

/-- What the admitted runtimes that are not fully loaded will still take. -/
def outstanding (w : World) : Int :=
  Tally.total (fun _ r => (w.life r.ref).remaining) w.ctl.reservations

def free (w : World) : Int := w.budget - w.used

end World

inductive Event
  /-- `Reserve` begins: call `k` reads the epoch. -/
  | sampleEpoch (k : Nat) (id : String) (d : Demand)
  /-- Call `k` samples the host; the reading may be unavailable. -/
  | snapshot (k : Nat) (available : Bool) (pressure : Pressure)
  /-- Call `k` decides under the lock; a runtime it admits will load up to
  `final`. -/
  | decide (k : Nat) (final : Nat)
  /-- A loading runtime's use changes. -/
  | load (ref used : Nat)
  | materialize (h : Reservation) (pid : Nat)
  /-- A runtime gives memory back on its way out. -/
  | exit (ref used : Nat)
  | release (h : Reservation)
  | poll (snap : Snapshot)

def step (w : World) : Event → Option World
  | .sampleEpoch k id d =>
    match w.calls k with
    | .idle => some { w with
        calls := Function.update w.calls k (.sampled id d w.ctl.sampleEpoch) }
    | _ => none
  | .snapshot k available pressure =>
    match w.calls k with
    | .sampled id d seen => some { w with
        calls := Function.update w.calls k
          (.read id d seen ⟨if available then w.free else -1, pressure⟩) }
    | _ => none
  | .decide k final =>
    match w.calls k with
    | .read id d seen snap =>
      match w.ctl.reserve id d snap seen with
      | .error _ => some { w with
          calls := Function.update w.calls k .failed }
      | .ok (h, ctl) =>
        -- A runtime never uses more than its projected bytes.
        if (final : Int) ≤ w.ctl.projected d then
          some { w with
            ctl := ctl
            life := Function.update w.life h.ref (.loading 0 final (Nat.zero_le _))
            calls := Function.update w.calls k (.admitted h) }
        else none
    | _ => none
  | .load ref used =>
    match w.life ref with
    | .loading _ final _ =>
      if h : used ≤ final then
        some { w with
          life := Function.update w.life ref (.loading used final h) }
      else none
    | _ => none
  | .materialize h pid => some { w with
      ctl := w.ctl.materialize h pid
      life := match w.life h.ref with
        | .loading _ final _ => Function.update w.life h.ref (.resident final)
        | _ => w.life }
  | .exit ref used =>
    if (used : Int) ≤ (w.life ref).used then
      some { w with life := Function.update w.life ref (.exiting used) }
    else none
  | .release h =>
    -- Release happens after the runtime's memory is gone.
    if w.life h.ref = .exiting 0 then
      some { w with ctl := w.ctl.release h }
    else none
  | .poll snap => some { w with ctl := w.ctl.poll snap }

/-- Any controller that is not bypassed, before its first reservation. -/
def admission : System World Event where
  init w :=
    w.ctl.bypass = false ∧ w.ctl.reservations = ∅ ∧ ∀ k, w.calls k = .idle
  step := step

/-! ## Lives -/

/-- Past `Materialize`: nothing more will be taken. -/
def Life.loaded : Life → Prop
  | .loading _ _ _ => False
  | _ => True

theorem Life.used_nonneg (l : Life) : 0 ≤ l.used := by
  cases l <;> simp [Life.used]

theorem Life.used_le_total (l : Life) : l.used ≤ l.total := by
  cases l <;> simp only [Life.total, Life.used, Life.remaining] <;> omega

theorem Life.total_nonneg (l : Life) : 0 ≤ l.total := by
  cases l <;> simp only [Life.total, Life.used, Life.remaining] <;> omega

variable {l : Life}

theorem Life.total_of_loaded (h : l.loaded) : l.total = l.used := by
  cases l with
  | loading u f le => exact False.elim h
  | resident f => simp [Life.total, Life.remaining]
  | exiting u => simp [Life.total, Life.remaining]

/-- `l'` asks for no more than `l` and is loaded if `l` was. -/
structure Life.Settles (l l' : Life) : Prop where
  total_le : l'.total ≤ l.total
  loaded : l.loaded → l'.loaded

theorem Life.Settles.refl (l : Life) : l.Settles l := ⟨Int.le_refl _, id⟩

theorem Life.settles_load {u u' f : Nat} (h : u ≤ f) (h' : u' ≤ f) :
    (Life.loading u f h).Settles (.loading u' f h') where
  total_le := by simp [Life.total, Life.used, Life.remaining]
  loaded := id

theorem Life.settles_resident {u f : Nat} (h : u ≤ f) :
    (Life.loading u f h).Settles (.resident f) where
  total_le := by simp [Life.total, Life.used, Life.remaining]
  loaded _ := trivial

theorem Life.settles_exit {u : Nat} (h : (u : Int) ≤ l.used) :
    l.Settles (.exiting u) where
  total_le := by
    have ht := l.used_le_total
    simp only [Life.total, Life.used, Life.remaining] at h ht ⊢
    omega
  loaded _ := trivial

/-! ## The invariant -/

namespace World

/-- All that the reserved runtimes use and will still take. -/
def committed (w : World) : Int :=
  Tally.total (fun _ r => (w.life r.ref).total) w.ctl.reservations

/-- The part of it a sample begun in epoch `seen` shows. -/
def shown (w : World) (seen : Nat) : Int :=
  Tally.total (fun _ r =>
    if r.inSample seen then (w.life r.ref).total else 0) w.ctl.reservations

theorem free_sub_outstanding (w : World) :
    w.free - w.outstanding = w.budget - w.committed := by
  have h : w.committed = w.used + w.outstanding := Tally.total_add _ _ _
  unfold free
  omega

end World

/-- A call has read no epoch later than `epoch`, and what its sample shows
free leaves room for everything in that sample. -/
def Call.Sound (w : World) : Call → Prop
  | .sampled _ _ seen => seen ≤ w.ctl.epoch
  | .read _ _ seen snap =>
    seen ≤ w.ctl.epoch ∧ snap.available + w.shown seen ≤ w.budget
  | _ => True

/-- What one reservation and its runtime keep. -/
structure EntrySound (w : World) (r : ReservationEntry) : Prop where
  allocated : r.ref < w.ctl.nextRef
  promised : (w.life r.ref).total ≤ r.projected
  loaded : r.resident = true → (w.life r.ref).loaded
  resident_at : r.residentAt ≤ w.ctl.epoch

structure Sound (w : World) : Prop where
  not_bypassed : w.ctl.bypass = false
  entries : ∀ id r, w.ctl.reservations.lookup id = some r → EntrySound w r
  calls : ∀ k, (w.calls k).Sound w
  fits : w.committed ≤ w.budget

variable {w : World}

theorem sound_init (h : admission.init w) : Sound w := by
  obtain ⟨hb, hr, hk⟩ := h
  refine ⟨hb, ?_, ?_, ?_⟩
  · intro id r hlook
    rw [hr] at hlook
    simp at hlook
  · intro k
    rw [hk k]
    trivial
  · unfold World.committed
    rw [hr, Tally.total_empty]
    omega

/-! ## What each step keeps

Three kinds of step are enough: a call moving on its own, a runtime settling
down, and a change to the ledger that no sample in flight can notice. -/

/-- A change of the ledger and the lives that keeps every entry's promise,
asks for no more memory than before, and shows no sample in flight more than
it showed. -/
theorem Sound.shrink {w' : World} (h : Sound w) (hb : w'.ctl.bypass = w.ctl.bypass)
    (hbud : w'.budget = w.budget) (hcalls : w'.calls = w.calls)
    (hepoch : w.ctl.epoch ≤ w'.ctl.epoch)
    (hent : ∀ id r, w'.ctl.reservations.lookup id = some r → EntrySound w' r)
    (hcom : w'.committed ≤ w.committed)
    (hshown : ∀ seen, seen ≤ w.ctl.epoch → w'.shown seen ≤ w.shown seen) :
    Sound w' := by
  refine ⟨by rw [hb, h.not_bypassed], hent, ?_, ?_⟩
  · intro k
    have hk := h.calls k
    rw [hcalls]
    cases hc : w.calls k with
    | idle => trivial
    | sampled id d seen =>
      rw [hc] at hk
      exact Nat.le_trans hk hepoch
    | read id d seen snap =>
      rw [hc] at hk
      obtain ⟨hs, hle⟩ := hk
      refine ⟨Nat.le_trans hs hepoch, ?_⟩
      have := hshown seen hs
      rw [hbud]
      omega
    | admitted _ => trivial
    | failed => trivial
  · have := h.fits
    rw [hbud]
    omega

theorem Sound.settle (h : Sound w) {ref : Nat} (hl : (w.life ref).Settles l) :
    Sound { w with life := Function.update w.life ref l } := by
  have hall : ∀ r : Nat, (w.life r).Settles (Function.update w.life ref l r) := by
    intro r
    by_cases hr : r = ref
    · subst hr
      rw [Function.update_self]
      exact hl
    · rw [Function.update_of_ne hr]
      exact Life.Settles.refl _
  refine h.shrink rfl rfl rfl (Nat.le_refl _) ?_ ?_ ?_
  · intro id r hlook
    have he := h.entries id r hlook
    exact ⟨he.allocated, Int.le_trans (hall r.ref).total_le he.promised,
      fun hres => (hall r.ref).loaded (he.loaded hres), he.resident_at⟩
  · exact Tally.total_le_total fun _ r _ => (hall r.ref).total_le
  · intro seen _
    refine Tally.total_le_total fun _ r _ => ?_
    split
    · exact (hall r.ref).total_le
    · exact Int.le_refl _

theorem Sound.release (h : Sound w) (g : Reservation) :
    Sound { w with ctl := w.ctl.release g } := by
  cases hs : w.ctl.shared g with
  | none =>
    have hsame : w.ctl.release g = w.ctl := by rw [Controller.release, hs]
    rw [hsame]
    exact h
  | some r =>
    have hrel : w.ctl.release g =
        { w.ctl with reservations := w.ctl.reservations.erase g.id } := by
      rw [Controller.release, hs]
    obtain ⟨hlook, -⟩ := shared_eq_some.mp hs
    rw [hrel]
    refine h.shrink rfl rfl rfl (Nat.le_refl _) ?_ ?_ ?_
    · intro id r' hl
      have hne : id ≠ g.id := by
        rintro rfl
        rw [AList.lookup_erase] at hl
        cases hl
      rw [AList.lookup_erase_ne hne] at hl
      have he := h.entries id r' hl
      exact ⟨he.allocated, he.promised, he.loaded, he.resident_at⟩
    · have ht := Tally.total_erase
        (fun _ r => (w.life r.ref).total) hlook
      have hn := (w.life r.ref).total_nonneg
      simp only [World.committed] at ht ⊢
      omega
    · intro seen _
      have ht := Tally.total_erase (fun _ r =>
        if r.inSample seen then (w.life r.ref).total else 0) hlook
      have hn := (w.life r.ref).total_nonneg
      simp only [World.shown] at ht ⊢
      split at ht <;> omega

/-- A runtime that is loaded becomes resident: it leaves no sample in flight
showing more, for its epoch is later than all of theirs. -/
theorem Sound.materialize (h : Sound w) (g : Reservation) (pid : Nat)
    (hl : (w.life g.ref).loaded) :
    Sound { w with ctl := w.ctl.materialize g pid } := by
  cases hs : w.ctl.shared g with
  | none =>
    have hsame : w.ctl.materialize g pid = w.ctl := by
      rw [Controller.materialize, hs]
    rw [hsame]
    exact h
  | some r =>
    have hmat : w.ctl.materialize g pid =
        { w.ctl with
          epoch := w.ctl.epoch + 1
          reservations := w.ctl.reservations.insert g.id
            { r with
              resident := true, pid := pid, residentAt := w.ctl.epoch + 1 } } := by
      rw [Controller.materialize, hs]
    obtain ⟨hlook, href⟩ := shared_eq_some.mp hs
    rw [hmat]
    refine h.shrink rfl rfl rfl (Nat.le_succ _) ?_ ?_ ?_
    · intro id r' hr'
      by_cases hid : id = g.id
      · subst hid
        rw [AList.lookup_insert] at hr'
        cases hr'
        have he := h.entries g.id r hlook
        exact ⟨he.allocated, he.promised, fun _ => by rw [href]; exact hl,
          Nat.le_refl _⟩
      · rw [AList.lookup_insert_ne hid] at hr'
        have he := h.entries id r' hr'
        exact ⟨he.allocated, he.promised, he.loaded,
          Nat.le_succ_of_le he.resident_at⟩
    · have ht := Tally.total_erase
        (fun _ r => (w.life r.ref).total) hlook
      simp only [World.committed, Tally.total_insert] at ht ⊢
      omega
    · intro seen hseen
      have ht := Tally.total_erase (fun _ r =>
        if r.inSample seen then (w.life r.ref).total else 0) hlook
      have hn := (w.life r.ref).total_nonneg
      have hout : ReservationEntry.inSample { r with
          resident := true, pid := pid, residentAt := w.ctl.epoch + 1 }
            seen = false := by
        simp only [ReservationEntry.inSample, Bool.true_and,
          decide_eq_false_iff_not]
        omega
      simp only [World.shown, Tally.total_insert, hout] at ht ⊢
      split at ht <;> simp <;> omega

theorem Sound.poll (h : Sound w) (snap : Snapshot) :
    Sound { w with ctl := w.ctl.poll snap } := by
  obtain ⟨state, normalRun, hp⟩ := poll_eq w.ctl snap
  rw [hp]
  refine h.shrink rfl rfl rfl (Nat.le_refl _) ?_ (Int.le_refl _)
    (fun _ _ => Int.le_refl _)
  intro id r hlook
  have he := h.entries id r hlook
  exact ⟨he.allocated, he.promised, he.loaded, he.resident_at⟩

theorem Sound.call (h : Sound w) {k : Nat} {c : Call} (hc : c.Sound w) :
    Sound { w with calls := Function.update w.calls k c } := by
  refine ⟨h.not_bypassed, ?_, ?_, h.fits⟩
  · intro id r hlook
    have he := h.entries id r hlook
    exact ⟨he.allocated, he.promised, he.loaded, he.resident_at⟩
  · intro k'
    by_cases hk : k' = k
    · subst hk
      show Call.Sound _ (Function.update w.calls k' c k')
      rw [Function.update_self]
      cases c <;> exact hc
    · show Call.Sound _ (Function.update w.calls k c k')
      rw [Function.update_of_ne hk]
      have := h.calls k'
      cases hck : w.calls k' <;> rw [hck] at this <;> exact this

/-- The sample itself: a runtime it shows is loaded, so what it uses is all
it will ever use. -/
theorem Sound.shown_le_used (h : Sound w) (seen : Nat) :
    w.shown seen ≤ w.used := by
  refine Tally.total_le_total fun id r hlook => ?_
  split
  · next hin =>
    have hres : r.resident = true := by
      simp only [ReservationEntry.inSample, Bool.and_eq_true] at hin
      exact hin.1
    exact Int.le_of_eq (Life.total_of_loaded ((h.entries id r hlook).loaded hres))
  · exact Life.used_nonneg _

theorem Sound.available_le (h : Sound w) (available : Bool) (seen : Nat) :
    (if available then w.free else -1) + w.shown seen ≤ w.budget := by
  have hu := h.shown_le_used seen
  have hn : w.used ≤ w.committed :=
    Tally.total_le_total fun _ r _ => Life.used_le_total _
  have hf := h.fits
  cases available <;> simp [World.free] <;> omega

theorem Sound.committed_le (h : Sound w) (seen : Nat) :
    w.committed ≤ w.shown seen +
      Tally.total (pendingOf [] seen) w.ctl.reservations := by
  rw [World.shown, ← Tally.total_add]
  refine Tally.total_le_total fun id r hlook => ?_
  have hp := (h.entries id r hlook).promised
  unfold pendingOf
  rw [if_neg (List.not_mem_nil)]
  split
  · omega
  · omega

/-! ## The decision -/

/-- The world after call `k`'s demand was admitted. -/
def World.record (w : World) (k : Nat) (id : String) (d : Demand)
    (final : Nat) : World :=
  { w with
    ctl := w.ctl.record id d
    life := Function.update w.life w.ctl.nextRef (.loading 0 final (Nat.zero_le _))
    calls := Function.update w.calls k (.admitted ⟨id, w.ctl.nextRef⟩) }

section Admit

variable {w : World} {k : Nat} {id : String} {d : Demand} {final : Nat}

theorem Sound.life_record (h : Sound w) {id' : String} {r : ReservationEntry}
    (hlook : w.ctl.reservations.lookup id' = some r) :
    (w.record k id d final).life r.ref = w.life r.ref :=
  Function.update_of_ne (Nat.ne_of_lt (h.entries id' r hlook).allocated) _ _

theorem World.life_record_new (w : World) :
    (w.record k id d final).life w.ctl.nextRef =
      .loading 0 final (Nat.zero_le _) :=
  Function.update_self _ _ _

theorem Sound.committed_record (h : Sound w) (hid : id ∉ w.ctl.reservations) :
    (w.record k id d final).committed = final + w.committed := by
  have hnew : ((w.record k id d final).life w.ctl.nextRef).total = final := by
    rw [World.life_record_new]
    simp [Life.total, Life.used, Life.remaining]
  have hold : Tally.total
      (fun _ r => ((w.record k id d final).life r.ref).total)
        w.ctl.reservations = w.committed :=
    Tally.total_congr fun _ _ hlook => by rw [h.life_record hlook]
  rw [World.committed]
  simp only [World.record, Controller.record] at hnew hold ⊢
  rw [Tally.total_insert_of_notMem _ hid, hold]
  exact congrArg (· + w.committed) hnew

theorem Sound.shown_record (h : Sound w) (hid : id ∉ w.ctl.reservations)
    (seen : Nat) : (w.record k id d final).shown seen = w.shown seen := by
  have hold : Tally.total (fun _ r => if r.inSample seen then
      ((w.record k id d final).life r.ref).total else 0) w.ctl.reservations =
      w.shown seen :=
    Tally.total_congr fun _ _ hlook => by rw [h.life_record hlook]
  rw [World.shown]
  simp only [World.record, Controller.record] at hold ⊢
  rw [Tally.total_insert_of_notMem _ hid, hold]
  simp [Controller.newEntry, ReservationEntry.inSample]

/-- The decision's own arithmetic: the reading less what it does not show
leaves the reserve free above the new runtime's final use. A negative
remainder is read as zero, so an empty demand against an empty reserve is
admitted on what earlier admissions kept. -/
theorem Sound.reserve_le (h : Sound w) {seen : Nat} {snap : Snapshot}
    (hcall : Call.Sound w (.read id d seen snap))
    (hadm : Admits w.ctl d snap (w.ctl.ledger [] (fun _ => none) seen))
    (hfinal : (final : Int) ≤ w.ctl.projected d) :
    w.ctl.reserveBytes ≤ w.budget - (final + w.committed) := by
  obtain ⟨-, hshown⟩ := hcall
  have hcom := h.committed_le seen
  have hbudget := h.fits
  have hres : 0 ≤ w.ctl.reserveBytes := w.ctl.system.bytes_nonneg _
  have hfits := hadm.fits
  have hfreed : Tally.total (freedOf [] (fun _ => none) seen)
      w.ctl.reservations = 0 := by
    have hz : ∀ (a : String) (r : ReservationEntry),
        freedOf [] (fun _ => none) seen a r = 0 := by
      intro a r
      rw [freedOf, if_neg List.not_mem_nil]
    simp [Tally.total, hz]
  rw [ledger_eq] at hfits
  simp only [hfreed] at hfits
  rcases Int.le_total 0 (snap.available + 0 - Tally.total (pendingOf [] seen)
      w.ctl.reservations) with hpos | hneg
  · rw [Int.max_eq_right hpos] at hfits
    omega
  · rw [Int.max_eq_left hneg] at hfits
    omega

theorem Sound.record (h : Sound w) {seen : Nat} {snap : Snapshot}
    (hcall : Call.Sound w (.read id d seen snap))
    (hid : id ∉ w.ctl.reservations)
    (hadm : Admits w.ctl d snap (w.ctl.ledger [] (fun _ => none) seen))
    (hfinal : (final : Int) ≤ w.ctl.projected d) :
    Sound (w.record k id d final) := by
  refine ⟨h.not_bypassed, ?_, ?_, ?_⟩
  · intro id' r hlook
    by_cases hid' : id' = id
    · subst hid'
      have hr : w.ctl.newEntry d = r := by
        simpa [World.record, Controller.record, AList.lookup_insert] using hlook
      subst hr
      refine ⟨Nat.lt_succ_self _, ?_, fun hres => ?_, Nat.zero_le _⟩
      · rw [show (w.ctl.newEntry d).ref = w.ctl.nextRef from rfl,
          World.life_record_new]
        simpa [Life.total, Life.used, Life.remaining, Controller.newEntry]
          using hfinal
      · cases hres
    · have hlook' : w.ctl.reservations.lookup id' = some r := by
        simpa [World.record, Controller.record, AList.lookup_insert_ne hid']
          using hlook
      have he := h.entries id' r hlook'
      refine ⟨Nat.lt_succ_of_lt he.allocated, ?_, fun hres => ?_, he.resident_at⟩
      · rw [h.life_record hlook']
        exact he.promised
      · rw [h.life_record hlook']
        exact he.loaded hres
  · intro k'
    by_cases hk : k' = k
    · subst hk
      rw [show (w.record k' id d final).calls k' =
        .admitted ⟨id, w.ctl.nextRef⟩ from Function.update_self _ _ _]
      trivial
    · rw [show (w.record k id d final).calls k' = w.calls k' from
        Function.update_of_ne hk _ _]
      have hk' := h.calls k'
      cases hc : w.calls k' with
      | read id' d' seen' snap' =>
        rw [hc] at hk'
        refine ⟨hk'.1, ?_⟩
        rw [h.shown_record hid]
        exact hk'.2
      | sampled id' d' seen' => rw [hc] at hk'; exact hk'
      | idle | admitted _ | failed => trivial
  · rw [h.committed_record hid]
    have := h.reserve_le hcall hadm hfinal
    have : 0 ≤ w.ctl.reserveBytes := w.ctl.system.bytes_nonneg _
    show (final : Int) + w.committed ≤ w.budget
    omega

end Admit

/-- What a successful decision is: call `k` had read its sample, and its
demand was admitted on it. -/
theorem step_decide_ok {w' : World} {k final : Nat} {g : Reservation} (hb : w.ctl.bypass = false)
    (hs : step w (.decide k final) = some w') (hk : w'.calls k = .admitted g) :
    ∃ id d seen snap, w.calls k = .read id d seen snap ∧
      id ∉ w.ctl.reservations ∧
      Admits w.ctl d snap (w.ctl.ledger [] (fun _ => none) seen) ∧
      (final : Int) ≤ w.ctl.projected d ∧ w' = w.record k id d final := by
  simp only [step] at hs
  split at hs
  · next id d seen snap hcall =>
    split at hs
    · cases hs
      simp at hk
    · next h ctl hres =>
      split at hs
      · next hfinal =>
        obtain ⟨hid, hadm, rfl, rfl⟩ := reserve_ok hb hres
        cases hs
        exact ⟨id, d, seen, snap, hcall, hid, hadm, hfinal, rfl⟩
      · cases hs
  · cases hs

theorem sound_step {w' : World} {e : Event} (h : Sound w)
    (hs : admission.step w e = some w') : Sound w' := by
  change step w e = some w' at hs
  cases e with
  | sampleEpoch k id d =>
    simp only [step] at hs
    split at hs
    · cases hs
      exact h.call (c := .sampled id d w.ctl.sampleEpoch) (Nat.le_refl _)
    · cases hs
  | snapshot k available pressure =>
    simp only [step] at hs
    split at hs
    · next id d seen hcall =>
      cases hs
      have hk := h.calls k
      rw [hcall] at hk
      exact h.call (c := .read id d seen _) ⟨hk, h.available_le available seen⟩
    · cases hs
  | decide k final =>
    simp only [step] at hs
    split at hs
    · next id d seen snap hcall =>
      have hk := h.calls k
      rw [hcall] at hk
      split at hs
      · cases hs
        exact h.call (c := .failed) trivial
      · next g ctl hres =>
        split at hs
        · next hfinal =>
          obtain ⟨hid, hadm, rfl, rfl⟩ := reserve_ok h.not_bypassed hres
          cases hs
          exact h.record hk hid hadm hfinal
        · cases hs
    · cases hs
  | load ref used =>
    simp only [step] at hs
    split at hs
    · next u final hle hlife =>
      split at hs
      · next hu =>
        cases hs
        exact h.settle (by rw [hlife]; exact Life.settles_load hle hu)
      · cases hs
    · cases hs
  | materialize g pid =>
    simp only [step] at hs
    cases hs
    cases hlife : w.life g.ref with
    | loading u final hle =>
      have h1 : Sound { w with
          life := Function.update w.life g.ref (.resident final) } :=
        h.settle (by rw [hlife]; exact Life.settles_resident hle)
      exact h1.materialize g pid (by simp [Life.loaded])
    | resident final | exiting used =>
      exact h.materialize g pid (by rw [hlife]; trivial)
  | exit ref used =>
    simp only [step] at hs
    split at hs
    · next hu =>
      cases hs
      exact h.settle (Life.settles_exit hu)
    · cases hs
  | release g =>
    simp only [step] at hs
    split at hs
    · cases hs
      exact h.release g
    · cases hs
  | poll snap =>
    cases hs
    exact h.poll snap

theorem sound_reachable (h : Reachable admission w) : Sound w :=
  h.invariant (fun _ => sound_init) (fun _ _ _ => sound_step)

/-- Whenever a `Reserve` succeeds, free memory less what every admitted
runtime that is not fully loaded will still take, the new one included, is at
least the reserve: no interleaving over-commits the pool. -/
theorem reserve_never_overcommits {w w' : World} {k final : Nat}
    {g : Reservation} (hw : Reachable admission w)
    (hs : admission.step w (.decide k final) = some w')
    (hk : w'.calls k = .admitted g) :
    w'.ctl.system.bytes w'.ctl.topology.systemCapacity ≤
      w'.free - w'.outstanding := by
  have h := sound_reachable hw
  obtain ⟨id, d, seen, snap, hcall, hid, hadm, hfinal, rfl⟩ :=
    step_decide_ok h.not_bypassed hs hk
  have hc := h.calls k
  rw [hcall] at hc
  rw [World.free_sub_outstanding, h.committed_record hid]
  exact h.reserve_le hc hadm hfinal

/-- A host of 100 bytes that keeps 10 for itself, with 95 of them free. -/
def smallHost : World where
  ctl :=
    { topology := { unified := true, systemCapacity := 100, gpuWorkingSetBytes := 0 }
      system :=
        { percent := 10, minimumGB := 0, percent_nonneg := by norm_num
          percent_le := by norm_num, minimumGB_nonneg := by norm_num }
      bypass := false }
  budget := 95
  life _ := .exiting 0
  calls _ := .idle

/-- The image model samples the host before the language model is resident
and decides after it is: the language model counts as pending. -/
def overlappedStarts : List Event :=
  [.sampleEpoch 0 "llm" ⟨40, 40, 0, "measured"⟩, .snapshot 0 true .normal,
    .sampleEpoch 1 "image" ⟨20, 20, 0, "measured"⟩, .decide 0 35, .load 0 20,
    .snapshot 1 true .normal, .materialize ⟨"llm", 0⟩ 7]

theorem overlapped_starts_never_overcommit :
    let w' := admission.after smallHost (overlappedStarts ++ [.decide 1 20])
    w'.calls 1 = .admitted ⟨"image", 1⟩ ∧
      w'.ctl.system.bytes w'.ctl.topology.systemCapacity ≤
        w'.free - w'.outstanding := by
  have hk : (admission.after smallHost
      (overlappedStarts ++ [.decide 1 20])).calls 1 =
        .admitted ⟨"image", 1⟩ := by decide +kernel
  exact ⟨hk, reserve_never_overcommits
    (reachable_after ⟨rfl, rfl, fun _ => rfl⟩ (by decide +kernel))
    (step_after overlappedStarts (by decide +kernel)
      (by decide +kernel)) hk⟩

end LocalBase.Memory
