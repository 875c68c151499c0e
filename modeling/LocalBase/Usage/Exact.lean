import LocalBase.Lib.RwLock
import LocalBase.Usage.Recorder

/-!
# Counting is exact

At every moment what the database holds of a row, what the memory holds, and what
a flush has taken and not brought anywhere come to what was there at the start and
one for each event counted: for every row of an hour that no prune has reached. A
report keeps flushes and prunes out while it reads, so what it reads of the
database and then of the memory is all of it, as it was when it read the memory.
-/

namespace LocalBase.Usage

open Buckets Machine RwLock

/-- What the events of a log come to, in a row. -/
def counted (s : Settings) (log : List (RowKey × Event)) (k : RowKey) : Totals :=
  share Prod.fst (fun p => s.figure p.2) log k

namespace Recorder

/-- What a flush has taken and not brought anywhere. -/
def inFlight (r : Recorder) : Rows := r.writer.elim ∅ fun i => (r.call i).taken

def held (r : Recorder) (k : RowKey) : Totals :=
  amount r.database k + amount r.pending k + amount r.inFlight k

/-- Where a report starts: at the floor of some moment, if its query starts before. -/
def StartsAt (s : Settings) (r : Recorder) (q : Query) (starts : Int) : Prop :=
  ∃ t ≤ r.clock, starts =
    if q.starts < floorAt t s.retentionDays then floorAt t s.retentionDays else q.starts

def CallOk (s : Settings) (base : Rows) (r : Recorder) : Pc → Prop
  | .adding _ e => s.recording = true ∧ e.route ∈ routes
  | .prune (.floored f) => f ≤ r.floor s
  | .report _ n .waiting | .report _ n .locked | .report _ n .failed => n ≤ r.log.length
  | .report q n (.floored starts) =>
    StartsAt s r q starts ∧ n ≤ r.log.length ∧ r.pruned ≤ unix (truncate starts hour)
  | .report q n (.readDatabase starts rows) =>
    StartsAt s r q starts ∧ n ≤ r.log.length ∧ r.pruned ≤ unix (truncate starts hour) ∧
      ∀ k, amount rows k = if covers starts q.ends k then amount r.database k else 0
  | .report q n (.readPending starts rows upto) | .report q n (.returned starts rows upto) =>
    StartsAt s r q starts ∧ n ≤ upto ∧ upto ≤ r.log.length ∧
      ∀ k, amount rows k =
        if covers starts q.ends k then amount base k + counted s (r.log.take upto) k else 0
  | .idle | .flush _ | .prune _ | .finished => True

structure Inv (s : Settings) (base : Rows) (r : Recorder) : Prop where
  locked : Locked Pc.exclusive Pc.shared r.writer r.readers r.call
  conserved : ∀ k, r.pruned ≤ k.hour → r.held k = amount base k + counted s r.log k
  bounded : r.pruned ≤ r.floor s
  calls : ∀ i, CallOk s base r (r.call i)

variable {s : Settings} {base : Rows} {r r' : Recorder} {i : Nat} {pc : Pc} {starts : Int}
  {n : Nat} {q : Query} {rows : Rows} {k : RowKey} {e : Event}

/-! ## The clock -/

theorem unix_mono {a b : Int} (h : a ≤ b) : unix a ≤ unix b :=
  Int.ediv_le_ediv (by decide) h

theorem le_truncate {c step t : Int} (hstep : 0 < step) (h : c * step ≤ t) :
    c * step ≤ truncate t step :=
  Int.mul_le_mul_of_nonneg_right (Int.le_ediv_of_mul_le hstep h) (Int.le_of_lt hstep)

theorem floorAt_eq (now days : Int) : floorAt now days = (now / hour - days * 24) * hour := by
  unfold floorAt truncate day
  rw [Int.sub_mul, Int.mul_assoc]

theorem floorAt_mono {a b : Int} (h : a ≤ b) (days : Int) : floorAt a days ≤ floorAt b days := by
  rw [floorAt_eq, floorAt_eq]
  have hdiv : a / hour ≤ b / hour := Int.ediv_le_ediv (by decide) h
  exact Int.mul_le_mul_of_nonneg_right (by omega) (by decide)

theorem floor_mono (h : r.clock ≤ r'.clock) : r.floor s ≤ r'.floor s :=
  unix_mono (floorAt_mono h s.retentionDays)

theorem StartsAt.mono (hs : StartsAt s r q starts)
    (h : r.clock ≤ r'.clock) : StartsAt s r' q starts := by
  obtain ⟨t, ht, hst⟩ := hs
  exact ⟨t, Int.le_trans ht h, hst⟩

theorem floor_le_truncate (h : floorAt r.clock s.retentionDays ≤ starts) :
    r.floor s ≤ unix (truncate starts hour) := by
  refine unix_mono ?_
  rw [floorAt_eq] at h ⊢
  exact le_truncate (by decide) h

/-! ## What a step leaves to the others -/

/-- What a call knows outlasts steps that only add to the log and let the clock
go on, and others only while the call has no lock. -/
theorem CallOk.frame (h : CallOk s base r pc) (hclock : r.clock ≤ r'.clock)
    (hlog : r.log <+: r'.log)
    (hshared : pc.shared = true → r'.database = r.database ∧ r'.pruned = r.pruned) :
    CallOk s base r' pc := by
  have hlen : r.log.length ≤ r'.log.length := hlog.length_le
  cases pc with
  | idle | flush | finished => trivial
  | adding => exact h
  | prune p =>
    cases p with
    | floored f => exact Int.le_trans h (floor_mono hclock)
    | waiting | locked | leaving => trivial
  | report q n p =>
    cases p with
    | waiting | locked | failed => exact Nat.le_trans h hlen
    | floored starts =>
      obtain ⟨-, hp⟩ := hshared rfl
      obtain ⟨hs, hn, hf⟩ := h
      exact ⟨hs.mono hclock, Nat.le_trans hn hlen, hp ▸ hf⟩
    | readDatabase starts rows =>
      obtain ⟨hd, hp⟩ := hshared rfl
      obtain ⟨hs, hn, hf, hrows⟩ := h
      exact ⟨hs.mono hclock, Nat.le_trans hn hlen, hp ▸ hf, hd ▸ hrows⟩
    | readPending starts rows upto | returned starts rows upto =>
      obtain ⟨more, hmore⟩ := hlog
      obtain ⟨hs, hn, hupto, hrows⟩ := h
      refine ⟨hs.mono hclock, hn, Nat.le_trans hupto hlen, ?_⟩
      rw [← hmore, List.take_append_of_le_length hupto]
      exact hrows

theorem Inv.moved (h : Inv s base r) (hcall : r'.call = Function.update r.call i pc)
    (hlocked : Locked Pc.exclusive Pc.shared r'.writer r'.readers (Function.update r.call i pc))
    (hconserved : ∀ k, r'.pruned ≤ k.hour → r'.held k = amount base k + counted s r'.log k)
    (hbounded : r'.pruned ≤ r'.floor s) (hok : CallOk s base r' pc)
    (hclock : r.clock ≤ r'.clock) (hlog : r.log <+: r'.log)
    (hframe : ∀ j, (r.call j).shared = true →
      r'.database = r.database ∧ r'.pruned = r.pruned) : Inv s base r' where
  locked := hcall ▸ hlocked
  conserved := hconserved
  bounded := hbounded
  calls := by
    rw [hcall]
    exact (Function.forall_update_iff r.call fun _ y => CallOk s base r' y).2
      ⟨hok, fun j _ => (h.calls j).frame hclock hlog (hframe j)⟩

theorem inFlight_goto (r : Recorder) (i : Nat) (pc : Pc) (ht : pc.taken = (r.call i).taken) :
    (r.goto i pc).inFlight = r.inFlight := by
  unfold inFlight
  show r.writer.elim ∅ (fun j => (Function.update r.call i pc j).taken) = _
  cases r.writer with
  | none => rfl
  | some j =>
    show (Function.update r.call i pc j).taken = (r.call j).taken
    by_cases hj : j = i
    · rw [hj, Function.update_self, ht]
    · rw [Function.update_of_ne hj]

theorem held_of_none (h : r.writer = none) (k : RowKey) :
    r.held k = amount r.database k + amount r.pending k := by
  unfold held inFlight
  rw [h]
  exact add_zero _

theorem held_of_some (rows : Rows) (h : r.writer = some i) (ht : (r.call i).taken = rows)
    (k : RowKey) :
    r.held k = amount r.database k + amount r.pending k + amount rows k := by
  unfold held inFlight
  rw [h, ← ht]
  rfl

theorem Inv.goto (h : Inv s base r) (hex : pc.exclusive = (r.call i).exclusive)
    (hsh : pc.shared = (r.call i).shared) (ht : pc.taken = (r.call i).taken)
    (hok : CallOk s base r pc) : Inv s base (r.goto i pc) := by
  have hok' : CallOk s base (r.goto i pc) pc :=
    hok.frame (Int.le_refl _) (List.prefix_refl _) fun _ => ⟨rfl, rfl⟩
  refine h.moved rfl (h.locked.quiet hex hsh) (fun k hk => ?_) h.bounded hok' (Int.le_refl _)
    (List.prefix_refl _) fun _ _ => ⟨rfl, rfl⟩
  refine Eq.trans ?_ (h.conserved k hk)
  unfold held
  rw [inFlight_goto r i pc ht]
  rfl

theorem Inv.no_shared (h : Inv s base r) (hi : (r.call i).exclusive = true) {p : Prop} :
    ∀ j, (r.call j).shared = true → p := fun j hj => by
  rw [h.locked.not_shared hi] at hj
  exact absurd hj (by simp)

/-! ## The steps -/

theorem Inv.lock (h : Inv s base r) (hl : r.lock i pc = some r') (hsh : pc.shared = false)
    (ht : pc.taken = ∅) (hok : CallOk s base r pc) : Inv s base r' := by
  unfold Recorder.lock at hl
  split at hl
  · next hfree =>
    obtain rfl := Option.some.inj hl
    refine h.moved rfl (h.locked.lock hfree.1 hfree.2 hsh) (fun k hk => ?_) h.bounded
      (hok.frame (Int.le_refl _) (List.prefix_refl _) fun _ => ⟨rfl, rfl⟩) (Int.le_refl _)
      (List.prefix_refl _) fun _ _ => ⟨rfl, rfl⟩
    refine Eq.trans ?_ (h.conserved k hk)
    rw [held_of_none hfree.1]
    refine (held_of_some ∅ (i := i) rfl ?_ k).trans (add_zero _)
    show (Function.update r.call i pc i).taken = ∅
    rw [Function.update_self, ht]
  · exact absurd hl (by simp)

theorem Inv.rlock (h : Inv s base r) (hl : r.rlock i pc = some r') (hex : pc.exclusive = false)
    (hok : CallOk s base r pc) : Inv s base r' := by
  unfold Recorder.rlock at hl
  split at hl
  · next hfree =>
    obtain rfl := Option.some.inj hl
    refine h.moved rfl (h.locked.rlock hfree hex) (fun k hk => ?_) h.bounded
      (hok.frame (Int.le_refl _) (List.prefix_refl _) fun _ => ⟨rfl, rfl⟩) (Int.le_refl _)
      (List.prefix_refl _) fun _ _ => ⟨rfl, rfl⟩
    refine Eq.trans ?_ (h.conserved k hk)
    rw [held_of_none hfree]
    refine (held_of_none ?_ k).trans rfl
    exact hfree
  · exact absurd hl (by simp)

theorem Inv.unlock (h : Inv s base r) (hi : (r.call i).exclusive = true)
    (ht : (r.call i).taken = ∅) :
    Inv s base { r.goto i .finished with writer := none } := by
  refine h.moved rfl (h.locked.unlock hi rfl rfl) (fun k hk => ?_) h.bounded trivial
    (Int.le_refl _) (List.prefix_refl _) fun _ _ => ⟨rfl, rfl⟩
  refine Eq.trans ?_ (h.conserved k hk)
  rw [held_of_some ∅ (h.locked.exclusive i hi) ht]
  exact (held_of_none rfl k).trans (add_zero _).symm

theorem Inv.runlock (h : Inv s base r) (hi : (r.call i).shared = true)
    (hex : pc.exclusive = false) (hsh : pc.shared = false) (hok : CallOk s base r pc) :
    Inv s base { r.goto i pc with readers := r.readers.erase i } := by
  refine h.moved rfl (h.locked.runlock hi hex hsh) (fun k hk => ?_) h.bounded
    (hok.frame (Int.le_refl _) (List.prefix_refl _) fun _ => ⟨rfl, rfl⟩) (Int.le_refl _)
    (List.prefix_refl _) fun _ _ => ⟨rfl, rfl⟩
  refine Eq.trans ?_ (h.conserved k hk)
  rw [held_of_none (h.locked.no_writer hi)]
  refine (held_of_none ?_ k).trans rfl
  exact h.locked.no_writer hi

theorem Inv.added (h : Inv s base r) {pending : Rows} (hex : (r.call i).exclusive = false)
    (hsh : (r.call i).shared = false) (ht : (r.call i).taken = ∅)
    (hsum : ∀ j, amount pending j = amount r.pending j + if k = j then s.figure e else 0) :
    Inv s base { r.goto i .finished with pending := pending, log := r.log ++ [(k, e)] } := by
  refine h.moved rfl (h.locked.quiet hex.symm hsh.symm) (fun j hj => ?_) h.bounded trivial
    (Int.le_refl _) (List.prefix_append _ _) fun _ _ => ⟨rfl, rfl⟩
  have hflight := inFlight_goto r i .finished ht.symm
  have hheld := h.conserved j hj
  unfold held at hheld ⊢
  show amount r.database j + amount pending j + amount (r.goto i .finished).inFlight j = _
  rw [hflight, hsum, counted, share_append, share_cons, share_nil, add_zero, ← add_assoc,
    ← add_assoc, add_right_comm, hheld]
  rfl

theorem Inv.count (h : Inv s base r) (hi : r.call i = .adding k e) :
    Inv s base { r.goto i .finished with
      pending := Usage.count s.bucket r.pending k e
      log := r.log ++ [(k, e)] } := by
  have hok := h.calls i
  rw [hi] at hok
  have hfigure : s.figure e = Totals.one s.bucket e := by
    simp [Settings.figure, hok.1, hok.2]
  refine h.added (by rw [hi]; rfl) (by rw [hi]; rfl) (by rw [hi]; rfl) fun j => ?_
  rw [amount_count, hfigure]

theorem Inv.ignored (h : Inv s base r) (hi : r.call i = .idle)
    (hign : (!s.recording || !decide (e.route ∈ routes)) = true) :
    Inv s base { r.goto i .finished with log := r.log ++ [(k, e)] } := by
  have hfigure : s.figure e = 0 := by
    unfold Settings.figure
    rw [if_neg]
    simpa [imp_iff_not_or] using hign
  refine h.added (by rw [hi]; rfl) (by rw [hi]; rfl) (by rw [hi]; rfl) fun j => ?_
  rw [hfigure, ite_self, add_zero]
  rfl

theorem Inv.take (h : Inv s base r) (hi : r.call i = .flush .locked) :
    Inv s base { r.goto i (.flush (.taken r.pending)) with pending := ∅ } := by
  have hex : (r.call i).exclusive = true := by rw [hi]; rfl
  refine h.moved rfl (h.locked.quiet (by rw [hi]; rfl) (by rw [hi]; rfl)) (fun k hk => ?_)
    h.bounded trivial (Int.le_refl _) (List.prefix_refl _) fun _ _ => ⟨rfl, rfl⟩
  refine Eq.trans ?_ (h.conserved k hk)
  have hwriter := h.locked.exclusive i hex
  rw [held_of_some ∅ hwriter (by rw [hi]; rfl)]
  refine (held_of_some r.pending (i := i) ?_ ?_ k).trans ?_
  · exact hwriter
  · show (Function.update r.call i _ i).taken = _
    rw [Function.update_self]
    rfl
  · show amount r.database k + 0 + _ = _ + 0
    rw [add_zero, add_zero]

theorem Inv.take_empty (h : Inv s base r) (hi : r.call i = .flush .locked)
    (he : r.pending.entries = []) :
    Inv s base { r.goto i (.flush .leaving) with pending := ∅ } := by
  have hpending : r.pending = ∅ := AList.ext he
  have hr : { r.goto i (.flush .leaving) with pending := ∅ } = r.goto i (.flush .leaving) := by
    rw [← hpending]
    rfl
  rw [hr]
  exact h.goto (by rw [hi]; rfl) (by rw [hi]; rfl) (by rw [hi]; rfl) trivial

theorem Inv.brought (h : Inv s base r) (rows database pending : Rows)
    (hex : (r.call i).exclusive = true) (hsh : (r.call i).shared = false)
    (ht : (r.call i).taken = rows)
    (hsum : ∀ k, amount database k + amount pending k =
      amount r.database k + amount r.pending k + amount rows k) :
    Inv s base { r.goto i (.flush .leaving) with database := database, pending := pending } := by
  refine h.moved rfl (h.locked.quiet hex.symm hsh.symm) (fun k hk => ?_)
    h.bounded trivial (Int.le_refl _) (List.prefix_refl _) (h.no_shared hex)
  refine Eq.trans ?_ (h.conserved k hk)
  have hwriter := h.locked.exclusive i hex
  rw [held_of_some rows hwriter ht, ← hsum]
  refine (held_of_some ∅ (i := i) ?_ ?_ k).trans (add_zero _)
  · exact hwriter
  · show (Function.update r.call i _ i).taken = _
    rw [Function.update_self]
    rfl

theorem Inv.delete (h : Inv s base r) {f : Int} (hi : r.call i = .prune (.floored f)) :
    Inv s base { r.goto i (.prune .leaving) with
      database := Usage.prune r.database f
      pruned := max r.pruned f } := by
  have hex : (r.call i).exclusive = true := by rw [hi]; rfl
  have hf : f ≤ r.floor s := by
    have hok := h.calls i
    rw [hi] at hok
    exact hok
  refine h.moved rfl (h.locked.quiet (by rw [hi]; rfl) (by rw [hi]; rfl)) (fun k hk => ?_)
    (Int.max_le.2 ⟨h.bounded, hf⟩) trivial (Int.le_refl _) (List.prefix_refl _)
    (h.no_shared hex)
  obtain ⟨hk, hfk⟩ := Int.max_le.1 hk
  refine Eq.trans ?_ (h.conserved k hk)
  have hflight := inFlight_goto r i (.prune .leaving) (by rw [hi]; rfl)
  unfold held
  rw [← hflight]
  show amount (Usage.prune r.database f) k + _ + _ = _
  rw [amount_prune hfk]
  rfl

theorem Inv.tick (h : Inv s base r) {t : Int} (ht : r.clock ≤ t) :
    Inv s base { r with clock := t } := by
  refine ⟨h.locked, h.conserved, Int.le_trans h.bounded (floor_mono ht), fun i => ?_⟩
  exact (h.calls i).frame ht (List.prefix_refl _) fun _ => ⟨rfl, rfl⟩

/-! ## Reading -/

theorem Inv.readPending (h : Inv s base r)
    (hi : r.call i = .report q n (.readDatabase starts rows)) :
    CallOk s base r (.report q n (.readPending starts
      (Usage.readPending rows r.pending starts q.ends) r.log.length)) := by
  have hok := h.calls i
  rw [hi] at hok
  obtain ⟨hstarts, hn, hpruned, hrows⟩ := hok
  have hwriter : r.writer = none := h.locked.no_writer (i := i) (by rw [hi]; rfl)
  refine ⟨hstarts, hn, Nat.le_refl _, fun k => ?_⟩
  rw [amount_readPending, hrows, List.take_length]
  split
  · next hc =>
    have hk : r.pruned ≤ k.hour := by
      simp only [covers, Bool.and_eq_true, decide_eq_true_eq] at hc
      exact Int.le_trans hpruned hc.1
    rw [← held_of_none hwriter, h.conserved k hk]
  · exact add_zero 0

theorem callOk_floored (h : Inv s base r) (hn : n ≤ r.log.length) :
    CallOk s base r (.report q n (.floored
      (if q.starts < floorAt r.clock s.retentionDays then floorAt r.clock s.retentionDays
        else q.starts))) := by
  refine ⟨⟨r.clock, Int.le_refl _, rfl⟩, hn, Int.le_trans h.bounded (floor_le_truncate ?_)⟩
  split
  · exact Int.le_refl _
  · omega

theorem callOk_readDatabase (h : Inv s base r) (hi : r.call i = .report q n (.floored starts)) :
    CallOk s base r (.report q n
      (.readDatabase starts (Usage.readDatabase r.database starts q.ends))) := by
  have hok := h.calls i
  rw [hi] at hok
  exact ⟨hok.1, hok.2.1, hok.2.2, fun k => amount_select ..⟩

/-! ## Every step -/

theorem Inv.stepCall (h : Inv s base r) {m : Move}
    (hs : r.stepCall s i (r.call i) m = some r') : Inv s base r' := by
  generalize hi : r.call i = pc at hs
  have hok := h.calls i
  rw [hi] at hok
  -- A step that only moves its call on, from a state with the same lock.
  have hgoto : ∀ {pc' : Pc}, pc'.exclusive = pc.exclusive → pc'.shared = pc.shared →
      pc'.taken = pc.taken → CallOk s base r pc' → Inv s base (r.goto i pc') :=
    fun hex hsh ht hok => h.goto (hi ▸ hex) (hi ▸ hsh) (hi ▸ ht) hok
  unfold Recorder.stepCall at hs
  split at hs
  · -- add
    split at hs
    · next hign =>
      obtain rfl := Option.some.inj hs
      exact h.ignored hi hign
    · next hcount =>
      obtain rfl := Option.some.inj hs
      exact hgoto rfl rfl rfl (by simpa [CallOk] using hcount)
  · -- count
    obtain rfl := Option.some.inj hs
    exact h.count hi
  · obtain rfl := Option.some.inj hs
    exact hgoto rfl rfl rfl trivial
  · exact h.lock hs rfl rfl trivial
  · -- take
    split at hs
    · next he =>
      obtain rfl := Option.some.inj hs
      exact h.take_empty hi he
    · obtain rfl := Option.some.inj hs
      exact h.take hi
  · -- the transaction
    next rows =>
      obtain rfl := Option.some.inj hs
      refine h.brought rows (Usage.write r.database rows) r.pending (by rw [hi]; rfl)
        (by rw [hi]; rfl) (by rw [hi]; rfl) fun k => ?_
      rw [amount_write, add_right_comm]
  · obtain rfl := Option.some.inj hs
    exact hgoto rfl rfl rfl trivial
  · -- back to memory
    next rows =>
      obtain rfl := Option.some.inj hs
      refine h.brought rows r.database (Usage.mergeBack r.pending rows) (by rw [hi]; rfl)
        (by rw [hi]; rfl) (by rw [hi]; rfl) fun k => ?_
      rw [amount_mergeBack, ← add_assoc]
  · obtain rfl := Option.some.inj hs
    exact h.unlock (by rw [hi]; rfl) (by rw [hi]; rfl)
  · obtain rfl := Option.some.inj hs
    exact hgoto rfl rfl rfl trivial
  · exact h.lock hs rfl rfl trivial
  · obtain rfl := Option.some.inj hs
    exact hgoto rfl rfl rfl (Int.le_refl _)
  · obtain rfl := Option.some.inj hs
    exact h.delete hi
  · obtain rfl := Option.some.inj hs
    exact hgoto rfl rfl rfl trivial
  · obtain rfl := Option.some.inj hs
    exact h.unlock (by rw [hi]; rfl) (by rw [hi]; rfl)
  · -- a report is asked for
    obtain rfl := Option.some.inj hs
    exact hgoto rfl rfl rfl (Nat.le_refl _)
  · exact h.rlock hs rfl hok
  · -- its range
    obtain rfl := Option.some.inj hs
    exact hgoto rfl rfl rfl (callOk_floored h hok)
  · obtain rfl := Option.some.inj hs
    exact hgoto rfl rfl rfl (callOk_readDatabase h hi)
  · obtain rfl := Option.some.inj hs
    exact hgoto rfl rfl rfl hok.2.1
  · obtain rfl := Option.some.inj hs
    exact hgoto rfl rfl rfl (h.readPending hi)
  · obtain rfl := Option.some.inj hs
    exact h.runlock (by rw [hi]; rfl) rfl rfl hok
  · obtain rfl := Option.some.inj hs
    exact h.runlock (by rw [hi]; rfl) rfl rfl trivial
  · exact absurd hs (by simp)

theorem Inv.step (h : Inv s base r) {e : Nat × Move} (hs : r.step s e = some r') :
    Inv s base r' := by
  unfold Recorder.step at hs
  split at hs
  · split at hs
    · next ht =>
      obtain rfl := Option.some.inj hs
      exact h.tick ht
    · exact absurd hs (by simp)
  · exact h.stepCall hs

def picks (p : RowKey → Bool) (starts ends : Int) (k : RowKey) : Bool :=
  p k && covers starts ends k

/-- A chat, counted on the hour of the epoch. -/
def oneChat : Event where
  kind := "local"
  principal := "local"
  route := "chat"
  model := "m"
  status := 200
  duration := 5 * second
  queueWait := 0
  inputTokens := 3
  outputTokens := 4
  hasTokens := true

def oneDay : Query where
  starts := 0
  ends := day

def newRecorder (s : Settings) : Recorder where
  database := ∅
  clock := 0
  pruned := unix (floorAt 0 s.retentionDays)

def oneBucket : Settings where
  bucket := fun _ => 0

end Recorder

end LocalBase.Usage
