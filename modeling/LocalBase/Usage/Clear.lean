import LocalBase.Usage.Exact

/-!
# Clearing the totals

`Clear` removes the totals before a time, or all of them: first those in memory, then
those in the database. Only the second can fail. It has `io` to itself all the while,
so no flush, no removal of old rows and no report comes in between; calls of `Add` do.
-/

namespace LocalBase.Usage

open Buckets

/-- What can be in memory: `Add` counts, a flush that failed puts back what it took, and
`Clear` removes. -/
inductive Counted (bucket : Int → Int) : Rows → Prop
  | empty : Counted bucket ∅
  | count {pending : Rows} (k : RowKey) (e : Event) :
      Counted bucket pending → Counted bucket (count bucket pending k e)
  | mergeBack {pending taken : Rows} :
      Counted bucket pending → Counted bucket taken → Counted bucket (mergeBack pending taken)
  | keep {pending : Rows} (p : RowKey → Bool) :
      Counted bucket pending → Counted bucket (select p pending)

/-- `hour < before`, or every hour. -/
def cleared (before : Option Int) (k : RowKey) : Bool :=
  before.elim true fun b => decide (k.hour < unix b)

namespace Recorder

/-- Calls of `Add`, each with its row. -/
def addAll (s : Settings) (r : Recorder) (adds : List (RowKey × Event)) : Recorder :=
  { r with pending := adds.foldl (fun p a => Usage.count s.bucket p a.1 a.2) r.pending }

/-- `Clear`, and the calls of `Add` between its two steps. It returns an error where the
database does not succeed. -/
def clear (s : Settings) (before : Option Int) (adds : List (RowKey × Event)) (succeeds : Bool)
    (r : Recorder) : Recorder :=
  let r := { r with pending := select (fun k => !cleared before k) r.pending }
  let r := r.addAll s adds
  if succeeds then { r with database := select (fun k => !cleared before k) r.database } else r

/-- `Report`. -/
def answer (s : Settings) (q : Query) (r : Recorder) : Report :=
  let floor := floorAt r.clock s.retentionDays
  let starts := if q.starts < floor then floor else q.starts
  report q starts
    (Usage.readPending (Usage.readDatabase r.database starts q.ends) r.pending starts q.ends)

end Recorder

/-- The totals are the same: all of them, and those of each point and each group. -/
def SameTotals (a b : Report) : Prop :=
  a.totals = b.totals ∧ (∀ slot, amount a.points slot = amount b.points slot) ∧
    ∀ id, amount a.groups id = amount b.groups id

section
variable {bucket : Int → Int} {s : Settings} {r : Recorder} {before : Option Int}
  {adds : List (RowKey × Event)} {pending : Rows} {q : Query}

/-! ## Memory -/

theorem mem_pour {m : Rows} {l : List (Σ _ : RowKey, Totals)} {k : RowKey}
    (h : k ∈ pour Sigma.fst Sigma.snd m l) : k ∈ m ∨ k ∈ l.map Sigma.fst := by
  induction l generalizing m with
  | nil => exact .inl h
  | cons a l ih =>
    rcases ih h with h | h
    · rcases (AList.mem_insert _).1 h with rfl | h
      · exact .inr List.mem_cons_self
      · exact .inl h
    · exact .inr (List.mem_cons_of_mem _ h)

theorem requests_pos (h : Counted bucket pending) {k : RowKey} (hk : k ∈ pending) :
    0 < (amount pending k).requests := by
  have hnonneg : ∀ {p : Rows}, (k ∈ p → 0 < (amount p k).requests) →
      0 ≤ (amount p k).requests := fun {p} hp => by
    by_cases hmem : k ∈ p
    · exact (hp hmem).le
    · rw [amount_of_notMem hmem]
      exact le_rfl
  induction h with
  | empty => exact absurd hk (AList.notMem_empty k)
  | @count pending k' e h ih =>
    rw [amount_count]
    split
    · have hrest := hnonneg ih
      show 0 < (amount pending k).requests + 1
      omega
    · next hne =>
      rw [add_zero]
      exact ih (((AList.mem_insert _).1 hk).resolve_left (Ne.symm hne))
  | @mergeBack pending taken _ _ ih ih' =>
    rw [mergeBack_eq] at hk ⊢
    have hpending := hnonneg ih
    have htaken := hnonneg ih'
    rw [amount_pour_entries]
    show 0 < (amount pending k).requests + (amount taken k).requests
    rcases mem_pour hk with hk | hk
    · have := ih hk
      omega
    · have := ih' hk
      omega
  | @keep pending p _ ih =>
    have hlookup : (select p pending).lookup k ≠ none := fun h => AList.lookup_eq_none.1 h hk
    rw [lookup_select] at hlookup
    rw [amount_select]
    split
    · next hp =>
      rw [if_pos hp] at hlookup
      exact ih (not_not.1 fun hmem => hlookup (AList.lookup_eq_none.2 hmem))
    · next hp => exact absurd (if_neg hp) hlookup

theorem addAll_eq : (r.addAll s adds).pending =
    pour Prod.fst (fun a => Totals.one s.bucket a.2) r.pending adds := by
  show adds.foldl _ r.pending = _
  unfold pour Usage.count
  congr 1
  funext p a
  rw [Totals.count_eq]

/-! ## What is missing -/

/-- What `Clear` takes from memory, of the rows that a report reads. -/
def lost (before : Option Int) (q : Query) (starts : Int) (r : Recorder) : Rows :=
  select (fun k => cleared before k && covers starts q.ends k) r.pending

theorem figure_lost (φ : RowKey → Totals →+ Accum) (starts : Int) :
    figure φ (readPending (readDatabase r.database starts q.ends) (r.addAll s adds).pending starts
        q.ends) =
      figure φ (readPending (readDatabase r.database starts q.ends)
        (r.clear s before adds false).pending starts q.ends) +
      ((lost before q starts r).entries.map fun a => φ a.1 a.2).sum := by
  refine figure_of_amount φ (fun a : Σ _ : RowKey, Totals => a.1) (fun a => a.2) fun k => ?_
  have hclear : (r.clear s before adds false).pending =
      pour Prod.fst (fun a => Totals.one s.bucket a.2)
        (select (fun k => !cleared before k) r.pending) adds := addAll_eq
  rw [← map_add, share_entries, amount_readPending, amount_readPending, addAll_eq, hclear,
    amount_pour, amount_pour, lost, amount_select, amount_select]
  congr 1
  cases covers starts q.ends k with
  | true =>
    cases cleared before k with
    | true => simp [add_comm, add_left_comm]
    | false => simp
  | false => simp

def startOf (s : Settings) (q : Query) (r : Recorder) : Int :=
  if q.starts < floorAt r.clock s.retentionDays then floorAt r.clock s.retentionDays else q.starts

theorem answer_lost (s : Settings) (before : Option Int) (adds : List (RowKey × Event)) (q : Query)
    (r : Recorder) :
    ((r.addAll s adds).answer s q).totals =
      ((r.clear s before adds false).answer s q).totals +
        accumRows q.matches (lost before q (startOf s q r) r).entries ∧
    (∀ slot, amount ((r.addAll s adds).answer s q).points slot =
      amount ((r.clear s before adds false).answer s q).points slot +
        accumRows (q.inSlot (stepOf (startOf s q r) q.ends) slot)
          (lost before q (startOf s q r) r).entries) ∧
    ∀ id, amount ((r.addAll s adds).answer s q).groups id =
      amount ((r.clear s before adds false).answer s q).groups id +
        accumRows (q.inGroup id) (lost before q (startOf s q r) r).entries := by
  obtain ⟨ht, hp, hg⟩ := report_sums q (startOf s q r)
    (readPending (readDatabase r.database (startOf s q r) q.ends) (r.addAll s adds).pending
      (startOf s q r) q.ends)
  obtain ⟨ht', hp', hg'⟩ := report_sums q (startOf s q r)
    (readPending (readDatabase r.database (startOf s q r) q.ends)
      (r.clear s before adds false).pending (startOf s q r) q.ends)
  refine ⟨?_, fun slot => ?_, fun id => ?_⟩
  · exact ht.trans ((figure_lost _ _).trans (congrArg (· + _) ht'.symm))
  · exact (hp slot).trans ((figure_lost _ _).trans (congrArg (· + _) (hp' slot).symm))
  · exact (hg id).trans ((figure_lost _ _).trans (congrArg (· + _) (hg' id).symm))

theorem floor_le_of_covers {k : RowKey} (h : covers (startOf s q r) q.ends k = true) :
    r.floor s ≤ k.hour := by
  have hstart : floorAt r.clock s.retentionDays ≤ startOf s q r := by
    unfold startOf
    split
    · exact le_rfl
    · next h => exact not_lt.1 h
  have hlow := of_decide_eq_true (Bool.and_eq_true_iff.1 h).1
  exact (Recorder.floor_le_truncate hstart).trans hlow

theorem mem_lost {starts : Int} {a : Σ _ : RowKey, Totals} :
    a ∈ (lost before q starts r).entries ↔
      (cleared before a.1 = true ∧ covers starts q.ends a.1 = true) ∧ a ∈ r.pending.entries := by
  obtain ⟨k, t⟩ := a
  rw [← AList.mem_lookup_iff, ← AList.mem_lookup_iff, lost, lookup_select]
  split
  · next h => rw [and_iff_right (Bool.and_eq_true_iff.1 h)]
  · next h => exact iff_of_false nofun fun hk => h (Bool.and_eq_true_iff.2 hk.1)

theorem le_requests (p : RowKey → Bool) (rs : List (Σ _ : RowKey, Totals))
    (h : ∀ a ∈ rs, p a.1 = true ∧ 0 < a.2.requests) :
    (rs.length : Int) ≤ (accumRows p rs).requests := by
  induction rs with
  | nil => exact le_rfl
  | cons a rs ih =>
    obtain ⟨hp, hpos⟩ := h a List.mem_cons_self
    have hrest := ih fun b hb => h b (List.mem_cons_of_mem a hb)
    have hrow : (Accum.ofTotals a.1.status a.2).requests = a.2.requests := by
      show (Accum.add {} a.1.status a.2).requests = a.2.requests
      unfold Accum.add
      dsimp only
      split_ifs <;> exact zero_add _
    rw [accumRows_cons, if_pos hp, List.length_cons]
    show _ ≤ (Accum.ofTotals a.1.status a.2).requests + (accumRows p rs).requests
    rw [hrow]
    push_cast
    omega

/-- A report of the hour of a row and of nothing else. -/
def hourOf (s : Settings) (r : Recorder) (k : RowKey) : Query where
  starts := floorAt r.clock s.retentionDays
  ends := (k.hour + 1) * second

theorem covers_hourOf {k : RowKey} (h : r.floor s ≤ k.hour) :
    covers (startOf s (hourOf s r k) r) (hourOf s r k).ends k = true := by
  have hstart : startOf s (hourOf s r k) r = floorAt r.clock s.retentionDays := if_neg (lt_irrefl _)
  have hwhole : truncate (floorAt r.clock s.retentionDays) hour =
      floorAt r.clock s.retentionDays := by
    rw [Recorder.floorAt_eq, truncate, Int.mul_ediv_cancel _ (by decide)]
  have hends : unix (hourOf s r k).ends = k.hour + 1 := Int.mul_ediv_cancel _ (by decide)
  rw [hstart]
  refine Bool.and_eq_true_iff.2 ⟨decide_eq_true ?_, decide_eq_true ?_⟩
  · rw [hwhole]
    exact h
  · rw [hends]
    omega

/-- A failed clear leaves what every report says as it was, whatever is counted in the
meantime, exactly when memory has no row before the bound that a report would read. -/
theorem clear_failed_iff (h : Counted s.bucket r.pending) (before : Option Int) :
    (∀ adds q, SameTotals ((r.clear s before adds false).answer s q)
        ((r.addAll s adds).answer s q)) ↔
      ∀ k ∈ r.pending, cleared before k → k.hour < r.floor s := by
  constructor
  · intro hsame k hk hcleared
    by_contra hfloor
    have hcovers := covers_hourOf (not_lt.1 hfloor)
    obtain ⟨t, ht⟩ := Option.ne_none_iff_exists'.1 fun hnone => AList.lookup_eq_none.1 hnone hk
    have hmem : (⟨k, t⟩ : Σ _ : RowKey, Totals) ∈
        (lost before (hourOf s r k) (startOf s (hourOf s r k) r) r).entries :=
      mem_lost.2 ⟨⟨hcleared, hcovers⟩, AList.mem_lookup_iff.1 ht⟩
    have hle := le_requests (hourOf s r k).matches (lost before (hourOf s r k)
      (startOf s (hourOf s r k) r) r).entries fun a ha => by
        have hlookup := AList.mem_lookup_iff.2 (mem_lost.1 ha).2
        have hin : a.1 ∈ r.pending := by
          by_contra hout
          rw [AList.lookup_eq_none.2 hout] at hlookup
          cases hlookup
        have hpos := requests_pos h hin
        rw [amount_of_lookup hlookup] at hpos
        exact ⟨rfl, hpos⟩
    have htotals := (answer_lost s before [] (hourOf s r k) r).1.symm.trans
      (hsame [] (hourOf s r k)).1.symm
    have hsum : ((r.clear s before [] false).answer s (hourOf s r k)).totals.requests +
        (accumRows (hourOf s r k).matches (lost before (hourOf s r k)
          (startOf s (hourOf s r k) r) r).entries).requests =
        ((r.clear s before [] false).answer s (hourOf s r k)).totals.requests :=
      congrArg Accum.requests htotals
    have hlength := List.length_pos_of_mem hmem
    omega
  · intro hnone adds q
    have hlost : (lost before q (startOf s q r) r).entries = [] := by
      refine List.eq_nil_iff_forall_not_mem.2 fun a ha => ?_
      obtain ⟨⟨hcleared, hcovers⟩, hin⟩ := mem_lost.1 ha
      have hlookup := AList.mem_lookup_iff.2 hin
      have hmem : a.1 ∈ r.pending := by
        by_contra hout
        rw [AList.lookup_eq_none.2 hout] at hlookup
        cases hlookup
      exact absurd (floor_le_of_covers hcovers) (not_le.2 (hnone a.1 hmem hcleared))
    obtain ⟨ht, hp, hg⟩ := answer_lost s before adds q r
    rw [hlost] at ht hp hg
    exact ⟨(ht.trans (add_zero _)).symm, fun slot => ((hp slot).trans (add_zero _)).symm,
      fun id => ((hg id).trans (add_zero _)).symm⟩

end

/-- A chat that has not been written yet. -/
def chatInMemory : Recorder :=
  { Recorder.newRecorder Recorder.oneBucket with
    pending := count Recorder.oneBucket.bucket ∅ (rowKey 0 Recorder.oneChat) Recorder.oneChat }

theorem counted_chat : Counted Recorder.oneBucket.bucket chatInMemory.pending :=
  .count _ _ .empty

/-- The chat is not before the epoch. -/
theorem epoch_cleared :
    SameTotals
      ((chatInMemory.clear Recorder.oneBucket (some 0) [] false).answer Recorder.oneBucket
        Recorder.oneDay)
      ((chatInMemory.addAll Recorder.oneBucket []).answer Recorder.oneBucket
        Recorder.oneDay) := by
  refine (clear_failed_iff counted_chat (some 0)).2 (fun k hk hcleared => ?_) [] Recorder.oneDay
  obtain rfl : k = rowKey 0 Recorder.oneChat :=
    ((AList.mem_insert _).1 hk).resolve_right (AList.notMem_empty k)
  exact absurd hcleared (by decide)

/-- The clear has failed, and the chat is gone. -/
theorem chat_lost :
    ¬ ∀ (s : Settings) (r : Recorder) (before : Option Int), Counted s.bucket r.pending →
      ∀ q, SameTotals ((r.clear s before [] false).answer s q) (r.answer s q) := by
  intro h
  have htotals := (h Recorder.oneBucket chatInMemory none counted_chat Recorder.oneDay).1
  have hrequests := congrArg Accum.requests htotals
  revert hrequests
  decide

end LocalBase.Usage
