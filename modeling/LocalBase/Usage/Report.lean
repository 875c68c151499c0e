import LocalBase.Usage.Totals

/-!
# What a usage report adds up

A report reads the rows it covers, from the database and then from memory, and
adds them up: all of them, those of each step of its series, and those of each
group. What it makes of the sums in floating point, and the names it looks up, are
left out.
-/

namespace LocalBase.Usage

open Buckets

structure Query where
  starts : Int
  ends : Int
  principal : String := ""
  model : String := ""
  route : String := ""
  group : List String := []

/-- What a report shows of the rows it adds up. -/
@[ext] structure Accum where
  requests : Int := 0
  failed : Int := 0
  refused : Int := 0
  cancelled : Int := 0
  inputTokens : Int := 0
  outputTokens : Int := 0
  requestsWithTokens : Int := 0
  durationQueue : Int := 0
  latency : Int → Int := fun _ => 0

namespace Accum

/-- `accum.add`. -/
def add (a : Accum) (status : Int) (t : Totals) : Accum :=
  let a :=
    if status = 499 then { a with cancelled := a.cancelled + t.requests }
    else if 500 ≤ status then { a with failed := a.failed + t.requests }
    else if 400 ≤ status then { a with refused := a.refused + t.requests }
    else a
  { a with
    requests := a.requests + t.requests
    inputTokens := a.inputTokens + t.input
    outputTokens := a.outputTokens + t.output
    requestsWithTokens := a.requestsWithTokens + t.withTokens
    durationQueue := a.durationQueue + t.queueMs
    latency := fun b => a.latency b + t.latency b }

def sum (a b : Accum) : Accum where
  requests := a.requests + b.requests
  failed := a.failed + b.failed
  refused := a.refused + b.refused
  cancelled := a.cancelled + b.cancelled
  inputTokens := a.inputTokens + b.inputTokens
  outputTokens := a.outputTokens + b.outputTokens
  requestsWithTokens := a.requestsWithTokens + b.requestsWithTokens
  durationQueue := a.durationQueue + b.durationQueue
  latency := fun i => a.latency i + b.latency i

theorem sum_comm (a b : Accum) : a.sum b = b.sum a := by
  ext <;> simp only [sum] <;> omega

theorem sum_empty (a : Accum) : a.sum {} = a := by
  ext <;> simp only [sum] <;> omega

instance : Zero Accum := ⟨{}⟩

instance : Add Accum := ⟨sum⟩

instance : AddCommMonoid Accum where
  add_assoc a b c := by
    show (a.sum b).sum c = a.sum (b.sum c)
    ext <;> simp only [sum] <;> omega
  add_comm := sum_comm
  zero_add a := (sum_comm {} a).trans (sum_empty a)
  add_zero := sum_empty
  nsmul := nsmulRec

/-- What a row with this status adds. -/
def ofTotals (status : Int) : Totals →+ Accum where
  toFun := add {} status
  map_zero' := by
    show add {} status {} = {}
    unfold add
    split
    · ext <;> simp
    · split
      · ext <;> simp
      · split <;> ext <;> simp
  map_add' t u := by
    show add {} status (t.merge u) = (add {} status t).sum (add {} status u)
    unfold add
    split
    · ext <;> simp [sum, Totals.merge]
    · split
      · ext <;> simp [sum, Totals.merge]
      · split <;> ext <;> simp [sum, Totals.merge]

theorem add_eq (a : Accum) (status : Int) (t : Totals) :
    a.add status t = a + ofTotals status t := by
  show a.add status t = a.sum (add {} status t)
  unfold add
  split
  · ext <;> simp [sum]
  · split
    · ext <;> simp [sum]
    · split <;> ext <;> simp [sum]

end Accum

/-! ## The rows it reads -/

/-- The oldest time retention allows. -/
def floorAt (now retentionDays : Int) : Int := truncate now hour - retentionDays * day

/-- The rows from one time to another. -/
def covers (starts ends : Int) (k : RowKey) : Bool :=
  decide (unix (truncate starts hour) ≤ k.hour) && decide (k.hour < unix ends)

/-- What a report reads of the database. -/
def readDatabase (db : Rows) (starts ends : Int) : Rows := select (covers starts ends) db

/-- Then what has not reached it. -/
def readPending (rows pending : Rows) (starts ends : Int) : Rows :=
  pending.entries.foldl (fun rows r =>
    if !covers starts ends r.1 then rows
    else match rows.lookup r.1 with
      | some cur => rows.insert r.1 (cur.merge r.2)
      | none => rows.insert r.1 (Totals.merge {} r.2)) rows

theorem readPending_eq (rows pending : Rows) (starts ends : Int) :
    readPending rows pending starts ends =
      pour Sigma.fst Sigma.snd rows (select (covers starts ends) pending).entries := by
  unfold readPending pour select Rows.keep
  rw [List.foldl_filter]
  congr 1
  funext rows r
  by_cases hc : covers starts ends r.1 = true
  · rw [hc]
    show (match rows.lookup r.1 with
      | some cur => rows.insert r.1 (cur.merge r.2)
      | none => rows.insert r.1 (Totals.merge {} r.2)) = rows.insert r.1 (amount rows r.1 + r.2)
    cases h : rows.lookup r.1 with
    | none =>
      rw [amount, h, Option.getD_none]
      rfl
    | some cur =>
      rw [amount_of_lookup h]
      rfl
  · rw [Bool.not_eq_true] at hc
    rw [hc]
    rfl

theorem amount_readPending (rows pending : Rows) (starts ends : Int) (k : RowKey) :
    amount (readPending rows pending starts ends) k =
      amount rows k + if covers starts ends k then amount pending k else 0 := by
  rw [readPending_eq, amount_pour_entries, amount_select]

/-! ## The sums -/

def Query.matches (q : Query) (k : RowKey) : Bool :=
  (q.principal = "" || k.principal = q.principal) && (q.model = "" || k.model = q.model) &&
    (q.route = "" || k.route = q.route)

/-- The step of a series: a day where it covers more than a week and an hour. -/
def stepOf (starts ends : Int) : Int := if 7 * day + hour < ends - starts then day else hour

/-- The point of the series a row belongs to. -/
def slotOf (step : Int) (k : RowKey) : Int := unix (truncate (k.hour * second) step)

def groupId (group : List String) (k : RowKey) : String :=
  (if "principal" ∈ group then k.kind ++ "\x00" ++ k.principal else "") ++ "\x00" ++
    (if "model" ∈ group then k.model else "") ++ "\x00" ++
    (if "route" ∈ group then k.route else "")

structure Report where
  starts : Int
  ends : Int
  step : Int
  totals : Accum := {}
  points : AList fun _ : Int => Accum := ∅
  groups : AList fun _ : String => Accum := ∅

def Report.row (q : Query) (rep : Report) (r : Σ _ : RowKey, Totals) : Report :=
  if !q.matches r.1 then rep
  else
    let slot := slotOf rep.step r.1
    let points := rep.points.insert slot ((amount rep.points slot).add r.1.status r.2)
    let rep := { rep with totals := rep.totals.add r.1.status r.2, points := points }
    if q.group = [] then rep
    else
      let id := groupId q.group r.1
      { rep with groups := rep.groups.insert id ((amount rep.groups id).add r.1.status r.2) }

/-- What a report makes of the rows it read. -/
def report (q : Query) (starts : Int) (rows : Rows) : Report :=
  rows.entries.foldl (Report.row q)
    { starts := starts, ends := q.ends, step := stepOf starts q.ends }

/-- What the rows that `p` picks add up to. -/
def accumOf (p : RowKey → Bool) : RowKey → Totals →+ Accum :=
  fun k => if p k then Accum.ofTotals k.status else 0

/-- The same, over the rows of a list. -/
def accumRows (p : RowKey → Bool) (rs : List (Σ _ : RowKey, Totals)) : Accum :=
  (rs.map fun r => accumOf p r.1 r.2).sum

theorem accumRows_cons (p : RowKey → Bool) (r : Σ _ : RowKey, Totals)
    (rs : List (Σ _ : RowKey, Totals)) :
    accumRows p (r :: rs) =
      (if p r.1 then Accum.ofTotals r.1.status r.2 else 0) + accumRows p rs := by
  unfold accumRows
  rw [List.map_cons, List.sum_cons]
  congr 1
  unfold accumOf
  split <;> rfl

def Query.inSlot (q : Query) (step slot : Int) (k : RowKey) : Bool :=
  q.matches k && decide (slotOf step k = slot)

def Query.inGroup (q : Query) (id : String) (k : RowKey) : Bool :=
  q.matches k && decide (q.group ≠ []) && decide (groupId q.group k = id)

theorem Report.row_step (q : Query) (rep : Report) (r : Σ _ : RowKey, Totals) :
    (rep.row q r).step = rep.step := by
  unfold Report.row
  split
  · rfl
  · split <;> rfl

theorem amount_insert_add {κ : Type} [DecidableEq κ] (m : AList fun _ : κ => Accum) (k j : κ)
    (r : Σ _ : RowKey, Totals) :
    amount (m.insert k ((amount m k).add r.1.status r.2)) j =
      amount m j + if k = j then Accum.ofTotals r.1.status r.2 else 0 := by
  rw [amount_insert, Accum.add_eq]
  split
  · next h => rw [if_pos h.symm, h]
  · next h => rw [if_neg (Ne.symm h), add_zero]

theorem accumRows_single (p : RowKey → Bool) (r : Σ _ : RowKey, Totals) :
    accumRows p [r] = if p r.1 then Accum.ofTotals r.1.status r.2 else 0 := by
  rw [accumRows_cons]
  exact add_zero _

theorem Report.row_adds (q : Query) (rep : Report) (r : Σ _ : RowKey, Totals) :
    (rep.row q r).totals = rep.totals + accumRows q.matches [r] ∧
      (∀ s, amount (rep.row q r).points s =
        amount rep.points s + accumRows (q.inSlot rep.step s) [r]) ∧
      ∀ g, amount (rep.row q r).groups g =
        amount rep.groups g + accumRows (q.inGroup g) [r] := by
  simp only [accumRows_single, Query.inSlot, Query.inGroup]
  unfold Report.row
  by_cases hm : q.matches r.1 = true
  · simp only [hm, Bool.not_true, Bool.false_eq_true, if_false, if_true, Bool.true_and,
      decide_eq_true_eq]
    by_cases hg : q.group = []
    · simp only [hg, if_true, ne_eq, not_true_eq_false, decide_false, Bool.false_and,
        Bool.false_eq_true, if_false, add_zero, implies_true, and_true]
      exact ⟨Accum.add_eq .., fun s => amount_insert_add ..⟩
    · simp only [hg, if_false, ne_eq, not_false_eq_true, decide_true, Bool.true_and,
        decide_eq_true_eq]
      exact ⟨Accum.add_eq .., fun s => amount_insert_add .., fun g => amount_insert_add ..⟩
  · rw [Bool.not_eq_true] at hm
    simp [hm]

theorem Report.rows_add (q : Query) (rep : Report) (rs : List (Σ _ : RowKey, Totals)) :
    (rs.foldl (Report.row q) rep).totals = rep.totals + accumRows q.matches rs ∧
      (∀ s, amount (rs.foldl (Report.row q) rep).points s =
        amount rep.points s + accumRows (q.inSlot rep.step s) rs) ∧
      ∀ g, amount (rs.foldl (Report.row q) rep).groups g =
        amount rep.groups g + accumRows (q.inGroup g) rs := by
  induction rs generalizing rep with
  | nil => simp [accumRows]
  | cons r rs ih =>
    obtain ⟨ht, hp, hg⟩ := rep.row_adds q r
    obtain ⟨iht, ihp, ihg⟩ := ih (rep.row q r)
    rw [List.foldl_cons]
    have hcons : ∀ p, accumRows p (r :: rs) = accumRows p [r] + accumRows p rs := fun p => by
      rw [accumRows_cons, accumRows_single]
    refine ⟨?_, fun s => ?_, fun g => ?_⟩
    · rw [iht, ht, hcons, add_assoc]
    · rw [ihp, hp, Report.row_step, hcons, add_assoc]
    · rw [ihg, hg, hcons, add_assoc]

theorem report_sums (q : Query) (starts : Int) (rows : Rows) :
    (report q starts rows).totals = figure (accumOf q.matches) rows ∧
      (∀ s, amount (report q starts rows).points s =
        figure (accumOf (q.inSlot (stepOf starts q.ends) s)) rows) ∧
      ∀ g, amount (report q starts rows).groups g = figure (accumOf (q.inGroup g)) rows := by
  obtain ⟨ht, hp, hg⟩ := Report.rows_add q
    { starts := starts, ends := q.ends, step := stepOf starts q.ends } rows.entries
  refine ⟨ht.trans (zero_add _), fun s => (hp s).trans ?_, fun g => (hg g).trans ?_⟩
  · rw [amount_empty, zero_add]
    rfl
  · rw [amount_empty, zero_add]
    rfl

end LocalBase.Usage
