import LocalBase.Lib.Turns
import LocalBase.StructuredOutput.Safe

/-!
# The order of a range

A check shares one count of its steps between all it tries, and a range over an
object goes in any order. An alternative that fails at a member it comes to
early leaves the steps that a later one needs.

What decides is told of a schema and a value alone: whether the value is
accepted when only the depth is limited, and the fewest and the most steps the
check can take, over the orders of all its ranges.
-/

namespace LocalBase.StructuredOutput

open Turns

variable {go : Go} {root s : Object} {n : Nat} {steps : Nat} {r : Bool × Nat} {c : Check}

abbrev Visit : Type := {visit : Object → Object // ∀ m, (visit m).Perm m}

instance : Inhabited Visit := ⟨⟨id, fun _ => .refl _⟩⟩

/-- The orders of the ranges of a run, by the steps taken. -/
abbrev Order : Type := Nat → Visit

/-- The library, with these orders. -/
def Go.visiting (go : Go) (o : Order) : Go :=
  { go with range := fun n => (o n).1, range_perm := fun n => (o n).2 }

/-! ## What a call goes on to -/

/-- An answer, or the calls that decide: one of several schemas for the value,
one schema for all items, or a schema for each member. -/
inductive Goes where
  | answer (b : Bool)
  | alternatives (ms : List Object)
  | items (p : Object) (xs : List Json)
  | members (val : Object)

def goesOn (go : Go) (root s : Object) (v : Json) : Goes :=
  match s.string? "$ref" with
  | some ref =>
    match schemaAt root ref with
    | none => .answer false
    | some target => .alternatives [target]
  | none =>
    match s.array? "anyOf" with
    | some alts => .alternatives (alts.filterMap Json.object?)
    | none =>
      if !literalOk go s v then .answer false
      else
        match v with
        | .obj val =>
          match requiredOk val ((s.array? "required").getD []) with
          | .ok true => .members val
          | _ => .answer false
        | .arr xs =>
          if !countOk go s xs.length then .answer false
          else
            match s.object? "items" with
            | some p => .items p xs
            | none => .answer true
        | .str t => .answer (lengthOk go s t)
        | v => .answer ((number go v).all (boundsOk go s))

/-- A member's check: its property's schema, or none. -/
def memberCall (call : Object → Json → Nat → Bool × Nat) (s : Object) (e : String × Json)
    (n : Nat) : Bool × Nat :=
  match ((s.object? "properties").getD []).object? e.1 with
  | none => (!closed s, n)
  | some p => call p e.2 n

/-- A call with no limit on the steps, in an order: its answer and the steps
taken. `n` calls below it are within the limit on the depth. -/
def run (go : Go) (root : Object) (o : Order) : Nat → Object → Json → Nat → Bool × Nat
  | 0, _, _, steps => (false, steps + 1)
  | n + 1, s, v, steps =>
    match goesOn go root s v with
    | .answer b => (b, steps + 1)
    | .alternatives ms => anyOf (fun m => run go root o n m v) ms (steps + 1)
    | .items p xs => allOf (fun x => run go root o n p x) xs (steps + 1)
    | .members val =>
      allOf (memberCall (run go root o n) s) ((o (steps + 1)).1 val) (steps + 1)

def memberSpan (call : Object → Json → Span) (s : Object) (e : String × Json) : Span :=
  match ((s.object? "properties").getD []).object? e.1 with
  | none => .free (!closed s)
  | some p => call p e.2

/-- What a call answers when only the depth is limited, and the fewest and the
most steps it takes. -/
def span (go : Go) (root : Object) : Nat → Object → Json → Span
  | 0, _, _ => (Span.free false).succ
  | n + 1, s, v =>
    Span.succ <|
      match goesOn go root s v with
      | .answer b => .free b
      | .alternatives ms => .any (ms.map fun m => span go root n m v)
      | .items p xs => .all (xs.map fun x => span go root n p x)
      | .members val => .allInSomeOrder (val.map (memberSpan (span go root n) s))

theorem memberCall_spanned {call : Order → Object → Json → Nat → Bool × Nat}
    {spans : Object → Json → Span}
    (h : ∀ p x, Spanned (fun o => call o p x) (spans p x)) (s : Object) (e : String × Json) :
    Spanned (fun o => memberCall (call o) s e) (memberSpan spans s e) := by
  unfold memberCall memberSpan
  cases ((s.object? "properties").getD []).object? e.1 with
  | none => exact Spanned.free (Ω := Visit) (!closed s)
  | some p => exact h p e.2

theorem exists_visit {val ys : Object} (h : ys.Perm val) : ∃ w : Visit, w.1 val = ys := by
  classical
  refine ⟨⟨fun m => if m = val then ys else m, fun m => ?_⟩, if_pos rfl⟩
  show (if m = val then ys else m).Perm m
  by_cases hm : m = val
  · subst hm
    rw [if_pos rfl]
    exact h
  · rw [if_neg hm]

theorem run_spanned (n : Nat) : ∀ (s : Object) (v : Json),
    Spanned (fun o => run go root o n s v) (span go root n s v) := by
  induction n with
  | zero => exact fun s v => (Spanned.free false).succ
  | succ n ih =>
    intro s v
    simp only [run, span]
    cases goesOn go root s v with
    | answer b => exact (Spanned.free b).succ
    | alternatives ms => exact (Spanned.anyOf fun m _ => ih m v).succ
    | items p xs => exact (Spanned.allOf fun x _ => ih p x).succ
    | members val =>
      exact Spanned.allInSomeOrder (fun e _ => memberCall_spanned ih s e)
        (fun w => w.2 val) fun ys hys => exists_visit hys

/-! ## The limit on the steps -/

/-- A check that has taken these steps; past the limit, any others past it. -/
def Check.At (c : Check) (steps : Nat) : Prop :=
  (steps ≤ maxValidationSteps → c.steps = steps) ∧
    (maxValidationSteps < steps → maxValidationSteps < c.steps)

/-- What a call answers within the limit is what the run answers; past the
limit it answers no. -/
def Tracks (r : Bool × Nat) (out : Run (Bool × Check)) : Prop :=
  ∃ c, out = .ok (r.1 && decide (r.2 ≤ maxValidationSteps), c) ∧ c.At r.2

theorem Check.At.meet (h : c.At steps) (s : Object) :
    (c.meet s).At (steps + 1) := by
  obtain ⟨hle, hlt⟩ := h
  have hmeet : (c.meet s).steps = c.steps + 1 := rfl
  refine ⟨fun h => by rw [hmeet, hle (by omega)], fun h => ?_⟩
  rw [hmeet]
  by_cases hs : steps ≤ maxValidationSteps
  · rw [hle hs]
    exact h
  · exact Nat.lt_succ_of_lt (hlt (by omega))

theorem tracks_answer {b : Bool} (h : c.At steps)
    (hle : steps ≤ maxValidationSteps) : Tracks (b, steps) (.ok (b, c)) :=
  ⟨c, by simp [hle], h⟩

theorem tracks_past (hr : maxValidationSteps < r.2)
    (hc : maxValidationSteps < c.steps) : Tracks r (.ok (false, c)) := by
  refine ⟨c, ?_, fun h => absurd h (by omega), fun _ => hc⟩
  rw [decide_eq_false (by omega), Bool.and_false]

/-- A run says yes within the limit, or no, or yes past the limit; the check
says no in the last. -/
theorem tracks_cases {out : Run (Bool × Check)} (h : Tracks r out) :
    ∃ c : Check, c.At r.2 ∧ (r.1 = true ∧ r.2 ≤ maxValidationSteps ∧ out = .ok (true, c) ∨
      r.1 = false ∧ out = .ok (false, c) ∨
      r.1 = true ∧ maxValidationSteps < r.2 ∧ out = .ok (false, c)) := by
  obtain ⟨c, hout, hc⟩ := h
  refine ⟨c, hc, ?_⟩
  cases hr : r.1 with
  | false => exact .inr (.inl ⟨rfl, by rw [hout, hr, Bool.false_and]⟩)
  | true =>
    rw [hr, Bool.true_and] at hout
    by_cases hle : r.2 ≤ maxValidationSteps
    · exact .inl ⟨rfl, hle, by rw [hout, decide_eq_true hle]⟩
    · exact .inr (.inr ⟨rfl, by omega, by rw [hout, decide_eq_false hle]⟩)

theorem anyOf_grows {α : Type} {call : α → Nat → Bool × Nat} (h : ∀ x n, n ≤ (call x n).2)
    (xs : List α) (n : Nat) : n ≤ (anyOf call xs n).2 := by
  induction xs generalizing n with
  | nil => exact Nat.le_refl n
  | cons x xs ih =>
    rw [anyOf]
    split
    · exact h x n
    · exact Nat.le_trans (h x n) (ih _)

theorem allOf_grows {α : Type} {call : α → Nat → Bool × Nat} (h : ∀ x n, n ≤ (call x n).2)
    (xs : List α) (n : Nat) : n ≤ (allOf call xs n).2 := by
  induction xs generalizing n with
  | nil => exact Nat.le_refl n
  | cons x xs ih =>
    rw [allOf]
    split
    · exact Nat.le_trans (h x n) (ih _)
    · exact h x n

section
variable {call : Object → Json → Nat → Bool × Nat}
  (hgrows : ∀ p x steps, steps ≤ (call p x steps).2)
include hgrows

theorem tryAlternatives_tracks {check : Object → Check → Run (Bool × Check)} {v : Json}
    {alts : List Json} (h : ∀ m, .obj m ∈ alts → ∀ c steps, c.At steps →
      Tracks (call m v steps) (check m c)) :
    ∀ c steps, c.At steps →
      Tracks (anyOf (fun m => call m v) (alts.filterMap Json.object?) steps)
        (tryAlternatives check alts c) := by
  induction alts with
  | nil =>
    intro c steps hc
    exact ⟨c, rfl, hc⟩
  | cons alt alts ih =>
    have hrest := ih fun m hm => h m (List.mem_cons_of_mem _ hm)
    intro c steps hc
    rw [tryAlternatives]
    cases halt : alt.object? with
    | none =>
      rw [List.filterMap_cons_none halt]
      exact hrest c steps hc
    | some m =>
      rw [List.filterMap_cons_some halt, anyOf]
      rw [Json.object?_eq_some] at halt
      obtain ⟨c', hc', ⟨hyes, hle, hout⟩ | ⟨hno, hout⟩ | ⟨hyes, hpast, hout⟩⟩ :=
        tracks_cases (h m (halt ▸ List.mem_cons_self) c steps hc)
      · rw [if_pos hyes]
        dsimp only
        rw [hout]
        exact ⟨c', by rw [hyes, decide_eq_true hle]; rfl, hc'⟩
      · rw [if_neg (by rw [hno]; exact Bool.false_ne_true)]
        dsimp only
        rw [hout]
        exact hrest c' _ hc'
      · rw [if_pos hyes]
        dsimp only
        rw [hout]
        obtain ⟨c'', hout', hc''⟩ := hrest c' _ hc'
        have hfar := Nat.lt_of_lt_of_le hpast (anyOf_grows (fun m n => hgrows m v n)
          (alts.filterMap Json.object?) (call m v steps).2)
        rw [decide_eq_false (by omega), Bool.and_false] at hout'
        show Tracks _ (tryAlternatives check alts c')
        rw [hout']
        exact tracks_past hpast (hc''.2 hfar)

omit hgrows in
theorem tracks_next {out : Run (Bool × Check)} {next : Bool × Check → Run (Bool × Check)}
    (rest : Nat → Bool × Nat) (hrest : ∀ n, n ≤ (rest n).2) (h : Tracks r out)
    (hyes : ∀ c, c.At r.2 → r.2 ≤ maxValidationSteps → Tracks (rest r.2) (next (true, c)))
    (hno : ∀ c, next (false, c) = .ok (false, c)) :
    Tracks (if r.1 = true then rest r.2 else r) (out >>= next) := by
  obtain ⟨c, hc, ⟨hb, hle, rfl⟩ | ⟨hb, rfl⟩ | ⟨hb, hpast, rfl⟩⟩ := tracks_cases h
  · rw [if_pos hb]
    exact hyes c hc hle
  · rw [if_neg (by rw [hb]; exact Bool.false_ne_true)]
    exact ⟨c, by rw [hb]; exact hno c, hc⟩
  · rw [if_pos hb]
    show Tracks _ (next (false, c))
    rw [hno c]
    exact tracks_past (Nat.lt_of_lt_of_le hpast (hrest r.2)) (hc.2 hpast)

theorem checkItems_tracks {check : Json → Check → Run (Bool × Check)} {p : Object}
    (h : ∀ x c steps, c.At steps → Tracks (call p x steps) (check x c)) (xs : List Json) :
    ∀ c steps, c.At steps → steps ≤ maxValidationSteps →
      Tracks (allOf (fun x => call p x) xs steps) (checkItems check xs c) := by
  induction xs with
  | nil => exact fun c steps hc hle => tracks_answer hc hle
  | cons x xs ih =>
    intro c steps hc _
    rw [checkItems, allOf]
    refine tracks_next (allOf (fun x => call p x) xs)
      (fun n => allOf_grows (fun x n => hgrows p x n) xs n) (h x c steps hc)
      (fun c' => ih c' _) fun _ => rfl

theorem memberCall_grows (s : Object) (e : String × Json) (n : Nat) :
    n ≤ (memberCall call s e n).2 := by
  unfold memberCall
  split
  · exact Nat.le_refl n
  · exact hgrows _ _ n

theorem checkMembers_tracks {check : Object → Json → Check → Run (Bool × Check)} {val : Object}
    (h : ∀ k p x, ((s.object? "properties").getD []).object? k = some p →
      ∀ c steps, c.At steps → Tracks (call p x steps) (check p x c)) :
    ∀ c steps, c.At steps → steps ≤ maxValidationSteps →
      Tracks (allOf (memberCall call s) val steps) (checkMembers check s val c) := by
  induction val with
  | nil => exact fun c steps hc hle => tracks_answer hc hle
  | cons e val ih =>
    obtain ⟨k, x⟩ := e
    intro c steps hc hle
    rw [checkMembers, allOf]
    cases hp : ((s.object? "properties").getD []).object? k with
    | none =>
      have hcall : memberCall call s (k, x) steps = (!closed s, steps) := by
        rw [memberCall, hp]
      rw [hcall]
      cases closed s with
      | true => exact tracks_answer hc hle
      | false => exact ih c steps hc hle
    | some p =>
      have hcall : memberCall call s (k, x) steps = call p x steps := by
        rw [memberCall, hp]
      rw [hcall]
      exact tracks_next (allOf (memberCall call s) val)
        (fun n => allOf_grows (memberCall_grows hgrows s) val n) (h k p x hp c steps hc)
        (fun c' => ih c' _) fun _ => rfl

end

theorem run_moves (o : Order) (n : Nat) (s : Object) (v : Json) (steps : Nat) :
    steps + 1 ≤ (run go root o n s v steps).2 := by
  have hspan : 1 ≤ (span go root n s v).fewest := by
    cases n <;> exact Nat.succ_pos _
  exact Nat.le_trans (Nat.add_le_add_left hspan steps) ((run_spanned n s v).fewest o steps)

theorem run_grows (o : Order) (n : Nat) (s : Object) (v : Json) (steps : Nat) :
    steps ≤ (run go root o n s v steps).2 :=
  Nat.le_of_succ_le (run_moves o n s v steps)

theorem validKeywords_tracks (h : Accepted go root) (hs : Checked go root s) {o : Order}
    {check : Object → Json → Check → Run (Bool × Check)} {v : Json}
    (href : s.string? "$ref" = none) (hany : s.array? "anyOf" = none)
    (hcheck : ∀ p x c steps, Below root p → c.At steps →
      Tracks (run go root o n p x steps) (check p x c)) (hc : c.At (steps + 1))
    (hle : steps + 1 ≤ maxValidationSteps) :
    Tracks (run go root o (n + 1) s v steps) (validKeywords (go.visiting o) check s v c) := by
  have hsteps : c.steps = steps + 1 := hc.1 hle
  unfold run goesOn validKeywords
  rw [href, hany]
  have hlit : literalOk (go.visiting o) s v = literalOk go s v := rfl
  rw [hlit]
  cases literalOk go s v with
  | false => exact tracks_answer hc hle
  | true =>
    cases v with
    | obj val =>
      obtain ⟨b, hb⟩ := requiredOk_total val (hs.readable h).required_strings
      simp only [Bool.not_true, Bool.false_eq_true, if_false, hb]
      cases b with
      | false => exact tracks_answer hc hle
      | true =>
        have hrange : (go.visiting o).range c.steps val = (o (steps + 1)).1 val := by
          rw [hsteps]
          rfl
        show Tracks _ (checkMembers check s ((go.visiting o).range c.steps val) c)
        rw [hrange]
        exact checkMembers_tracks (run_grows o n) (fun k p x hp c steps hc =>
          hcheck p x c steps (hs.property hp) hc) c _ hc hle
    | arr xs =>
      have hcount : countOk (go.visiting o) s xs.length = countOk go s xs.length := rfl
      simp only [Bool.not_true, Bool.false_eq_true, if_false, hcount]
      cases countOk go s xs.length with
      | false => exact tracks_answer hc hle
      | true =>
        simp only [Bool.not_true, Bool.false_eq_true, if_false]
        cases hitems : s.object? "items" with
        | none => exact tracks_answer hc hle
        | some items =>
          exact checkItems_tracks (run_grows o n) (fun x c steps hc =>
            hcheck items x c steps (hs.item hitems) hc) xs c _ hc hle
    | str t => exact tracks_answer hc hle
    | null => exact tracks_answer hc hle
    | bool b => exact tracks_answer hc hle
    | num m => exact tracks_answer hc hle

theorem valid_tracks (h : Accepted go root) (o : Order) :
    ∀ {n depth : Nat} {s : Object} {v : Json} {c : Check} {steps : Nat}, Below root s →
      depth + n = maxValidationDepth + 1 → c.At steps →
      Tracks (run go root o n s v steps)
        (valid (go.visiting o) limits root (n + 1) s v depth c) := by
  intro n
  induction n with
  | zero =>
    intro depth s v c steps _ hdepth hc
    have hstop : limits (c.meet s).steps depth = true := by
      rw [limits, decide_eq_true (p := maxValidationDepth < depth) (by omega), Bool.or_true]
    rw [valid, if_pos hstop]
    exact ⟨_, rfl, hc.meet s⟩
  | succ n ih =>
    intro depth s v c steps hbelow hdepth hc
    have hs := h.checked hbelow
    have hmeet := hc.meet s
    have hdeep : decide (maxValidationDepth < depth) = false := decide_eq_false (by omega)
    rw [valid]
    by_cases hpast : maxValidationSteps < steps + 1
    · rw [if_pos (by rw [limits, decide_eq_true (hmeet.2 hpast), Bool.true_or])]
      exact tracks_past (Nat.lt_of_lt_of_le hpast (run_moves o (n + 1) s v steps)) (hmeet.2 hpast)
    · have hle : steps + 1 ≤ maxValidationSteps := by omega
      have hin : limits (c.meet s).steps depth = false := by
        rw [limits, hmeet.1 hle, decide_eq_false hpast, hdeep]
        rfl
      rw [hin, if_neg Bool.false_ne_true]
      cases href : s.string? "$ref" with
      | some r =>
        cases hat : schemaAt root r with
        | none =>
          simp only [run, goesOn, href, hat]
          exact tracks_answer hmeet hle
        | some target =>
          obtain ⟨_, ht, htarget⟩ := hs.target h href
          obtain rfl := Option.some.inj (hat.symm.trans ht)
          have hone : ∀ r : Bool × Nat, (if r.1 = true then r else (false, r.2)) = r := by
            rintro ⟨_ | _, _⟩ <;> rfl
          simp only [run, goesOn, href, hat, anyOf, hone]
          exact ih htarget (by omega) hmeet
      | none =>
        cases hany : s.array? "anyOf" with
        | some alts =>
          simp only [run, goesOn, href, hany]
          exact tryAlternatives_tracks (run_grows o n) (fun m hm c steps hc =>
            ih (hs.alternative hany hm) (by omega) hc) _ _ hmeet
        | none =>
          exact validKeywords_tracks h hs href hany (fun p x c steps hp hc =>
            ih hp (by omega) hc) hmeet hle

/-! ## The verdict -/

/-- What the check of an answer costs. -/
def answerSpan (go : Go) (root : Object) (v : Json) : Span :=
  span go root (maxValidationDepth + 1) root v

/-- A value that is accepted where only the depth is limited: its longest check
stays within the limit on the steps, or its shortest does not. -/
def Steady (go : Go) (root : Object) (v : Json) : Prop :=
  (answerSpan go root v).holds = true →
    (answerSpan go root v).most ≤ maxValidationSteps ∨
      maxValidationSteps < (answerSpan go root v).fewest

theorem check_tracks (h : Accepted go root) (o : Order) (v : Json) :
    Tracks (run go root o (maxValidationDepth + 1) root v 0)
      (check (go.visiting o) root root v) := by
  have hstart : Check.At {} 0 := ⟨fun _ => rfl, fun hlt => absurd hlt (Nat.not_lt_zero _)⟩
  unfold check
  generalize hd : maxValidationDepth = d
  have hdepth : 0 + (d + 1) = maxValidationDepth + 1 := by omega
  exact valid_tracks h o (.refl root) hdepth hstart

theorem validateSchema_run (h : Accepted go root) (o : Order) (v : Json) :
    validateSchema (go.visiting o) root root v =
      .ok ((answerSpan go root v).holds &&
        decide ((run go root o (maxValidationDepth + 1) root v 0).2 ≤ maxValidationSteps)) := by
  obtain ⟨c, hc, _⟩ := check_tracks h o v
  rw [validateSchema, hc, (run_spanned (maxValidationDepth + 1) root v).answers o 0]
  rfl

theorem order_free_iff (h : Accepted go root) (v : Json) :
    (∀ o o' : Order, validateSchema (go.visiting o) root root v =
      validateSchema (go.visiting o') root root v) ↔ Steady go root v := by
  have hspan : Spanned (fun o => run go root o (maxValidationDepth + 1) root v)
      (answerSpan go root v) := run_spanned _ _ _
  simp only [validateSchema_run h]
  constructor
  · intro hsame hyes
    by_contra hends
    obtain ⟨hmost, hfewest⟩ := not_or.mp hends
    obtain ⟨o, ho⟩ := hspan.reaches true 0
    obtain ⟨o', ho'⟩ := hspan.reaches false 0
    rw [Nat.zero_add, ← Span.most_eq] at ho
    rw [Nat.zero_add, ← Span.fewest_eq] at ho'
    have hboth := hsame o o'
    rw [ho, ho', hyes, Bool.true_and, Bool.true_and, decide_eq_false hmost,
      decide_eq_true (Nat.le_of_not_lt hfewest)] at hboth
    cases hboth
  · intro hsteady o o'
    cases hyes : (answerSpan go root v).holds with
    | false => rw [Bool.false_and, Bool.false_and]
    | true =>
      have hlo := hspan.fewest o 0
      have hhi := hspan.most o 0
      have hlo' := hspan.fewest o' 0
      have hhi' := hspan.most o' 0
      rw [Nat.zero_add] at hlo hhi hlo' hhi'
      obtain hall | hnone := hsteady hyes
      · rw [decide_eq_true (Nat.le_trans hhi hall), decide_eq_true (Nat.le_trans hhi' hall)]
      · rw [decide_eq_false (Nat.not_le_of_lt (Nat.lt_of_lt_of_le hnone hlo)),
          decide_eq_false (Nat.not_le_of_lt (Nat.lt_of_lt_of_le hnone hlo'))]

/-- An answer's verdict goes by the orders of the ranges exactly where it is
accepted, and some order's check of it stays within the limit on the steps and
another's does not. -/
theorem verdict_order_free {rf : Json} (h : prepare go n rf = .ok (.ok (some root))) (v : Json) :
    (∀ o o' : Order, validateSchema (go.visiting o) root root v =
      validateSchema (go.visiting o') root root v) ↔ Steady go root v :=
  order_free_iff (accepted_of_prepare h) v

/-! ### Two alternatives -/

def listRef : Object := [("$ref", .str "#/$defs/list")]

/-- An object with `x` and `y`. -/
def pairSchema (x y : Object) : Object :=
  [("type", .str "object"), ("properties", .obj [("x", .obj x), ("y", .obj y)]),
    ("required", .arr [.str "x", .str "y"]), ("additionalProperties", .bool false)]

def twice : Object := [("anyOf", .arr [.obj listRef, .obj listRef])]

/-- Lists of lists, each item tried twice. -/
def twiceSchema : Object := [("type", .str "array"), ("items", .obj twice)]

def numbered : Object := pairSchema [("type", .str "integer")] listRef

def named : Object :=
  pairSchema [("type", .str "string")] [("type", .str "array"), ("items", .obj [])]

/-- A number and lists of lists, or a string and a list. -/
def pairsSchema : Object :=
  [("type", .str "object"),
    ("properties", .obj [("p", .obj [("anyOf", .arr [.obj numbered, .obj named])])]),
    ("required", .arr [.str "p"]), ("additionalProperties", .bool false),
    ("$defs", .obj [("list", .obj twiceSchema)])]

def pairsFormat : Json :=
  .obj [("type", .str "json_schema"), ("json_schema", .obj [("schema", .obj pairsSchema)])]

def nested : Nat → Json
  | 0 => .bool true
  | d + 1 => .arr [nested d]

/-- A string, and a list nineteen deep. -/
def pair : Object := [("x", .str "a"), ("y", nested 19)]

def pairAnswer : Json := .obj [("p", .obj pair)]

def forwards : Order := fun _ => ⟨id, fun _ => .refl _⟩

def backwards : Order := fun _ => ⟨List.reverse, List.reverse_perm⟩

theorem pairsSchema_prepared : prepare plainGo 30 pairsFormat = .ok (.ok (some pairsSchema)) :=
  prepare_of_accepts (by decide +kernel)

theorem nested_steps (o : Order) (d : Nat) :
    ∀ n steps, 3 * d < n → run plainGo pairsSchema o n twiceSchema (nested d) steps =
      (false, steps + (5 * 2 ^ d - 4)) := by
  induction d with
  | zero =>
    intro n steps hn
    obtain ⟨m, rfl⟩ : ∃ m, n = m + 1 := ⟨n - 1, by omega⟩
    rfl
  | succ d ih =>
    intro n steps hn
    obtain ⟨m, rfl⟩ : ∃ m, n = m + 3 := ⟨n - 3, by omega⟩
    have hlist : ∀ x, goesOn plainGo pairsSchema twiceSchema (.arr [x]) = .items twice [x] :=
      fun _ => rfl
    have htwice : ∀ x, goesOn plainGo pairsSchema twice x = .alternatives [listRef, listRef] :=
      fun _ => rfl
    have href : ∀ x, goesOn plainGo pairsSchema listRef x = .alternatives [twiceSchema] :=
      fun _ => rfl
    have hpow : 1 ≤ 2 ^ d := Nat.one_le_two_pow
    simp only [nested, run, hlist, htwice, href, allOf, anyOf, ih m _ (by omega),
      Bool.false_eq_true, if_false, Prod.mk.injEq, true_and, pow_succ]
    omega

theorem numbered_steps (n steps : Nat) (hn : 57 < n) :
    run plainGo pairsSchema backwards (n + 2) numbered (.obj pair) steps =
      (false, steps + 2621438) := by
  have hlist : run plainGo pairsSchema backwards (n + 1) listRef (nested 19) (steps + 1) =
      (false, steps + 2621438) := by
    have href : goesOn plainGo pairsSchema listRef (nested 19) = .alternatives [twiceSchema] := rfl
    simp only [run, href, anyOf, nested_steps backwards 19 n _ hn, Bool.false_eq_true, if_false,
      Prod.mk.injEq, true_and]
    omega
  have hmembers : goesOn plainGo pairsSchema numbered (.obj pair) = .members pair := rfl
  have hy : memberCall (run plainGo pairsSchema backwards (n + 1)) numbered ("y", nested 19)
      (steps + 1) = run plainGo pairsSchema backwards (n + 1) listRef (nested 19) (steps + 1) := rfl
  rw [run, hmembers]
  show allOf _ [("y", nested 19), ("x", .str "a")] (steps + 1) = _
  rw [allOf, hy, hlist]
  rfl

theorem pair_past (n : Nat) (hn : 57 < n) : maxValidationSteps <
    (run plainGo pairsSchema backwards (n + 4) pairsSchema pairAnswer 0).2 := by
  have hmembers : goesOn plainGo pairsSchema pairsSchema pairAnswer =
      .members [("p", .obj pair)] := rfl
  have hp : memberCall (run plainGo pairsSchema backwards (n + 3)) pairsSchema ("p", .obj pair) 1 =
      run plainGo pairsSchema backwards (n + 3) [("anyOf", .arr [.obj numbered, .obj named])]
        (.obj pair) 1 := rfl
  have hanyOf : goesOn plainGo pairsSchema [("anyOf", .arr [.obj numbered, .obj named])]
      (.obj pair) = .alternatives [numbered, named] := rfl
  have hlong : 2621440 ≤ (run plainGo pairsSchema backwards (n + 3)
      [("anyOf", .arr [.obj numbered, .obj named])] (.obj pair) 1).2 := by
    rw [run, hanyOf]
    simp only [anyOf, numbered_steps n _ hn, Bool.false_eq_true, if_false]
    exact anyOf_grows (fun m k => run_grows backwards (n + 2) m (.obj pair) k) [named] 2621440
  have hone : ∀ r : Bool × Nat, (if r.1 = true then (true, r.2) else r) = r := by
    rintro ⟨_ | _, _⟩ <;> rfl
  rw [run, hmembers]
  show maxValidationSteps < (allOf _ [("p", Json.obj pair)] 1).2
  rw [allOf, hp, allOf, hone]
  exact Nat.lt_of_lt_of_le (by decide) hlong

/-- The string is looked at first, and the other alternative is tried; or the
list is, and takes the steps that the other needs. -/
theorem order_decides :
    prepare plainGo 30 pairsFormat = .ok (.ok (some pairsSchema)) ∧
      validateSchema (plainGo.visiting forwards) pairsSchema pairsSchema pairAnswer = .ok true ∧
      validateSchema (plainGo.visiting backwards) pairsSchema pairsSchema pairAnswer =
        .ok false := by
  refine ⟨pairsSchema_prepared, by decide, ?_⟩
  rw [validateSchema_run (accepted_of_prepare pairsSchema_prepared)]
  have hpast : maxValidationSteps <
      (run plainGo pairsSchema backwards (maxValidationDepth + 1) pairsSchema pairAnswer 0).2 :=
    pair_past 997 (by decide)
  rw [decide_eq_false (Nat.not_le_of_lt hpast), Bool.and_false]

/-- A string, and a list two deep. -/
def shallowAnswer : Json := .obj [("p", .obj [("x", .str "a"), ("y", nested 2)])]

theorem shallow_steady : Steady plainGo pairsSchema shallowAnswer := fun _ =>
  .inl (by decide)

theorem shallow_order_free :
    validateSchema (plainGo.visiting forwards) pairsSchema pairsSchema shallowAnswer =
      validateSchema (plainGo.visiting backwards) pairsSchema pairsSchema shallowAnswer :=
  (verdict_order_free pairsSchema_prepared shallowAnswer).mpr shallow_steady forwards backwards

end LocalBase.StructuredOutput
