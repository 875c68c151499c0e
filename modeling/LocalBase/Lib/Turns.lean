import Mathlib.Algebra.Order.Ring.Nat
import Mathlib.Algebra.BigOperators.Group.List.Basic
import Mathlib.Data.List.Perm.Basic
import Mathlib.Tactic.Common

/-!
# Calls in turn, and what they may cost

A call answers yes or no and moves a count on. Calls in turn stop at the first
that decides. What a call answers is its own; how far it moves the count can
depend on choices, one for each value of the count, such as the order a
collection is visited in. A `Span` is the answer and the two ends of the cost.

The ends of calls in a given order are sums up to the one that decides. In any
order, the least is one no alone and the most is every yes before the dearest no.
-/

namespace Turns

variable {α Ω : Type}

/-- Until one says yes. -/
def anyOf (f : α → Nat → Bool × Nat) : List α → Nat → Bool × Nat
  | [], n => (false, n)
  | x :: xs, n => if (f x n).1 then f x n else anyOf f xs (f x n).2

/-- Until one says no. -/
def allOf (f : α → Nat → Bool × Nat) : List α → Nat → Bool × Nat
  | [], n => (true, n)
  | x :: xs, n => if (f x n).1 then allOf f xs (f x n).2 else f x n

/-- What a call answers, and the least and the most it costs. -/
structure Span where
  holds : Bool
  fewest : Nat
  most : Nat
deriving DecidableEq

namespace Span

/-- A call that costs nothing. -/
def free (b : Bool) : Span := ⟨b, 0, 0⟩

/-- A call that itself costs one more. -/
def succ (s : Span) : Span := ⟨s.holds, s.fewest + 1, s.most + 1⟩

/-- One of the two ends. -/
def cost (high : Bool) (s : Span) : Nat := if high then s.most else s.fewest

def add (s t : Span) : Span := ⟨t.holds, s.fewest + t.fewest, s.most + t.most⟩

def any : List Span → Span
  | [] => free false
  | s :: rest => if s.holds then s else s.add (any rest)

def all : List Span → Span
  | [] => free true
  | s :: rest => if s.holds then s.add (all rest) else s

/-- The calls that say yes, and those that say no. -/
def yes (xs : List Span) : List Span := xs.filter fun s => s.holds
def no (xs : List Span) : List Span := xs.filter fun s => !s.holds

/-- `all`, in whatever order. -/
def allInSomeOrder (xs : List Span) : Span :=
  match ((no xs).map fewest).min?, ((no xs).map most).max? with
  | some least, some dearest => ⟨false, least, ((yes xs).map most).sum + dearest⟩
  | _, _ => ⟨true, (xs.map fewest).sum, (xs.map most).sum⟩

@[simp] theorem cost_free (high b : Bool) : (free b).cost high = 0 := by cases high <;> rfl

@[simp] theorem cost_succ (high : Bool) (s : Span) : s.succ.cost high = s.cost high + 1 := by
  cases high <;> rfl

@[simp] theorem cost_add (high : Bool) (s t : Span) :
    (s.add t).cost high = s.cost high + t.cost high := by
  cases high <;> rfl

theorem fewest_eq (s : Span) : s.fewest = s.cost false := rfl

theorem most_eq (s : Span) : s.most = s.cost true := rfl

/-! ## In turn -/

variable {xs : List Span}

theorem all_yes (h : ∀ s ∈ xs, s.holds = true) :
    (all xs).holds = true ∧ ∀ high, (all xs).cost high = (xs.map (cost high)).sum := by
  induction xs with
  | nil => exact ⟨rfl, fun high => cost_free high true⟩
  | cons s rest ih =>
    obtain ⟨hholds, hcost⟩ := ih fun t ht => h t (List.mem_cons_of_mem _ ht)
    rw [all, if_pos (h s List.mem_cons_self)]
    refine ⟨hholds, fun high => ?_⟩
    rw [cost_add, hcost, List.map_cons, List.sum_cons]

variable {s : Span}

theorem all_no (ys : List Span) (h : ∀ t ∈ xs, t.holds = true) (hs : s.holds = false) :
    (all (xs ++ s :: ys)).holds = false ∧
      ∀ high, (all (xs ++ s :: ys)).cost high = (xs.map (cost high)).sum + s.cost high := by
  induction xs with
  | nil => simp [all, hs]
  | cons t rest ih =>
    obtain ⟨hholds, hcost⟩ := ih fun t ht => h t (List.mem_cons_of_mem _ ht)
    rw [List.cons_append, all, if_pos (h t List.mem_cons_self)]
    refine ⟨hholds, fun high => ?_⟩
    rw [cost_add, hcost, List.map_cons, List.sum_cons, Nat.add_assoc]

/-- Calls in turn all say yes, or one is the first that does not. -/
theorem yes_or_first_no (xs : List Span) :
    (∀ s ∈ xs, s.holds = true) ∨
      ∃ ys s zs, xs = ys ++ s :: zs ∧ (∀ t ∈ ys, t.holds = true) ∧ s.holds = false := by
  induction xs with
  | nil => exact .inl fun s hs => by cases hs
  | cons s rest ih =>
    cases hs : s.holds with
    | false => exact .inr ⟨[], s, rest, rfl, fun t ht => (by cases ht), hs⟩
    | true =>
      obtain hall | ⟨ys, t, zs, rfl, hys, ht⟩ := ih
      · refine .inl fun t ht => ?_
        obtain rfl | ht := List.mem_cons.mp ht
        · exact hs
        · exact hall t ht
      · refine .inr ⟨s :: ys, t, zs, rfl, fun u hu => ?_, ht⟩
        obtain rfl | hu := List.mem_cons.mp hu
        · exact hs
        · exact hys u hu

/-! ## In some order -/

theorem mem_no : s ∈ no xs ↔ s ∈ xs ∧ s.holds = false := by
  simp [no]

theorem allInSomeOrder_yes (h : ∀ s ∈ xs, s.holds = true) :
    (allInSomeOrder xs).holds = true ∧
      ∀ high, (allInSomeOrder xs).cost high = (xs.map (cost high)).sum := by
  have hno : no xs = [] := List.filter_eq_nil_iff.mpr fun s hs => by simp [h s hs]
  have heq : allInSomeOrder xs = ⟨true, (xs.map fewest).sum, (xs.map most).sum⟩ := by
    rw [allInSomeOrder, hno]
    rfl
  rw [heq]
  refine ⟨rfl, fun high => ?_⟩
  cases high <;> rfl

/-- Where one says no, the least is a no's, and the most is of every yes and
then a no. -/
theorem allInSomeOrder_no (hs : s ∈ no xs) :
    (allInSomeOrder xs).holds = false ∧
      (∃ t ∈ no xs, (allInSomeOrder xs).fewest = t.fewest ∧ ∀ u ∈ no xs, t.fewest ≤ u.fewest) ∧
      ∃ t ∈ no xs, (allInSomeOrder xs).most = ((yes xs).map most).sum + t.most ∧
        ∀ u ∈ no xs, u.most ≤ t.most := by
  obtain ⟨least, hleast⟩ := Option.isSome_iff_exists.mp
    (List.isSome_min?_of_mem (List.mem_map_of_mem (f := fewest) hs))
  obtain ⟨dearest, hdearest⟩ := Option.isSome_iff_exists.mp
    (List.isSome_max?_of_mem (List.mem_map_of_mem (f := most) hs))
  have heq : allInSomeOrder xs = ⟨false, least, ((yes xs).map most).sum + dearest⟩ := by
    rw [allInSomeOrder, hleast, hdearest]
  obtain ⟨hl, hle⟩ := List.min?_eq_some_iff.mp hleast
  obtain ⟨hd, hge⟩ := List.max?_eq_some_iff.mp hdearest
  obtain ⟨t, ht, rfl⟩ := List.mem_map.mp hl
  obtain ⟨t', ht', rfl⟩ := List.mem_map.mp hd
  rw [heq]
  exact ⟨rfl, ⟨t, ht, rfl, fun u hu => hle _ (List.mem_map_of_mem hu)⟩,
    t', ht', rfl, fun u hu => hge _ (List.mem_map_of_mem hu)⟩

theorem all_perm {ys : List Span} (h : ys.Perm xs) :
    (all ys).holds = (allInSomeOrder xs).holds ∧
      (allInSomeOrder xs).fewest ≤ (all ys).fewest ∧ (all ys).most ≤ (allInSomeOrder xs).most := by
  obtain hyes | ⟨zs, s, rest, rfl, hzs, hs⟩ := yes_or_first_no ys
  · obtain ⟨hholds, hcost⟩ := all_yes hyes
    obtain ⟨hholds', hcost'⟩ := allInSomeOrder_yes fun s hs => hyes s (h.mem_iff.mpr hs)
    have hsame : ∀ high, (all ys).cost high = (allInSomeOrder xs).cost high := fun high => by
      rw [hcost, hcost']
      exact (h.map _).sum_eq
    exact ⟨hholds.trans hholds'.symm, Nat.le_of_eq (hsame false).symm, Nat.le_of_eq (hsame true)⟩
  · obtain ⟨hholds, hcost⟩ := all_no rest hzs hs
    have hmem : s ∈ no xs :=
      mem_no.mpr ⟨h.mem_iff.mp (List.mem_append_right _ List.mem_cons_self), hs⟩
    obtain ⟨hholds', ⟨t, _, hfewest, hle⟩, t', _, hmost, hge⟩ := allInSomeOrder_no hmem
    refine ⟨hholds.trans hholds'.symm, ?_, ?_⟩
    · rw [hfewest, fewest_eq (all _), hcost]
      exact Nat.le_add_left_of_le (hle s hmem)
    · rw [hmost, most_eq (all _), hcost]
      have hfilter : (yes (zs ++ s :: rest)).Perm (yes xs) := h.filter _
      have hzs' : yes zs = zs := List.filter_eq_self.mpr hzs
      have hsum : (zs.map most).sum ≤ ((yes xs).map most).sum := by
        rw [← (hfilter.map most).sum_eq, yes, List.filter_append, List.map_append,
          List.sum_append]
        exact Nat.le_add_right_of_le (Nat.le_of_eq (congrArg (fun l => (l.map most).sum) hzs'.symm))
      exact Nat.add_le_add hsum (hge s hmem)

theorem exists_order (span : α → Span) (high : Bool) (xs : List α) :
    ∃ ys : List α, ys.Perm xs ∧
      (all (ys.map span)).cost high = (allInSomeOrder (xs.map span)).cost high := by
  obtain hyes | ⟨zs, s, rest, hsplit, _, hs⟩ := yes_or_first_no (xs.map span)
  · exact ⟨xs, .refl _, by rw [(all_yes hyes).2, (allInSomeOrder_yes hyes).2]⟩
  · have hmem : s ∈ no (xs.map span) :=
      mem_no.mpr ⟨hsplit ▸ List.mem_append_right _ List.mem_cons_self, hs⟩
    obtain ⟨_, ⟨t, ht, hfewest, _⟩, t', ht', hmost, _⟩ := allInSomeOrder_no hmem
    cases high with
    | false =>
      obtain ⟨htx, hno⟩ := mem_no.mp ht
      obtain ⟨x, hx, rfl⟩ := List.mem_map.mp htx
      obtain ⟨front, back, rfl⟩ := List.append_of_mem hx
      refine ⟨x :: (front ++ back), List.perm_middle.symm, ?_⟩
      rw [List.map_cons, all, if_neg (by simp [hno])]
      exact hfewest.symm
    | true =>
      obtain ⟨htx, hno⟩ := mem_no.mp ht'
      obtain ⟨x, hx, rfl⟩ := List.mem_map.mp htx
      have hxno : x ∈ xs.filter fun x => !(span x).holds :=
        List.mem_filter.mpr ⟨hx, by rw [hno]; rfl⟩
      obtain ⟨front, back, hfb⟩ := List.append_of_mem hxno
      refine ⟨(xs.filter fun x => (span x).holds) ++ x :: (front ++ back), ?_, ?_⟩
      · refine List.Perm.trans (List.Perm.append_left _ ?_)
          (List.filter_append_perm (fun x => (span x).holds) xs)
        rw [hfb]
        exact List.perm_middle.symm
      · have hyes : ∀ s ∈ (xs.filter fun x => (span x).holds).map span, s.holds = true := by
          intro s hs
          obtain ⟨y, hy, rfl⟩ := List.mem_map.mp hs
          exact (List.mem_filter.mp hy).2
        rw [List.map_append, List.map_cons, (all_no _ hyes hno).2]
        refine Eq.trans ?_ hmost.symm
        rw [yes, List.filter_map]
        rfl

end Span

/-! ## Calls and their spans -/

/-- A call, by the choices made at each count and the count it begins at. -/
abbrev Call (Ω : Type) : Type := (Nat → Ω) → Nat → Bool × Nat

/-- A call answers as its span says and costs something between the two ends,
goes by the choices at the counts it moves over, and reaches both ends. -/
structure Spanned (f : Call Ω) (s : Span) : Prop where
  answers : ∀ o n, (f o n).1 = s.holds
  fewest : ∀ o n, n + s.fewest ≤ (f o n).2
  most : ∀ o n, (f o n).2 ≤ n + s.most
  reads : ∀ o o' n, (∀ i, n < i → i ≤ (f o n).2 → o i = o' i) → f o' n = f o n
  reaches : ∀ high n, ∃ o, (f o n).2 = n + s.cost high

namespace Spanned

variable {f g : Call Ω} {s t : Span} {n : Nat}

theorem grows (h : Spanned f s) (o : Nat → Ω) (n : Nat) : n ≤ (f o n).2 :=
  Nat.le_of_add_right_le (h.fewest o n)

theorem free [Inhabited Ω] (b : Bool) : Spanned (fun (_ : Nat → Ω) n => (b, n)) (Span.free b) where
  answers _ _ := rfl
  fewest _ _ := Nat.le_refl _
  most _ _ := Nat.le_refl _
  reads _ _ _ _ := rfl
  reaches high n := ⟨fun _ => default, by rw [Span.cost_free]; rfl⟩

theorem succ (h : Spanned f s) : Spanned (fun o n => f o (n + 1)) s.succ where
  answers o n := h.answers o (n + 1)
  fewest o n := by
    have := h.fewest o (n + 1)
    show n + (s.fewest + 1) ≤ _
    omega
  most o n := by
    have := h.most o (n + 1)
    show _ ≤ n + (s.most + 1)
    omega
  reads o o' n hsame := h.reads o o' (n + 1) fun i hi => hsame i (by omega)
  reaches high n := by
    obtain ⟨o, ho⟩ := h.reaches high (n + 1)
    exact ⟨o, by rw [ho, Span.cost_succ]; omega⟩

theorem add (hf : Spanned f s) (hg : Spanned g t) :
    Spanned (fun o n => g o (f o n).2) (s.add t) where
  answers o n := hg.answers o _
  fewest o n := by
    have := hf.fewest o n
    have := hg.fewest o (f o n).2
    show n + (s.fewest + t.fewest) ≤ _
    omega
  most o n := by
    have := hf.most o n
    have := hg.most o (f o n).2
    show _ ≤ n + (s.most + t.most)
    omega
  reads o o' n hsame := by
    have hfirst : f o' n = f o n :=
      hf.reads o o' n fun i hi hle => hsame i hi (Nat.le_trans hle (hg.grows o _))
    show g o' (f o' n).2 = g o (f o n).2
    rw [hfirst]
    exact hg.reads o o' _ fun i hi hle => hsame i (Nat.lt_of_le_of_lt (hf.grows o n) hi) hle
  reaches high n := by
    obtain ⟨o₁, h₁⟩ := hf.reaches high n
    obtain ⟨o₂, h₂⟩ := hg.reaches high (f o₁ n).2
    -- The second call moves over counts that the first has left.
    refine ⟨fun i => if i ≤ (f o₁ n).2 then o₁ i else o₂ i, ?_⟩
    have hfirst := hf.reads o₁ (fun i => if i ≤ (f o₁ n).2 then o₁ i else o₂ i) n
      fun i _ hle => (if_pos hle).symm
    have hsecond := hg.reads o₂ (fun i => if i ≤ (f o₁ n).2 then o₁ i else o₂ i) (f o₁ n).2
      fun i hi _ => (if_neg (Nat.not_le_of_lt hi)).symm
    show (g _ (f _ n).2).2 = _
    rw [hfirst, hsecond, h₂, h₁, Span.cost_add, Nat.add_assoc]

theorem congr (h : Spanned f s) (hfg : ∀ o n, g o n = f o n) : Spanned g s := by
  have : g = f := funext fun o => funext fun n => hfg o n
  exact this ▸ h

variable [Inhabited Ω] {calls : α → Call Ω} {span : α → Span}

theorem anyOf {xs : List α} (h : ∀ x ∈ xs, Spanned (calls x) (span x)) :
    Spanned (fun o n => Turns.anyOf (fun x => calls x o) xs n) (Span.any (xs.map span)) := by
  induction xs with
  | nil => exact free false
  | cons x xs ih =>
    have hx := h x List.mem_cons_self
    have hrest := ih fun y hy => h y (List.mem_cons_of_mem _ hy)
    rw [List.map_cons, Span.any]
    split
    · next hyes =>
      refine hx.congr fun o n => ?_
      rw [Turns.anyOf, if_pos ((hx.answers o n).trans hyes)]
    · next hno =>
      refine (hx.add hrest).congr fun o n => ?_
      rw [Turns.anyOf, if_neg (by rw [hx.answers o n]; exact hno)]

theorem allOf {xs : List α} (h : ∀ x ∈ xs, Spanned (calls x) (span x)) :
    Spanned (fun o n => Turns.allOf (fun x => calls x o) xs n) (Span.all (xs.map span)) := by
  induction xs with
  | nil => exact free true
  | cons x xs ih =>
    have hx := h x List.mem_cons_self
    have hrest := ih fun y hy => h y (List.mem_cons_of_mem _ hy)
    rw [List.map_cons, Span.all]
    split
    · next hyes =>
      refine (hx.add hrest).congr fun o n => ?_
      rw [Turns.allOf, if_pos ((hx.answers o n).trans hyes)]
    · next hno =>
      refine hx.congr fun o n => ?_
      rw [Turns.allOf, if_neg (by rw [hx.answers o n]; exact hno)]

/-- The order is chosen at the count that the calls begin at. -/
theorem allInSomeOrder {xs : List α} {visit : Ω → List α}
    (h : ∀ x ∈ xs, Spanned (calls x) (span x)) (hvisit : ∀ w, (visit w).Perm xs)
    (hany : ∀ ys, ys.Perm xs → ∃ w, visit w = ys) :
    Spanned (fun o n => Turns.allOf (fun x => calls x o) (visit (o (n + 1))) (n + 1))
      (Span.allInSomeOrder (xs.map span)).succ := by
  have hall : ∀ ys : List α, ys.Perm xs →
      Spanned (fun o n => Turns.allOf (fun x => calls x o) ys n) (Span.all (ys.map span)) :=
    fun ys hys => allOf fun x hx => h x (hys.mem_iff.mp hx)
  have hends : ∀ w, (Span.all ((visit w).map span)).holds = _ ∧ _ := fun w =>
    Span.all_perm ((hvisit w).map span)
  refine ⟨fun o n => ?_, fun o n => ?_, fun o n => ?_, fun o o' n hsame => ?_, fun high n => ?_⟩
  · exact ((hall _ (hvisit _)).answers o _).trans (hends _).1
  · have h₁ := (hall _ (hvisit (o (n + 1)))).fewest o (n + 1)
    have h₂ := (hends (o (n + 1))).2.1
    show n + ((Span.allInSomeOrder (xs.map span)).fewest + 1) ≤ _
    omega
  · have h₁ := (hall _ (hvisit (o (n + 1)))).most o (n + 1)
    have h₂ := (hends (o (n + 1))).2.2
    show _ ≤ n + ((Span.allInSomeOrder (xs.map span)).most + 1)
    omega
  · have hcalls := hall _ (hvisit (o (n + 1)))
    have hhere : o (n + 1) = o' (n + 1) := hsame _ (Nat.lt_succ_self n) (hcalls.grows o _)
    show Turns.allOf _ (visit (o' (n + 1))) (n + 1) = _
    rw [← hhere]
    exact hcalls.reads o o' (n + 1) fun i hi => hsame i (by omega)
  · obtain ⟨ys, hys, hcost⟩ := Span.exists_order span high xs
    obtain ⟨w, rfl⟩ := hany ys hys
    obtain ⟨o, ho⟩ := (hall _ hys).reaches high (n + 1)
    refine ⟨Function.update o (n + 1) w, ?_⟩
    have hsame := (hall _ hys).reads o (Function.update o (n + 1) w) (n + 1)
      fun i hi _ => (Function.update_of_ne (Nat.ne_of_gt hi) _ _).symm
    show (Turns.allOf _ (visit (Function.update o (n + 1) w (n + 1))) (n + 1)).2 = _
    rw [Function.update_self, hsame, ho, hcost, Span.cost_succ]
    omega

end Spanned

end Turns
