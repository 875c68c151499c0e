import Mathlib.Logic.Function.Iterate
import Mathlib.Order.Basic
import Mathlib.Tactic.Common

/-!
# Machines: runs, reachable states, invariants

A machine is a set of starting states and a step function that takes an
event and either answers the next state or refuses. Every interleaving the
development talks about is a run of such a machine: the events name which
party moves and what the outside world decided, the step function is the
code, and a refused event is one that cannot happen there.

Two kinds of reachability are kept apart. `Reachable` is any run. A run
under a guard, `ReachesUnder`, is one whose every step met a condition read
off the state before it; the results about code that is right except in a
window are stated over those, and `Reachable` is the guard that is always
met.

The induction is packaged once, in `ReachesUnder.invariant`, and again in
the form most proofs ask for, where a second invariant is already known.
-/

namespace Machine

/-- A transition system with named events. -/
structure System (σ ε : Type*) where
  init : σ → Prop
  step : σ → ε → Option σ

variable {σ ε : Type*} {M : System σ ε} {G : σ → ε → Prop} {es : List ε} {I : σ → Prop} {e : ε}

/-- Play a list of events; `none` as soon as one is refused. -/
def System.run (M : System σ ε) : σ → List ε → Option σ
  | s, [] => some s
  | s, e :: es =>
    match M.step s e with
    | none => none
    | some t => M.run t es

/-- The states a run can end in when every step of it met the guard. -/
inductive ReachesUnder (M : System σ ε) (G : σ → ε → Prop) : σ → Prop
  | init {s : σ} : M.init s → ReachesUnder M G s
  | step {s t : σ} {e : ε} :
      ReachesUnder M G s → G s e → M.step s e = some t → ReachesUnder M G t

/-- The states any run can end in. -/
def Reachable (M : System σ ε) (s : σ) : Prop :=
  ReachesUnder M (fun _ _ => True) s

theorem Reachable.init {s : σ} (h : M.init s) : Reachable M s :=
  ReachesUnder.init h

theorem Reachable.step {s t : σ} (h : Reachable M s) (he : M.step s e = some t) : Reachable M t :=
  ReachesUnder.step h trivial he

theorem ReachesUnder.reachable {s : σ} (h : ReachesUnder M G s) : Reachable M s := by
  induction h with
  | init h0 => exact Reachable.init h0
  | step _ _ he ih => exact ih.step he

/-- What holds at the start and survives every guarded step holds wherever
a guarded run ends. -/
theorem ReachesUnder.invariant (h0 : ∀ s, M.init s → I s)
    (hstep : ∀ s e t, I s → G s e → M.step s e = some t → I t) {s : σ}
    (h : ReachesUnder M G s) : I s := by
  induction h with
  | init hi => exact h0 _ hi
  | step _ hg he ih => exact hstep _ _ _ ih hg he

theorem Reachable.invariant (h0 : ∀ s, M.init s → I s)
    (hstep : ∀ s e t, I s → M.step s e = some t → I t) {s : σ} (h : Reachable M s) : I s :=
  ReachesUnder.invariant h0 (fun s e t hI _ he => hstep s e t hI he) h

/-- The same rule on top of an invariant that is already known: the step
may use it before and after. -/
theorem ReachesUnder.invariant_with {J : σ → Prop} (hJ : ∀ s, ReachesUnder M G s → J s)
    (h0 : ∀ s, M.init s → I s)
    (hstep : ∀ s e t, J s → J t → I s → G s e → M.step s e = some t → I t) {s : σ}
    (h : ReachesUnder M G s) : I s := by
  induction h with
  | init hi => exact h0 _ hi
  | step hs hg he ih =>
    exact hstep _ _ _ (hJ _ hs) (hJ _ (hs.step hg he)) ih hg he

theorem Reachable.invariant_with {J : σ → Prop} (hJ : ∀ s, Reachable M s → J s)
    (h0 : ∀ s, M.init s → I s) (hstep : ∀ s e t, J s → J t → I s → M.step s e = some t → I t)
    {s : σ} (h : Reachable M s) : I s :=
  ReachesUnder.invariant_with hJ h0
    (fun s e t hJs hJt hI _ he => hstep s e t hJs hJt hI he) h

/-- A guard may be traded for another that follows from it in the states its
own runs reach. -/
theorem ReachesUnder.mono {G' : σ → ε → Prop} (hG : ∀ s e, ReachesUnder M G s → G s e → G' s e)
    {s : σ} (h : ReachesUnder M G s) : ReachesUnder M G' s := by
  induction h with
  | init h0 => exact ReachesUnder.init h0
  | step hs hg he ih => exact ih.step (hG _ _ hs hg) he

theorem run_cons {s : σ} {t : σ} (h : M.run s (e :: es) = some t) :
    ∃ u, M.step s e = some u ∧ M.run u es = some t := by
  simp only [System.run] at h
  split at h
  · cases h
  · next u hu => exact ⟨u, hu, h⟩

/-- Playing events from a reachable state stays within the reachable ones. -/
theorem Reachable.run {s t : σ} (h : Reachable M s)
    (hr : M.run s es = some t) : Reachable M t := by
  induction es generalizing s with
  | nil =>
    rw [System.run] at hr
    cases hr
    exact h
  | cons e es ih =>
    obtain ⟨u, hu, hrest⟩ := run_cons hr
    exact ih (h.step hu) hrest

/-! ## Replaying a trace

A concrete run is exhibited by its events: the state it ends in is computed,
and that it got there is one decidable check. -/

/-- Where a list of events leads, when none of them is refused. -/
def System.after (M : System σ ε) (s : σ) (es : List ε) : σ :=
  (M.run s es).getD s

theorem run_after {s : σ} (h : (M.run s es).isSome = true) :
    M.run s es = some (M.after s es) := by
  obtain ⟨t, ht⟩ := Option.isSome_iff_exists.mp h
  rw [System.after, ht, Option.getD_some]

theorem reachable_after {s : σ} (h0 : M.init s)
    (h : (M.run s es).isSome = true) : Reachable M (M.after s es) :=
  (Reachable.init h0).run (run_after h)

theorem run_append {s t : σ} {fs : List ε} (h : M.run s es = some t) :
    M.run s (es ++ fs) = M.run t fs := by
  induction es generalizing s with
  | nil =>
    rw [System.run] at h
    cases h
    rfl
  | cons e es ih =>
    obtain ⟨u, hu, hrest⟩ := run_cons h
    rw [List.cons_append, System.run, hu]
    exact ih hrest

/-- One more event of the trace is a step from where the rest of it led. -/
theorem step_after {s : σ} (es : List ε) (h : (M.run s (es ++ [e])).isSome = true)
    (h' : (M.run s es).isSome = true) :
    M.step (M.after s es) e = some (M.after s (es ++ [e])) := by
  have hrun := run_after h
  rw [run_append (run_after h')] at hrun
  obtain ⟨u, hu, hnil⟩ := run_cons hrun
  rw [System.run] at hnil
  rw [hu, hnil]

/-- Every event of the list meets the guard where it is played. -/
def System.Obeys (M : System σ ε) (G : σ → ε → Prop) : σ → List ε → Prop
  | _, [] => True
  | s, e :: es => G s e ∧ ∀ t, M.step s e = some t → M.Obeys G t es

/-- A guard that can be evaluated is evaluated along the list. -/
instance decidableObeys (G : σ → ε → Prop) [hG : ∀ s e, Decidable (G s e)] :
    ∀ (s : σ) (es : List ε), Decidable (M.Obeys G s es)
  | _, [] => isTrue trivial
  | s, e :: es =>
    match he : M.step s e with
    | none => decidable_of_iff (G s e) (by simp [System.Obeys, he])
    | some t =>
      have := decidableObeys G t es
      decidable_of_iff (G s e ∧ M.Obeys G t es) (by simp [System.Obeys, he])

theorem ReachesUnder.run {s t : σ} (h : ReachesUnder M G s) (ho : M.Obeys G s es)
    (hr : M.run s es = some t) :
    ReachesUnder M G t := by
  induction es generalizing s with
  | nil =>
    rw [System.run] at hr
    cases hr
    exact h
  | cons e es ih =>
    obtain ⟨u, hu, hrest⟩ := run_cons hr
    exact ih (h.step ho.1 hu) (ho.2 u hu) hrest

/-- A guard that every event of a list meets in any state is met along it. -/
theorem obeys_of_forall (h : ∀ e ∈ es, ∀ s, G s e) (s : σ) : M.Obeys G s es := by
  induction es generalizing s with
  | nil => trivial
  | cons e es ih =>
    rw [List.forall_mem_cons] at h
    exact ⟨h.1 s, fun t _ => ih h.2 t⟩

/-- Where a guard is for one event alone, a list without it meets the guard. -/
theorem obeys_of_not_mem {x : ε} {Q : σ → Prop} (h : x ∉ es) (s : σ) :
    M.Obeys (fun s e => e = x → Q s) s es := by
  induction es generalizing s with
  | nil => trivial
  | cons e es ih =>
    rw [List.mem_cons, not_or] at h
    obtain ⟨hne, hrest⟩ := h
    exact ⟨fun he => absurd he.symm hne, fun t _ => ih hrest t⟩

theorem obeys_once {x : ε} {Q : σ → Prop} {s : σ} (es : List ε) {fs : List ε} (hes : x ∉ es)
    (hfs : x ∉ fs) (h : Q (M.after s es)) :
    M.Obeys (fun s e => e = x → Q s) s (es ++ x :: fs) := by
  have hthen : ∀ t, M.run s es = some t → Q t := fun t ht => by
    rwa [System.after, ht, Option.getD_some] at h
  clear h
  induction es generalizing s with
  | nil => exact ⟨fun _ => hthen s rfl, fun t _ => obeys_of_not_mem hfs t⟩
  | cons e es ih =>
    rw [List.mem_cons, not_or] at hes
    obtain ⟨hne, hrest⟩ := hes
    refine ⟨fun he => absurd he.symm hne, fun t ht => ih hrest fun u hu => hthen u ?_⟩
    rw [System.run, ht]
    exact hu

theorem reaches_under_after {s : σ} (h0 : M.init s) (ho : M.Obeys G s es)
    (h : (M.run s es).isSome = true) :
    ReachesUnder M G (M.after s es) :=
  (ReachesUnder.init h0).run ho (run_after h)

end Machine

/-!
## Procedures that are cut off and started again

A procedure works on a state that outlives it, one atomic step at a time, and
what it knows of its own progress does not: cut off at any point, it starts
from the beginning on whatever it left. Such a procedure is safe when the
state is safe wherever it is cut, and it gets to its end when a rank of its
progress falls with every step.
-/

namespace Restart

/-- A procedure on `σ` whose progress is in `π`. -/
structure Procedure (σ π : Type*) where
  start : π
  step : σ → π → σ × π

variable {σ π : Type*}

/-- Where the procedure stands after a number of steps from `s`. -/
def Procedure.run (P : Procedure σ π) : Nat → σ × π → σ × π
  | 0, c => c
  | n + 1, c => P.run n (P.step c.1 c.2)

/-- The state it leaves when it is cut off after `n` steps. -/
def Procedure.cut (P : Procedure σ π) (n : Nat) (s : σ) : σ := (P.run n (s, P.start)).1

/-- What any number of runs leave, each cut off anywhere. -/
inductive Procedure.Cuts (P : Procedure σ π) (s : σ) : σ → Prop
  | none : Cuts P s s
  | again {t : σ} (n : Nat) : Cuts P s t → Cuts P s (P.cut n t)

/-- A safe state, and what the procedure knows where. -/
structure Procedure.Safe (P : Procedure σ π) (S : σ → Prop) (I : σ → π → Prop) : Prop where
  start : ∀ s, S s → I s P.start
  step : ∀ s p, I s p → I (P.step s p).1 (P.step s p).2
  safe : ∀ s p, I s p → S s

variable {P : Procedure σ π} {S : σ → Prop} {I : σ → π → Prop}

theorem Procedure.run_invariant (hstep : ∀ s p, I s p → I (P.step s p).1 (P.step s p).2) {n : Nat}
    {c : σ × π} (hc : I c.1 c.2) : I (P.run n c).1 (P.run n c).2 := by
  induction n generalizing c with
  | zero => exact hc
  | succ n ih => exact ih (hstep c.1 c.2 hc)

theorem Procedure.Safe.cut (h : P.Safe S I) {n : Nat} {s : σ} (hs : S s) : S (P.cut n s) :=
  h.safe _ _ (Procedure.run_invariant h.step (h.start s hs))

theorem Procedure.Safe.cuts (h : P.Safe S I) {s t : σ} (hs : S s) (ht : P.Cuts s t) : S t := by
  induction ht with
  | none => exact hs
  | again n _ ih => exact h.cut ih

/-- With a rank that falls until there, it gets to where it is over. -/
theorem Procedure.Safe.ends (h : P.Safe S I) (final : π → Prop) (rank : π → Nat)
    (hrank : ∀ s p, I s p → ¬ final p → rank (P.step s p).2 < rank p) {c : σ × π}
    (hc : I c.1 c.2) : ∃ n, final (P.run n c).2 := by
  by_cases hover : final c.2
  · exact ⟨0, hover⟩
  · have hless := hrank c.1 c.2 hc hover
    obtain ⟨n, hn⟩ := Procedure.Safe.ends h final rank hrank (h.step c.1 c.2 hc)
    exact ⟨n + 1, hn⟩
termination_by rank c.2

end Restart
