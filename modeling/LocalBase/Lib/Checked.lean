import Mathlib.Tactic.Common

/-!
# Code that may crash

A call ends with a value, gives up with none, or crashes: by an index outside a
slice, or by a division by zero. `Ends` says that it does not crash, and what its
value is like if it has one. There is a rule for each way of putting calls together
and one for each operation that may crash, so that what has to be shown is that
every index is in range and no divisor is zero.
-/

inductive Checked (α : Type) where
  | done (a : α)
  | nil
  | crash
deriving DecidableEq

namespace Checked

variable {α β σ : Type}

def bind (x : Checked α) (f : α → Checked β) : Checked β :=
  match x with
  | done a => f a
  | nil => nil
  | crash => crash

instance : Monad Checked where
  pure := done
  bind := Checked.bind

/-- The element at an index. -/
def index (xs : List α) (i : Int) : Checked α :=
  if 0 ≤ i then (xs[i.toNat]?).elim crash done else crash

/-- The slice with another element at an index. -/
def store (xs : List α) (i : Int) (a : α) : Checked (List α) :=
  if 0 ≤ i ∧ i.toNat < xs.length then done (xs.set i.toNat a) else crash

/-- The quotient, towards zero. -/
def quot (a b : Int) : Checked Int := if b = 0 then crash else done (a.tdiv b)

/-- The remainder, with the sign of `a`. -/
def rem (a b : Int) : Checked Int := if b = 0 then crash else done (a.tmod b)

/-- Gives up unless the condition holds. -/
def require (p : Prop) [Decidable p] : Checked Unit := if p then done () else nil

/-- The loop over 0 to `n - 1`. -/
def upTo : Nat → (Int → σ → Checked σ) → σ → Checked σ
  | 0, _, s => done s
  | n + 1, f, s => (upTo n f s).bind (f n)

/-- The call does not crash, and a value that it ends with is as said. -/
def Ends (x : Checked α) (P : α → Prop) : Prop :=
  match x with
  | done a => P a
  | nil => True
  | crash => False

variable {P : α → Prop} {Q : β → Prop}

theorem ends_pure {a : α} (h : P a) : Ends (pure a) P := h

theorem ends_nil : Ends (nil : Checked α) P := trivial

theorem Ends.bind {x : Checked α} {f : α → Checked β} (h : x.Ends P)
    (hf : ∀ a, P a → (f a).Ends Q) : (x >>= f).Ends Q := by
  cases x with
  | done a => exact hf a h
  | nil => trivial
  | crash => exact h

theorem Ends.mono {x : Checked α} {P' : α → Prop} (h : x.Ends P) (hP : ∀ a, P a → P' a) :
    x.Ends P' := by
  cases x with
  | done a => exact hP a h
  | nil => trivial
  | crash => exact h

theorem ends_require {p : Prop} [Decidable p] : (require p).Ends fun _ => p := by
  unfold require
  split
  · assumption
  · trivial

theorem ends_index {xs : List α} {i : Int} (hi : 0 ≤ i) (hlt : i < xs.length) :
    (index xs i).Ends (· ∈ xs) := by
  have hin : i.toNat < xs.length := by omega
  unfold index
  rw [if_pos hi, List.getElem?_eq_getElem hin]
  exact List.getElem_mem _

theorem ends_store {xs : List α} {i : Int} {a : α} (hi : 0 ≤ i) (hlt : i < xs.length) :
    (store xs i a).Ends fun ys => ys = xs.set i.toNat a := by
  unfold store
  rw [if_pos ⟨hi, by omega⟩]
  exact rfl

theorem ends_quot {a b : Int} (hb : b ≠ 0) : (quot a b).Ends fun q => q = a.tdiv b := by
  unfold quot
  rw [if_neg hb]
  exact rfl

theorem ends_rem {a b : Int} (hb : b ≠ 0) : (rem a b).Ends fun r => r = a.tmod b := by
  unfold rem
  rw [if_neg hb]
  exact rfl

/-- What holds before the loop and is kept by each round holds after it. -/
theorem ends_upTo {I : Nat → σ → Prop} {f : Int → σ → Checked σ} {s : σ} {n : Nat} (h : I 0 s)
    (hstep : ∀ l s, l < n → I l s → (f l s).Ends (I (l + 1))) : (upTo n f s).Ends (I n) := by
  induction n with
  | zero => exact h
  | succ n ih =>
    exact (ih fun l s hl => hstep l s (by omega)).bind fun s hs => hstep n s (by omega) hs

end Checked

/-!
## Calls that may crash, with errors of any kind

A call ends with a value or with an error, and one of the errors is the crash: an index
outside a slice, a division by zero. `Ends` says that it does not crash, and what its value
is like if it has one. It is carried through the call by the rules below, so that what has
to be shown is that every read is inside.
-/

namespace Crash

variable {ε α β : Type} {crash : ε} {r : Except ε α} {P P' : α → Prop} {Q : β → Prop}

def Ends (crash : ε) (r : Except ε α) (P : α → Prop) : Prop :=
  match r with
  | .ok a => P a
  | .error e => e ≠ crash

theorem ends_ok {a : α} (h : P a) : Ends crash (.ok a) P := h

theorem ends_error {e : ε} (h : e ≠ crash) : Ends crash (.error e) P := h

theorem ends_ite {c : Prop} [Decidable c] {x y : Except ε α} (h : c → Ends crash x P)
    (h' : ¬c → Ends crash y P) : Ends crash (if c then x else y) P := by
  split
  · next hc => exact h hc
  · next hc => exact h' hc

theorem Ends.bind {f : α → Except ε β} (h : Ends crash r P)
    (hf : ∀ a, P a → Ends crash (f a) Q) : Ends crash (r >>= f) Q := by
  cases r with
  | ok a => exact hf a h
  | error e => exact h

theorem Ends.mono (h : Ends crash r P) (hP : ∀ a, P a → P' a) : Ends crash r P' := by
  cases r with
  | ok a => exact hP a h
  | error e => exact h

theorem Ends.no_crash (h : Ends crash r P) : r ≠ .error crash := by
  rintro rfl
  exact h rfl

end Crash
