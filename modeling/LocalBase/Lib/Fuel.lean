import Mathlib.Tactic.Common

/-!
# Runs on fuel

A run that may go on for ever is a family of results, one for each amount of
fuel. It settles on a result when it answers it from some amount on. Runs are
put together under a common fuel, and what they settle on is put together with
them: the rules below are all a termination proof needs, and none of them asks
how much fuel there was.
-/

namespace Fuel

universe u v

variable {ε : Type u} {α β : Type v} {run : Nat → Except ε α} {x : Except ε α}

/-- From some amount of fuel on, the run answers `a`. -/
def Settles (run : Nat → Except ε α) (a : α) : Prop :=
  ∃ n, ∀ m, n ≤ m → run m = .ok a

theorem settles_of_eq {a : α} (h : ∀ n, run n = .ok a) :
    Settles run a :=
  ⟨0, fun m _ => h m⟩

theorem Settles.succ {a : α} (h : Settles (fun n => run (n + 1)) a) : Settles run a := by
  obtain ⟨n, hn⟩ := h
  refine ⟨n + 1, fun m hm => ?_⟩
  obtain ⟨k, rfl⟩ : ∃ k, m = k + 1 := ⟨m - 1, by omega⟩
  exact hn k (by omega)

theorem Settles.bind {next : Nat → α → Except ε β} {a : α} {b : β} (h : Settles run a)
    (h' : Settles (fun n => next n a) b) :
    Settles (fun n => run n >>= next n) b := by
  obtain ⟨n, hn⟩ := h
  obtain ⟨n', hn'⟩ := h'
  refine ⟨max n n', fun m hm => ?_⟩
  have hm' := hn' m (by omega)
  simpa [hn m (by omega), Bind.bind, Except.bind] using hm'

theorem bind_eq_ok {f : α → Except ε β} {b : β} :
    x >>= f = .ok b ↔ ∃ a, x = .ok a ∧ f a = .ok b := by
  cases x with
  | error e => simp [Bind.bind, Except.bind]
  | ok a => simp [Bind.bind, Except.bind]

theorem bind_eq_error {f : α → Except ε β} {e : ε} :
    x >>= f = .error e ↔ x = .error e ∨ ∃ a, x = .ok a ∧ f a = .error e := by
  cases x with
  | error e' => simp [Bind.bind, Except.bind]
  | ok a => simp [Bind.bind, Except.bind]

theorem ok_of_toOption {a : α} (h : x.toOption = some a) : x = .ok a := by
  cases x with
  | error e => simp [Except.toOption] at h
  | ok b => exact congrArg Except.ok (Option.some.inj h)

end Fuel

/-!
## Readers on fuel

A reader takes something off the front of what is left and answers what is left
then. Its loops have fuel, and enough of it when each round takes something off.
`Takes` says so of one answer: it is not that the fuel ran out, and at least so
much is gone. It is carried through a reader step by step.
-/

namespace Readers

variable {α β σ ε : Type} {size : σ → Nat} {out : ε} {k l : Nat} {s s' : σ} {r : Except ε (α × σ)}

/-- The answer of a reader that started from `s`. -/
def Takes (size : σ → Nat) (out : ε) (k : Nat) (s : σ) (r : Except ε (α × σ)) : Prop :=
  r ≠ .error out ∧ ∀ a s', r = .ok (a, s') → size s' + k ≤ size s

theorem takes_ok {a : α} (h : size s' + k ≤ size s) : Takes size out k s (.ok (a, s')) := by
  refine ⟨nofun, fun a' t ht => ?_⟩
  cases ht
  exact h

theorem takes_error {e : ε} (h : e ≠ out) :
    Takes size out k s (.error e : Except ε (α × σ)) :=
  ⟨fun he => h (Except.error.inj he), nofun⟩

theorem Takes.of (h : Takes size out k s' r)
    (hs : size s' + l ≤ size s + k) : Takes size out l s r := by
  refine ⟨h.1, fun a t ht => ?_⟩
  have := h.2 a t ht
  omega

theorem takes_ite {p : Prop} [Decidable p] {r' : Except ε (α × σ)} (h : p → Takes size out k s r)
    (h' : ¬ p → Takes size out k s r') :
    Takes size out k s (if p then r else r') := by
  split
  · next hp => exact h hp
  · next hp => exact h' hp

theorem Takes.bind {f : α × σ → Except ε (β × σ)} (h : Takes size out k s r)
    (hf : ∀ a s', size s' + k ≤ size s → Takes size out l s' (f (a, s'))) :
    Takes size out (k + l) s (r >>= f) := by
  constructor
  · intro herr
    rcases Fuel.bind_eq_error.mp herr with herr | ⟨⟨a, t⟩, hok, herr⟩
    · exact h.1 herr
    · exact (hf a t (h.2 a t hok)).1 herr
  · intro b t hok
    obtain ⟨⟨a, u⟩, hr, hok⟩ := Fuel.bind_eq_ok.mp hok
    have hu := h.2 a u hr
    have ht := (hf a u hu).2 b t hok
    omega

end Readers
