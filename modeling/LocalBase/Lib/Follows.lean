import Mathlib.Tactic.Common

/-!
# A reader that follows another

Two readers go over one source. The first keeps more state than what is left of the
source, and may stop where the other does not. It follows the other if wherever it
comes to an end, the other does too, with the same left, and the two results stand
in a relation. There is a rule for each way of putting readers together.
-/

namespace Sim

variable {S T ε α β γ δ : Type}

/-- A reader that may stop with an error, and one that may stop. -/
abbrev Reads (S ε α : Type) : Type := StateT S (Except ε) α

abbrev Plainly (T α : Type) : Type := StateT T Option α

section

variable (view : S → T) {f : α → Reads S ε γ} {Q : γ → δ → Prop}

/-- Wherever the first reader ends, so does the second, and both have the same left. -/
def Follows (x : Reads S ε α) (y : Plainly T β) (R : α → β → Prop) : Prop :=
  ∀ s a s', x s = .ok (a, s') → ∃ b, y (view s) = some (b, view s') ∧ R a b

variable {view} {x : Reads S ε α} {y : Plainly T β} {R : α → β → Prop}

theorem follows_pure {a : α} {b : β} (h : R a b) :
    Follows view (pure a : Reads S ε α) (pure b) R := by
  intro s a' s' hs
  obtain ⟨rfl, rfl⟩ := Prod.mk.inj (Except.ok.inj hs)
  exact ⟨b, rfl, h⟩

theorem follows_throw {e : ε} : Follows view (throw e : Reads S ε α) y R := by
  intro s a s' hs
  cases hs

theorem reads_bind {s s' : S} {c : γ} :
    (x >>= f) s = .ok (c, s') ↔ ∃ a t, x s = .ok (a, t) ∧ f a t = .ok (c, s') := by
  show (x s >>= fun p => f p.1 p.2) = _ ↔ _
  cases x s with
  | error e => exact iff_of_false (by rintro ⟨⟩) (by rintro ⟨_, _, ⟨⟩, _⟩)
  | ok p => exact ⟨fun h => ⟨p.1, p.2, rfl, h⟩, by rintro ⟨a, t, ⟨⟩, h⟩; exact h⟩

theorem plainly_bind {g : β → Plainly T δ} {t t' : T} {d : δ} :
    (y >>= g) t = some (d, t') ↔ ∃ b u, y t = some (b, u) ∧ g b u = some (d, t') := by
  show (y t >>= fun p => g p.1 p.2) = _ ↔ _
  cases y t with
  | none => exact iff_of_false (by rintro ⟨⟩) (by rintro ⟨_, _, ⟨⟩, _⟩)
  | some p => exact ⟨fun h => ⟨p.1, p.2, rfl, h⟩, by rintro ⟨b, u, ⟨⟩, h⟩; exact h⟩

theorem Follows.bind {g : β → Plainly T δ} (h : Follows view x y R)
    (hf : ∀ a b, R a b → Follows view (f a) (g b) Q) :
    Follows view (x >>= f) (y >>= g) Q := by
  intro s c s' hs
  obtain ⟨a, t, hx, hc⟩ := reads_bind.1 hs
  obtain ⟨b, hb, hab⟩ := h s a t hx
  obtain ⟨d, hd, hcd⟩ := hf a b hab t c s' hc
  exact ⟨d, plainly_bind.2 ⟨b, _, hb, hd⟩, hcd⟩

theorem Follows.map {f : α → γ} {g : β → δ} (h : Follows view x y R)
    (hf : ∀ a b, R a b → Q (f a) (g b)) : Follows view (f <$> x) (g <$> y) Q :=
  h.bind fun a b hab => follows_pure (hf a b hab)

theorem Follows.result {f : α → γ} {Q : γ → β → Prop} (h : Follows view x y R)
    (hf : ∀ a b, R a b → Q (f a) b) : Follows view (x >>= fun a => pure (f a)) y Q := by
  intro s c s' hs
  obtain ⟨a, t, hx, hc⟩ := reads_bind.1 hs
  obtain ⟨rfl, rfl⟩ := Prod.mk.inj (Except.ok.inj hc)
  obtain ⟨b, hb, hab⟩ := h s a t hx
  exact ⟨b, hb, hf a b hab⟩

theorem Follows.before {y : Plainly T δ} {P : α → Prop}
    (h : ∀ s a s', x s = .ok (a, s') → view s' = view s ∧ P a)
    (hf : ∀ a, P a → Follows view (f a) y Q) : Follows view (x >>= f) y Q := by
  intro s c s' hs
  obtain ⟨a, t, hx, hc⟩ := reads_bind.1 hs
  obtain ⟨hview, ha⟩ := h s a t hx
  rw [← hview]
  exact hf a ha t c s' hc

end

/-! ## Loops -/

/-- The reader, so often. -/
def timesOf {m : Type → Type} [Monad m] (x : m α) : Nat → m (List α)
  | 0 => pure []
  | n + 1 => do
      let a ← x
      let as ← timesOf x n
      return a :: as

theorem follows_times {view : S → T} {x : Reads S ε α} {y : Plainly T β} {R : α → β → Prop}
    (h : Follows view x y R) (n : Nat) :
    Follows view (timesOf x n) (timesOf y n) fun as bs => List.Forall₂ R as bs ∧ bs.length = n := by
  induction n with
  | zero => exact follows_pure ⟨.nil, rfl⟩
  | succ n ih =>
    exact h.bind fun a b hab => ih.bind fun as bs has =>
      follows_pure ⟨.cons hab has.1, congrArg Nat.succ has.2⟩

/-- A loop that hands a value on. -/
def loopOf {m : Type → Type} [Monad m] (f : α → m α) : Nat → α → m α
  | 0, a => pure a
  | n + 1, a => f a >>= loopOf f n

/-- Its rounds follow the elements of a list, and the value is a fold over them. -/
theorem follows_loop {view : S → T} {f : α → Reads S ε α} {y : Plainly T β} {step : α → β → α}
    (h : ∀ a, Follows view (f a) y fun a' b => a' = step a b) (n : Nat) (a : α) :
    Follows view (loopOf f n a) (timesOf y n) fun a' bs => a' = bs.foldl step a := by
  induction n generalizing a with
  | zero => exact follows_pure rfl
  | succ n ih =>
    refine (h a).bind fun a' b hab => ?_
    subst hab
    intro s c s' hs
    obtain ⟨bs, hbs, rfl⟩ := ih (step a b) s c s' hs
    exact ⟨b :: bs, plainly_bind.2 ⟨bs, _, hbs, rfl⟩, rfl⟩

end Sim
