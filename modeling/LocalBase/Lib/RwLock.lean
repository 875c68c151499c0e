import Mathlib.Logic.Function.Basic
import Mathlib.Data.List.Basic

/-!
# A lock for one writer or many readers

Parties with a state each share a lock that one of them has to itself, or any
number of them share. `ex` and `sh` say in which states a party has it which way.
`Locked` ties the states to the lock's own record, and the lemmas say that taking
it and giving it back keep this.
-/

namespace RwLock

variable {ι σ : Type*} [DecidableEq ι]

/-- Whoever has the lock is on its record, and a writer excludes the readers. -/
structure Locked (ex sh : σ → Bool) (writer : Option ι) (readers : List ι) (call : ι → σ) :
    Prop where
  exclusive : ∀ i, ex (call i) = true → writer = some i
  shared : ∀ i, sh (call i) = true → i ∈ readers
  alone : writer ≠ none → readers = []

variable {ex sh : σ → Bool} {writer : Option ι} {readers : List ι} {call : ι → σ} {i j : ι}
  {x : σ}

omit [DecidableEq ι] in
theorem Locked.not_shared (h : Locked ex sh writer readers call) (hi : ex (call i) = true) :
    sh (call j) = false := by
  cases hj : sh (call j) with
  | false => rfl
  | true =>
    have hr := h.shared j hj
    rw [h.alone (by rw [h.exclusive i hi]; simp)] at hr
    exact absurd hr (by simp)

omit [DecidableEq ι] in
theorem Locked.no_writer (h : Locked ex sh writer readers call) (hi : sh (call i) = true) :
    writer = none := by
  by_contra hw
  have hr := h.shared i hi
  rw [h.alone hw] at hr
  exact absurd hr (by simp)

/-- A move that neither takes the lock nor gives it back. -/
theorem Locked.quiet (h : Locked ex sh writer readers call) (hex : ex x = ex (call i))
    (hsh : sh x = sh (call i)) : Locked ex sh writer readers (Function.update call i x) where
  exclusive := (Function.forall_update_iff call fun j y => ex y = true → writer = some j).2
    ⟨fun hx => h.exclusive i (hex ▸ hx), fun j _ => h.exclusive j⟩
  shared := (Function.forall_update_iff call fun j y => sh y = true → j ∈ readers).2
    ⟨fun hx => h.shared i (hsh ▸ hx), fun j _ => h.shared j⟩
  alone := h.alone

theorem Locked.lock (h : Locked ex sh writer readers call) (hw : writer = none)
    (hr : readers = []) (hsh : sh x = false) :
    Locked ex sh (some i) readers (Function.update call i x) where
  exclusive := (Function.forall_update_iff call fun j y => ex y = true → some i = some j).2
    ⟨fun _ => rfl, fun j _ hj => absurd (h.exclusive j hj) (by simp [hw])⟩
  shared := (Function.forall_update_iff call fun j y => sh y = true → j ∈ readers).2
    ⟨fun hx => absurd hx (by simp [hsh]), fun j _ => h.shared j⟩
  alone _ := hr

theorem Locked.rlock (h : Locked ex sh writer readers call) (hw : writer = none)
    (hex : ex x = false) :
    Locked ex sh writer (i :: readers) (Function.update call i x) where
  exclusive := (Function.forall_update_iff call fun j y => ex y = true → writer = some j).2
    ⟨fun hx => absurd hx (by simp [hex]), fun j _ => h.exclusive j⟩
  shared := (Function.forall_update_iff call fun j y => sh y = true → j ∈ i :: readers).2
    ⟨fun _ => List.mem_cons_self, fun j _ hj => List.mem_cons_of_mem i (h.shared j hj)⟩
  alone hne := absurd hw hne

theorem Locked.unlock (h : Locked ex sh writer readers call) (hi : ex (call i) = true)
    (hex : ex x = false) (hsh : sh x = false) :
    Locked ex sh none readers (Function.update call i x) where
  exclusive := (Function.forall_update_iff call fun j y => ex y = true → none = some j).2
    ⟨fun hx => absurd hx (by simp [hex]), fun j hne hj =>
      absurd (Option.some.inj ((h.exclusive i hi).symm.trans (h.exclusive j hj))) (Ne.symm hne)⟩
  shared := (Function.forall_update_iff call fun j y => sh y = true → j ∈ readers).2
    ⟨fun hx => absurd hx (by simp [hsh]), fun j _ => h.shared j⟩
  alone hne := absurd rfl hne

theorem Locked.runlock (h : Locked ex sh writer readers call) (hi : sh (call i) = true)
    (hex : ex x = false) (hsh : sh x = false) :
    Locked ex sh writer (readers.erase i) (Function.update call i x) where
  exclusive := (Function.forall_update_iff call fun j y => ex y = true → writer = some j).2
    ⟨fun hx => absurd hx (by simp [hex]), fun j _ => h.exclusive j⟩
  shared := (Function.forall_update_iff call fun j y => sh y = true → j ∈ readers.erase i).2
    ⟨fun hx => absurd hx (by simp [hsh]), fun j hne hj =>
      (List.mem_erase_of_ne hne).2 (h.shared j hj)⟩
  alone hne := absurd (h.no_writer hi) hne

end RwLock
