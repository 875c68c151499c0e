import LocalBase.Lib.Tally

/-!
# Callers that hold a queue back

Two flags of a runtime stand for callers outside its queue: `claimed`, for the
one that is stopping the backend (an idle eviction or an `Unload`), and
`unloading`, for every `Unload` that drains the model, counted by `unloaders`.
A request held back by either waits for a caller that is really there, which is
what `Holders` says; the lemmas are the moves a caller makes.

The LLM and the services number their callers alike and differ in the places a
caller can be, so the places are a parameter, with the two questions asked of
one.
-/

namespace LocalBase.Runtime

/-- The flags are honest: `claimed` stands for one caller that claims,
`unloaders` for as many as drain, and a model has the name it drains under only
while somebody drains it. -/
structure Holders {P : Type} (claims drains : P → Bool) (procs : Nat → P)
    (claimed : Bool) (unloaders : Int) (unloading : String) : Prop where
  one_claims : Census.Counts (claims ∘ procs) claimed.toNat
  all_drain : Census.Counts (drains ∘ procs) unloaders
  named : unloading ≠ "" → unloaders ≠ 0

variable {P : Type} {claims drains : P → Bool} {procs : Nat → P}
variable {claimed : Bool} {unloaders : Int} {unloading : String} {t : Nat} {p : P}

theorem holders_none (hc : ∀ t, claims (procs t) = false)
    (hd : ∀ t, drains (procs t) = false) :
    Holders claims drains procs false 0 "" :=
  ⟨Census.counts_none hc, Census.counts_none hd, fun hu => absurd rfl hu⟩

theorem Holders.move (h : Holders claims drains procs claimed unloaders unloading)
    {claimed' : Bool} {unloaders' : Int} {unloading' : String}
    (hc : (claimed'.toNat : Int) =
      claimed.toNat - (claims (procs t)).toNat + (claims p).toNat)
    (hu : unloaders' =
      unloaders - (drains (procs t)).toNat + (drains p).toNat)
    (hn : unloading' ≠ "" → unloaders' ≠ 0) :
    Holders claims drains (Function.update procs t p) claimed' unloaders'
      unloading' := by
  refine ⟨?_, ?_, hn⟩
  · rw [hc]; exact h.one_claims.move t p
  · rw [hu]; exact h.all_drain.move t p

theorem Holders.claim (h : Holders claims drains procs claimed unloaders unloading)
    (hfree : claimed = false) (ht : claims (procs t) = false)
    (hp : claims p = true) (hd : drains p = drains (procs t)) :
    Holders claims drains (Function.update procs t p) true unloaders
      unloading := by
  refine h.move ?_ ?_ h.named
  · rw [hfree, ht, hp]; rfl
  · rw [hd]; omega

theorem Holders.claimed_of
    (h : Holders claims drains procs claimed unloaders unloading)
    (ht : claims (procs t) = true) : claimed = true := by
  have hpos := h.one_claims.pos_of_mem (i := t) ht
  cases claimed with
  | true => rfl
  | false => simp at hpos

theorem Holders.unclaim
    (h : Holders claims drains procs claimed unloaders unloading)
    (ht : claims (procs t) = true) (hp : claims p = false)
    (hd : drains p = drains (procs t)) :
    Holders claims drains (Function.update procs t p) false unloaders
      unloading := by
  refine h.move ?_ ?_ h.named
  · rw [h.claimed_of ht, ht, hp]; rfl
  · rw [hd]; omega

theorem Holders.drain (h : Holders claims drains procs claimed unloaders unloading)
    (model : String) (hc : claims p = claims (procs t))
    (ht : drains (procs t) = false) (hp : drains p = true) :
    Holders claims drains (Function.update procs t p) claimed (unloaders + 1)
      model := by
  refine h.move ?_ ?_ ?_
  · rw [hc]; omega
  · rw [ht, hp]; simp
  · intro _
    have := h.all_drain.nonneg
    omega

/-- An `Unload` is over, with its claim if it had one; its protection ends with
the last of them. -/
theorem Holders.undrain
    (h : Holders claims drains procs claimed unloaders unloading)
    {claimed' : Bool} (hc : (claimed'.toNat : Int) =
      claimed.toNat - (claims (procs t)).toNat)
    (ht : drains (procs t) = true) (hpc : claims p = false)
    (hpd : drains p = false) :
    Holders claims drains (Function.update procs t p) claimed' (unloaders - 1)
      (if unloaders - 1 = 0 then "" else unloading) := by
  refine h.move ?_ ?_ ?_
  · rw [hc, hpc]; simp
  · rw [ht, hpd]; simp
  · intro hu
    split at hu
    · exact absurd rfl hu
    · assumption

theorem Holders.exists_claims
    (h : Holders claims drains procs claimed unloaders unloading)
    (hc : claimed = true) : ∃ t, claims (procs t) = true :=
  h.one_claims.exists_of_ne_zero (by simp [hc])

theorem Holders.exists_drains
    (h : Holders claims drains procs claimed unloaders unloading)
    (hu : unloading ≠ "") : ∃ t, drains (procs t) = true :=
  h.all_drain.exists_of_ne_zero (h.named hu)

theorem Holders.claims_unique
    (h : Holders claims drains procs claimed unloaders unloading) {t' : Nat}
    (ht : claims (procs t) = true) (ht' : claims (procs t') = true) : t = t' := by
  refine h.one_claims.eq_of_le_one ?_ ht ht'
  cases claimed <;> decide

theorem Holders.unloaders_ne_zero
    (h : Holders claims drains procs claimed unloaders unloading)
    (ht : drains (procs t) = true) : unloaders ≠ 0 :=
  (h.all_drain.pos_of_mem (i := t) ht).ne'

end LocalBase.Runtime
