import LocalBase.Memory.Controller

/-!
# The pressure state over a history of samples

`Poll` samples the host and moves the state that admission refuses on. It goes
up at once and comes down slowly: from constrained or critical it is healthy
again only after three normal samples in a row, which `normalRun` counts. The
count is what the histories here are about. It never says more than the number
of normal samples the history ends with, so it cannot reach three on fewer.
-/

namespace LocalBase.Memory

/-- What a poll tells its caller to do. -/
inductive Action
  | allow | constrain | emergencyStop
  deriving DecidableEq, Repr

/-- The pressure state after a sample. -/
structure Transition where
  state : Safety
  normalSamples : Nat
  action : Action

namespace Controller

def transition (c : Controller) : Transition where
  state := c.state
  normalSamples := c.normalRun
  action :=
    match c.state with
    | .critical => .emergencyStop
    | .constrained => .constrain
    | .healthy => .allow

/-- `NewController`, without the bypass. -/
def new (topology : Topology) (system : Reserve) : Controller where
  topology := topology
  system := system
  bypass := false

/-- A controller after some polls. -/
def polls (c : Controller) (samples : List Snapshot) : Controller :=
  samples.foldl poll c

end Controller

/-! ## The kinds of samples -/

namespace Snapshot

/-- The provider calls it normal, and what it shows free, if anything, is at
least 1.25 times the reserve. -/
def Normal (reserve : Int) (s : Snapshot) : Prop :=
  s.pressure = .normal ∧
    (s.available < 0 ∨ (reserve : ℚ) * warningReserveMultiplier ≤ s.available)

/-- The provider calls it critical, or it shows less free than the reserve. -/
def Critical (reserve : Int) (s : Snapshot) : Prop :=
  s.pressure = .critical ∨
    s.pressure = .normal ∧ 0 ≤ s.available ∧ s.available < reserve

end Snapshot

variable {c : Controller} {s : Snapshot}

theorem normal_of_pollPressure (h : c.pollPressure s = .normal) : s.Normal c.reserveBytes := by
  unfold Controller.pollPressure at h
  split at h
  · next hread =>
    split at h
    · cases h
    · split at h
      · cases h
      · next hhigh => exact ⟨hread.2, .inr (not_lt.mp hhigh)⟩
  · next hread =>
    refine ⟨h, .inl ?_⟩
    by_contra hlow
    exact hread ⟨not_lt.mp hlow, h⟩

theorem pollPressure_critical (h : s.Critical c.reserveBytes) :
    c.pollPressure s = .critical := by
  unfold Controller.pollPressure
  rcases h with hp | ⟨hp, hA, hlow⟩
  · rw [if_neg (fun hread => by cases hp.symm.trans hread.2)]
    exact hp
  · rw [if_pos ⟨hA, hp⟩, if_pos hlow]

theorem pollPressure_unknown (h : s.pressure = .unknown) : c.pollPressure s = .unknown := by
  unfold Controller.pollPressure
  rw [if_neg (fun hread => by cases h.symm.trans hread.2)]
  exact h

/-! ## One sample -/

theorem poll_cases (hb : c.bypass = false) (s : Snapshot) :
    (c.pollPressure s = .unknown ∧ c.poll s = { c with normalRun := 0 }) ∨
    (c.pollPressure s = .critical ∧ c.poll s = { c with state := .critical, normalRun := 0 }) ∨
    (c.pollPressure s = .constrained ∧ c.state = .critical ∧
      c.poll s = { c with normalRun := 0 }) ∨
    (c.pollPressure s = .constrained ∧ c.state ≠ .critical ∧
      c.poll s = { c with state := .constrained, normalRun := 0 }) ∨
    (c.pollPressure s = .normal ∧ c.state = .healthy ∧ c.poll s = c) ∨
    (c.pollPressure s = .normal ∧ c.state ≠ .healthy ∧ recoverySamples ≤ c.normalRun + 1 ∧
      c.poll s = { c with state := .healthy, normalRun := 0 }) ∨
    (c.pollPressure s = .normal ∧ c.state ≠ .healthy ∧ c.normalRun + 1 < recoverySamples ∧
      c.poll s = { c with normalRun := c.normalRun + 1 }) := by
  unfold Controller.poll
  rw [if_neg (by rw [hb]; exact Bool.false_ne_true)]
  cases hp : c.pollPressure s with
  | unknown => exact .inl ⟨rfl, rfl⟩
  | critical => exact .inr (.inl ⟨rfl, rfl⟩)
  | constrained =>
    by_cases hc : c.state = .critical
    · refine .inr (.inr (.inl ⟨rfl, hc, ?_⟩))
      show { c with
        state := if c.state = Safety.critical then Safety.critical else .constrained
        normalRun := 0 } = _
      rw [if_pos hc, ← hc]
    · refine .inr (.inr (.inr (.inl ⟨rfl, hc, ?_⟩)))
      show { c with
        state := if c.state = Safety.critical then Safety.critical else .constrained
        normalRun := 0 } = _
      rw [if_neg hc]
  | normal =>
    by_cases hh : c.state = .healthy
    · exact .inr (.inr (.inr (.inr (.inl ⟨rfl, hh, if_pos hh⟩))))
    · by_cases hr : recoverySamples ≤ c.normalRun + 1
      · exact .inr (.inr (.inr (.inr (.inr (.inl ⟨rfl, hh, hr, (if_neg hh).trans (if_pos hr)⟩)))))
      · exact .inr (.inr (.inr (.inr (.inr (.inr
          ⟨rfl, hh, not_le.mp hr, (if_neg hh).trans (if_neg hr)⟩)))))

theorem recovers (hb : c.bypass = false) (hsick : c.state ≠ .healthy)
    (hwell : (c.poll s).state = .healthy) :
    c.pollPressure s = .normal ∧ recoverySamples ≤ c.normalRun + 1 := by
  rcases poll_cases hb s with ⟨_, hpoll⟩ | ⟨_, hpoll⟩ | ⟨_, _, hpoll⟩ | ⟨_, _, hpoll⟩ |
    ⟨_, hh, _⟩ | ⟨hp, _, hr, _⟩ | ⟨_, _, _, hpoll⟩
  · rw [hpoll] at hwell
    exact absurd hwell hsick
  · rw [hpoll] at hwell
    cases hwell
  · rw [hpoll] at hwell
    exact absurd hwell hsick
  · rw [hpoll] at hwell
    cases hwell
  · exact absurd hh hsick
  · exact ⟨hp, hr⟩
  · rw [hpoll] at hwell
    exact absurd hwell hsick

theorem stays_critical (hb : c.bypass = false) (hcritical : c.state = .critical) :
    (c.poll s).state ≠ .constrained := by
  intro hconstrained
  rcases poll_cases hb s with ⟨_, hpoll⟩ | ⟨_, hpoll⟩ | ⟨_, _, hpoll⟩ | ⟨_, hne, _⟩ |
    ⟨_, hh, _⟩ | ⟨_, _, _, hpoll⟩ | ⟨_, _, _, hpoll⟩
  · rw [hpoll] at hconstrained
    cases hcritical.symm.trans hconstrained
  · rw [hpoll] at hconstrained
    cases hconstrained
  · rw [hpoll] at hconstrained
    cases hcritical.symm.trans hconstrained
  · exact hne hcritical
  · cases hcritical.symm.trans hh
  · rw [hpoll] at hconstrained
    cases hconstrained
  · rw [hpoll] at hconstrained
    cases hcritical.symm.trans hconstrained

/-! ## The count -/

/-- What a history of samples keeps: the count is short of three, it is nothing
in the healthy state, and the history ends with that many normal samples. -/
structure Counted (reserve : Int) (history : List Snapshot) (c : Controller) : Prop where
  bypass : c.bypass = false
  reserve_eq : c.reserveBytes = reserve
  below : c.normalRun < recoverySamples
  healthy : c.state = .healthy → c.normalRun = 0
  recent : ∃ run, run <:+ history ∧ run.length = c.normalRun ∧ ∀ x ∈ run, x.Normal reserve

variable {reserve : Int} {history : List Snapshot}

theorem Counted.restart (h : Counted reserve history c) (state : Safety) (s : Snapshot) :
    Counted reserve (history ++ [s]) { c with state := state, normalRun := 0 } where
  bypass := h.bypass
  reserve_eq := h.reserve_eq
  below := Nat.zero_lt_succ _
  healthy _ := rfl
  recent := ⟨[], List.nil_suffix, rfl, by simp⟩

theorem Counted.longer (h : Counted reserve history c) (hn : s.Normal reserve) :
    ∃ run, run <:+ history ++ [s] ∧ run.length = c.normalRun + 1 ∧ ∀ x ∈ run, x.Normal reserve := by
  obtain ⟨run, ⟨older, hrun⟩, hlen, hall⟩ := h.recent
  refine ⟨run ++ [s], ⟨older, by rw [← hrun, List.append_assoc]⟩, ?_, ?_⟩
  · rw [List.length_append, hlen, List.length_singleton]
  · intro x hx
    rcases List.mem_append.mp hx with hold | hnew
    · exact hall x hold
    · cases List.mem_singleton.mp hnew
      exact hn

theorem Counted.poll (h : Counted reserve history c) (s : Snapshot) :
    Counted reserve (history ++ [s]) (c.poll s) := by
  have hreserve := h.reserve_eq
  rcases poll_cases h.bypass s with ⟨_, hpoll⟩ | ⟨_, hpoll⟩ | ⟨_, _, hpoll⟩ | ⟨_, _, hpoll⟩ |
    ⟨_, hh, hpoll⟩ | ⟨_, _, _, hpoll⟩ | ⟨hp, hh, hr, hpoll⟩
  · rw [hpoll]
    exact h.restart c.state s
  · rw [hpoll]
    exact h.restart .critical s
  · rw [hpoll]
    exact h.restart c.state s
  · rw [hpoll]
    exact h.restart .constrained s
  · rw [hpoll]
    have hzero := h.healthy hh
    exact ⟨h.bypass, hreserve, h.below, fun _ => hzero,
      [], List.nil_suffix, hzero.symm, by simp⟩
  · rw [hpoll]
    exact h.restart .healthy s
  · rw [hpoll]
    have hn : s.Normal reserve := by
      rw [← hreserve]
      exact normal_of_pollPressure hp
    exact ⟨h.bypass, hreserve, hr, fun hnow => absurd hnow hh, h.longer hn⟩

theorem counted_polls (topology : Topology) (system : Reserve) (samples : List Snapshot) :
    Counted (system.bytes topology.systemCapacity) samples
      ((Controller.new topology system).polls samples) := by
  induction samples using List.reverseRecOn with
  | nil => exact ⟨rfl, rfl, Nat.zero_lt_succ _, fun _ => rfl, [], List.nil_suffix, rfl, by simp⟩
  | append_singleton samples s ih =>
    rw [Controller.polls, List.foldl_append]
    exact ih.poll s

/-! ## The law of the histories -/

/-- Over every history of samples and the next one: the state is healthy again
only at the end of three normal samples in a row; it never goes from critical to
constrained, is critical at every critical sample, and is not moved by an
unknown one, which restarts the count; the count is below three, and nothing in
the healthy state; and the action says which state it is. -/
theorem pressure_hysteresis (topology : Topology) (system : Reserve) (samples : List Snapshot)
    (s : Snapshot) :
    let reserve := system.bytes topology.systemCapacity
    let before := (Controller.new topology system).polls samples
    let after := (Controller.new topology system).polls (samples ++ [s])
    (before.state ≠ .healthy → after.state = .healthy →
        ∃ run, run <:+ samples ++ [s] ∧ 3 ≤ run.length ∧ ∀ x ∈ run, x.Normal reserve) ∧
      (before.state = .critical → after.state ≠ .constrained) ∧
      (s.Critical reserve → after.state = .critical) ∧
      (s.pressure = .unknown → after.state = before.state ∧ after.normalRun = 0) ∧
      before.normalRun < 3 ∧ (before.state = .healthy → before.normalRun = 0) ∧
      (before.transition.action = .emergencyStop ↔ before.state = .critical) ∧
      (before.transition.action = .constrain ↔ before.state = .constrained) := by
  intro reserve before after
  have h : Counted reserve samples before := counted_polls topology system samples
  have hafter : after = before.poll s := by
    show (Controller.new topology system).polls (samples ++ [s]) = _
    rw [Controller.polls, List.foldl_append]
    rfl
  rw [hafter]
  refine ⟨?_, ?_, ?_, ?_, h.below, h.healthy, ?_, ?_⟩
  · intro hsick hwell
    obtain ⟨hp, hr⟩ := recovers h.bypass hsick hwell
    have hn : s.Normal reserve := by
      rw [← h.reserve_eq]
      exact normal_of_pollPressure hp
    obtain ⟨run, hrun, hlen, hall⟩ := h.longer hn
    exact ⟨run, hrun, hlen ▸ hr, hall⟩
  · exact stays_critical h.bypass
  · intro hs
    rw [← h.reserve_eq] at hs
    have hp := pollPressure_critical hs
    unfold Controller.poll
    rw [if_neg (by rw [h.bypass]; exact Bool.false_ne_true), hp]
  · intro hs
    have hp : before.pollPressure s = .unknown := pollPressure_unknown hs
    unfold Controller.poll
    rw [if_neg (by rw [h.bypass]; exact Bool.false_ne_true), hp]
    exact ⟨rfl, rfl⟩
  · unfold Controller.transition
    cases before.state <;> simp
  · unfold Controller.transition
    cases before.state <;> simp

end LocalBase.Memory
