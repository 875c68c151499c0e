import LocalBase.Lib.Tally
import LocalBase.Lib.Machine
import Mathlib.Algebra.Order.Ring.Nat
import Mathlib.Tactic.Common

/-!
# Caps on open connections

A listener with caps counts the connections it has let in, all of them and those of
each source, and refuses one that a cap has no place for. A connection gives its place
back on its first `Close`, however many there are and in whatever goroutines, so the
counts are what is open: `Exact` is that, and the caps follow from it.

A `Close` enters the connection's `once`, gives the place back under the listener's
lock, and is done; another `Close` in between waits for the first, and one after it
changes nothing. Those are the events here, in every order.
-/

namespace LocalBase.Netlimit

/-! ## Sources -/

/-- Where a connection comes from: `other` is anything without an IP address. -/
inductive Addr
  | other
  | v4 (n : Nat)
  | v6 (n : Nat)
  deriving DecidableEq

/-- What `PerIP` counts by: an IPv4 address, or the /64 of an IPv6 one. -/
inductive Source
  | v4 (n : Nat)
  | v6 (net : Nat)
  deriving DecidableEq

/-- `To4`: an IPv4 address written as an IPv6 one is that address. -/
def Addr.to4 : Addr → Option Nat
  | .other => none
  | .v4 n => some n
  | .v6 n => if n / 2 ^ 32 = 0xffff then some (n % 2 ^ 32) else none

def Addr.isLoopback (a : Addr) : Bool :=
  match a.to4 with
  | some n => n / 2 ^ 24 = 127
  | none => a = .v6 1

/-- Loopback, and what has no address, is not counted by source. -/
def connKey (a : Addr) : Option Source :=
  if a.isLoopback then none
  else match a.to4, a with
    | some n, _ => some (.v4 n)
    | none, .v6 n => some (.v6 (n / 2 ^ 64))
    | none, _ => none

/-! ## The listener -/

structure ConnLimits where
  global : Int
  perIP : Int

/-- Lowers a global cap to fit under the process's limit of open files. -/
def capForFileLimit (global : Int) (fileLimit : Nat) : Int :=
  if global ≤ 0 ∨ fileLimit = 0 then global
  else if fileLimit ≤ 128 + 64 then 64
  else if (fileLimit - 128 : Nat) < global then (fileLimit - 128 : Nat)
  else global

/-- Where a connection is in its life. -/
inductive Life
  | never | opened | closing | closed
  deriving DecidableEq

structure Conn where
  key : Option Source := none
  life : Life := .never

/-- Whether the connection has its place. -/
def Conn.held (c : Conn) : Bool := c.life = .opened || c.life = .closing

def Conn.heldFrom (s : Source) (c : Conn) : Bool := c.held && c.key = some s

structure Listener where
  limits : ConnLimits
  total : Int := 0
  perIP : Source → Int := fun _ => 0
  conns : Nat → Conn := fun _ => {}
  accepted : Nat := 0

inductive Reason
  | global | perIP
  deriving DecidableEq

namespace Listener

/-- Which cap has no place for a connection. -/
def refusal (l : Listener) (key : Option Source) : Option Reason :=
  if 0 < l.limits.global ∧ l.limits.global ≤ l.total then some .global
  else match key with
    | some s => if 0 < l.limits.perIP ∧ l.limits.perIP ≤ l.perIP s then some .perIP else none
    | none => none

def count (l : Listener) (key : Option Source) (n : Int) : Source → Int :=
  match key with
  | some s => Function.update l.perIP s n
  | none => l.perIP

/-- `Accept`, on one connection. -/
def accept (l : Listener) (a : Addr) : Listener :=
  let key := connKey a
  match l.refusal key with
  | some _ => l
  | none =>
    { l with
      total := l.total + 1
      perIP := l.count key (key.elim 0 l.perIP + 1)
      conns := Function.update l.conns l.accepted { key := key, life := .opened }
      accepted := l.accepted + 1 }

/-- The section that gives a place back. A count that falls to zero is deleted. -/
def release (l : Listener) (i : Nat) : Listener :=
  let key := (l.conns i).key
  let n := key.elim 0 l.perIP - 1
  { l with
    total := l.total - 1
    perIP := l.count key (if n ≤ 0 then 0 else n)
    conns := Function.update l.conns i { l.conns i with life := .closed } }

end Listener

inductive Event
  | accept (a : Addr)
  /-- A `Close` of connection `i`, the first or another. -/
  | close (i : Nat)
  /-- The first `Close` gives the place back. -/
  | release (i : Nat)

def Listener.step (l : Listener) : Event → Option Listener
  | .accept a => some (l.accept a)
  | .close i =>
    match (l.conns i).life with
    | .opened =>
      some { l with conns := Function.update l.conns i { l.conns i with life := .closing } }
    | .closing | .closed => some l
    | .never => none
  | .release i =>
    match (l.conns i).life with
    | .closing => some (l.release i)
    | _ => none

/-- A listener that `LimitConnections` makes, with any caps. -/
def listener : Machine.System Listener Event where
  init l := ∃ limits, l = { limits := limits }
  step := Listener.step

/-! ## The counts are exact -/

namespace Listener

open Census (Counts)

structure Exact (l : Listener) : Prop where
  total : Counts (Conn.held ∘ l.conns) l.total
  perIP : ∀ s, Counts (Conn.heldFrom s ∘ l.conns) (l.perIP s)
  fresh : ∀ i, l.accepted ≤ i → (l.conns i).life = .never
  global : 0 < l.limits.global → l.total ≤ l.limits.global
  each : 0 < l.limits.perIP → ∀ s, l.perIP s ≤ l.limits.perIP

variable {l l' : Listener}

theorem Exact.accept (h : Exact l) (a : Addr) : Exact (l.accept a) := by
  unfold Listener.accept
  simp only []
  generalize connKey a = key
  cases hr : l.refusal key with
  | some _ => exact h
  | none =>
    have hnever := h.fresh l.accepted (Nat.le_refl _)
    simp only [refusal] at hr
    split at hr
    · cases hr
    next hglobal =>
    refine ⟨?_, fun s => ?_, fun i hi => ?_, fun hpos => ?_, fun hpos s => ?_⟩
    · have hmove := h.total.move l.accepted { key := key, life := .opened }
      simpa [Conn.held, hnever] using hmove
    · have hmove := (h.perIP s).move l.accepted { key := key, life := .opened }
      have hold : Conn.heldFrom s (l.conns l.accepted) = false := by
        simp [Conn.heldFrom, Conn.held, hnever]
      rw [hold] at hmove
      cases key with
      | none => simpa [Conn.heldFrom, Conn.held, count] using hmove
      | some s' =>
        by_cases hs : s = s'
        · subst hs
          simpa [Conn.heldFrom, Conn.held, count] using hmove
        · have hne : ¬ s' = s := fun he => hs he.symm
          simpa [Conn.heldFrom, Conn.held, count, Function.update_of_ne hs, hne] using hmove
    · have hne : i ≠ l.accepted := by
        have hlt : l.accepted < i := hi
        omega
      show (Function.update l.conns l.accepted _ i).life = .never
      rw [Function.update_of_ne hne]
      exact h.fresh i (Nat.le_of_succ_le hi)
    · show l.total + 1 ≤ l.limits.global
      have hroom := h.global hpos
      have hopen : ¬ l.limits.global ≤ l.total := fun hfull => hglobal ⟨hpos, hfull⟩
      omega
    · show l.count key (key.elim 0 l.perIP + 1) s ≤ l.limits.perIP
      cases key with
      | none => exact h.each hpos s
      | some s' =>
        simp only [] at hr
        split at hr
        · cases hr
        next hper =>
        by_cases hs : s = s'
        · subst hs
          have hopen : ¬ l.limits.perIP ≤ l.perIP s := fun hfull => hper ⟨hpos, hfull⟩
          simp only [count, Option.elim_some, Function.update_self]
          omega
        · simpa [count, Function.update_of_ne hs] using h.each hpos s

theorem Exact.close (h : Exact l) {i : Nat} (hi : (l.conns i).life = .opened) :
    Exact { l with conns := Function.update l.conns i { l.conns i with life := .closing } } := by
  refine ⟨?_, fun s => ?_, fun j hj => ?_, h.global, h.each⟩
  · have hmove := h.total.move i { l.conns i with life := .closing }
    simpa [Conn.held, hi] using hmove
  · have hmove := (h.perIP s).move i { l.conns i with life := .closing }
    simpa [Conn.heldFrom, Conn.held, hi] using hmove
  · have hne : j ≠ i := by
      rintro rfl
      rw [h.fresh j hj] at hi
      cases hi
    show (Function.update l.conns i _ j).life = .never
    rw [Function.update_of_ne hne]
    exact h.fresh j hj

theorem Exact.release (h : Exact l) {i : Nat} (hi : (l.conns i).life = .closing) :
    Exact (l.release i) := by
  have hpos : 0 < l.total := h.total.pos_of_mem (i := i) (by simp [Conn.held, hi])
  -- The connection is counted, so its source's count does not fall below zero.
  have hcount : ∀ s, (l.release i).perIP s =
      if (l.conns i).key = some s then l.perIP s - 1 else l.perIP s := by
    intro s
    cases hk : (l.conns i).key with
    | none => simp [Listener.release, count, hk]
    | some s' =>
      have hheld : 0 < l.perIP s' :=
        (h.perIP s').pos_of_mem (i := i) (by simp [Conn.heldFrom, Conn.held, hi, hk])
      have hn : (if l.perIP s' - 1 ≤ 0 then 0 else l.perIP s' - 1) = l.perIP s' - 1 := by
        split <;> omega
      simp only [Listener.release, count, hk, Option.elim_some, hn]
      by_cases hs : s = s'
      · subst hs
        simp
      · have hne : ¬ s' = s := fun he => hs he.symm
        simp [Function.update_of_ne hs, hne]
  refine ⟨?_, fun s => ?_, fun j hj => ?_, fun hg => ?_, fun hp s => ?_⟩
  · have hmove := h.total.move i { l.conns i with life := .closed }
    simpa [Conn.held, hi, Listener.release] using hmove
  · have hmove := (h.perIP s).move i { l.conns i with life := .closed }
    rw [hcount s]
    by_cases hk : (l.conns i).key = some s
    · simpa [Conn.heldFrom, Conn.held, hi, Listener.release, hk] using hmove
    · simpa [Conn.heldFrom, Conn.held, hi, Listener.release, hk] using hmove
  · have hne : j ≠ i := by
      rintro rfl
      rw [h.fresh j hj] at hi
      cases hi
    show (Function.update l.conns i _ j).life = .never
    rw [Function.update_of_ne hne]
    exact h.fresh j hj
  · have hroom := h.global hg
    show l.total - 1 ≤ l.limits.global
    omega
  · have hroom := h.each hp s
    rw [hcount s]
    show _ ≤ l.limits.perIP
    split <;> omega

theorem Exact.step (h : Exact l) {e : Event} (hstep : l.step e = some l') : Exact l' := by
  cases e with
  | accept a =>
    cases hstep
    exact h.accept a
  | close i =>
    simp only [Listener.step] at hstep
    split at hstep <;> cases hstep
    · next hi => exact h.close hi
    · exact h
    · exact h
  | release i =>
    simp only [Listener.step] at hstep
    split at hstep <;> cases hstep
    next hi => exact h.release hi

theorem exact_of_reachable (h : Machine.Reachable listener l) : Exact l := by
  refine h.invariant ?_ fun s e t hs he => hs.step he
  rintro l ⟨limits, rfl⟩
  refine ⟨Census.counts_none fun _ => rfl, fun _ => Census.counts_none fun _ => rfl,
    fun _ _ => rfl, fun hpos => ?_, fun hpos _ => ?_⟩
  · exact Int.le_of_lt hpos
  · exact Int.le_of_lt hpos

end Listener

/-! ## What stays free -/

theorem capForFileLimit_room {global : Int} {fileLimit : Nat} (hfiles : 128 + 64 < fileLimit)
    (hglobal : 0 < global) :
    0 < capForFileLimit global fileLimit ∧
      capForFileLimit global fileLimit + 128 ≤ fileLimit ∧
      capForFileLimit global fileLimit ≤ global := by
  have hno : ¬ (global ≤ 0 ∨ fileLimit = 0) := by omega
  have hmore : ¬ fileLimit ≤ 128 + 64 := by omega
  rw [capForFileLimit, if_neg hno, if_neg hmore]
  split <;> omega

/-- In every run, whatever is accepted and closed in whatever order: the counts are of
the connections that are open, in all and by source; no cap is passed; under a cap made
for the limit of open files, 128 files stay free; and with every connection closed all
counts are zero again. -/
theorem connections_exact {l : Listener} (h : Machine.Reachable listener l) :
    Census.Counts (Conn.held ∘ l.conns) l.total ∧
      (∀ s, Census.Counts (Conn.heldFrom s ∘ l.conns) (l.perIP s)) ∧
      (0 < l.limits.global → l.total ≤ l.limits.global) ∧
      (0 < l.limits.perIP → ∀ s, l.perIP s ≤ l.limits.perIP) ∧
      (∀ global fileLimit, 128 + 64 < fileLimit → 0 < global →
        l.limits.global = capForFileLimit global fileLimit → l.total + 128 ≤ fileLimit) ∧
      ((∀ i, (l.conns i).held = false) → l.total = 0 ∧ ∀ s, l.perIP s = 0) := by
  have hexact := Listener.exact_of_reachable h
  refine ⟨hexact.total, hexact.perIP, hexact.global, hexact.each, ?_, fun hclosed => ⟨?_, ?_⟩⟩
  · intro global fileLimit hfiles hpos hcap
    obtain ⟨hlt, hroom, -⟩ := capForFileLimit_room hfiles hpos
    rw [← hcap] at hlt hroom
    have htotal := hexact.global hlt
    omega
  · by_contra hne
    obtain ⟨i, hi⟩ := hexact.total.exists_of_ne_zero hne
    rw [Function.comp_apply, hclosed i] at hi
    cases hi
  · intro s
    by_contra hne
    obtain ⟨i, hi⟩ := (hexact.perIP s).exists_of_ne_zero hne
    simp only [Function.comp_apply, Conn.heldFrom, hclosed i, Bool.false_and] at hi
    cases hi

/-- Two connections of one source under a cap of two, a third refused, and one closed
twice. -/
def threeFromOne : List Event :=
  [.accept (.v4 0x0a000001), .accept (.v6 0xffff0a000001), .accept (.v4 0x0a000001),
    .close 0, .close 0, .release 0, .close 0]

theorem three_from_one_exact :
    Census.Counts (Conn.held ∘ (listener.after { limits := ⟨64, 2⟩ } threeFromOne).conns) 1 := by
  refine (connections_exact ?_).1
  exact Machine.reachable_after ⟨⟨64, 2⟩, rfl⟩ rfl

end LocalBase.Netlimit
