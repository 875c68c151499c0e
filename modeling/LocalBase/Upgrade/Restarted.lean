import LocalBase.Upgrade.Intact

/-!
# Whether the gateway is brought up again

A call that stopped the gateway has to start it once it has changed the
installed path for the last time. Not every way out of a call does: a
`Rollback` whose swap fails returns at once, with the gateway stopped, and
when a swap back is refused its last rename the version it put in place is
never started. Those are all the ways: the record of a call that returned
says exactly whether it went one of them.
-/

namespace LocalBase.Upgrade

open Program Files

variable {sha256 : Bytes → String} {w t : World} {k : Kind} {ops : Ops}
  {f : Option Err → Steps Result}

/-- Read back from its end, the record has a start before any stop or change
of the installed path. -/
def startedLast : List Mark → Bool
  | [] => false
  | .started _ :: _ => true
  | .keptBack _ :: rest => startedLast rest
  | .stopped _ :: _ => false
  | .changed :: _ => false

/-- If the gateway was stopped, it was started after that, and after the last
change of the installed path. -/
def BroughtUp (log : List Mark) : Prop := (∃ ok, .stopped ok ∈ log) → startedLast log = true

/-- A `swapBack` made the installed path another file, and its last rename was
refused. -/
def leftUnkept : List Mark → Bool
  | [] => false
  | m :: rest => (m == .keptBack false && rest.head? == some .changed) || leftUnkept rest

/-- The swap of a rollback that stopped the gateway gets to its end. -/
def Kind.SwapsOver (k : Kind) (log : List Mark) : Prop :=
  match k with
  | .apply _ _ _ => True
  | .rollback _ => .stopped true ∈ log → .keptBack true ∈ log

/-- The steps of the swaps that decide it: none is refused its last rename
after it changed the installed path, and that of a rollback gets to its end. -/
def Kind.SwapsThrough (k : Kind) (log : List Mark) : Prop :=
  k.ops.stop = true → leftUnkept log = false ∧ k.SwapsOver log

/-- What is proved of every return. -/
def Told (k : Kind) (t : World) : Prop := BroughtUp t.log ↔ k.SwapsThrough t.log

/-- Whatever it does on the way, it ends in a `Told`. -/
abbrev Tells (sha256 : Bytes → String) (k : Kind) (p : Steps Result) (w : World) : Prop :=
  p.Safe (sem sha256) (fun _ => True) (fun _ => Told k) w

/-- What the record says when the swaps begin. -/
def stopMarks (ops : Ops) : List Mark := if ops.stop then [.stopped true] else []

theorem Told.of_start (h : startedLast t.log = true) (hs : k.SwapsThrough t.log) : Told k t :=
  iff_of_true (fun _ => h) hs

theorem Told.of_down (ok : Bool) (hm : .stopped ok ∈ t.log) (h : startedLast t.log = false)
    (hs : ¬ k.SwapsThrough t.log) : Told k t :=
  iff_of_false (fun hup => by rw [hup ⟨ok, hm⟩] at h; cases h) hs

theorem Told.of_none (h : k.ops.stop = false) (hl : ∀ ok, .stopped ok ∉ t.log) : Told k t :=
  iff_of_true (fun hm => hm.elim fun ok hok => absurd hok (hl ok))
    fun hs => by rw [h] at hs; cases hs

theorem start_tells (hf : ops.start = true → ∀ fails,
      Tells sha256 k (f fails) (w.mark (.started fails.isNone)))
    (hskip : ops.start = false → Tells sha256 k (f none) w) :
    Tells sha256 k (call ops.start start >>= f) w := by
  refine safe_bind ?_
  unfold call
  split
  · next hgiven => exact safe_step fun fails => ⟨trivial, hf hgiven fails⟩
  · next hgiven => exact hskip (by simpa using hgiven)

theorem stop_tells (hf : ops.stop = true → ∀ fails,
      Tells sha256 k (f fails) (w.mark (.stopped fails.isNone)))
    (hskip : ops.stop = false → Tells sha256 k (f none) w) :
    Tells sha256 k (call ops.stop stop >>= f) w := by
  refine safe_bind ?_
  unfold call
  split
  · next hgiven => exact safe_step fun fails => ⟨trivial, hf hgiven fails⟩
  · next hgiven => exact hskip (by simpa using hgiven)

theorem started_tells (hf : ∀ r u, Told k u → Tells sha256 k (f r) u)
    (hstart : ops.start = true → ∀ ok, k.SwapsThrough (.started ok :: w.log))
    (hskip : ops.start = false → Told k w) :
    Tells sha256 k (call ops.start start >>= f) w :=
  start_tells (fun hgiven fails => hf _ _ (.of_start rfl (hstart hgiven fails.isNone)))
    fun hgiven => hf _ _ (hskip hgiven)

theorem smokeTest_tells {failed : Err → Failure} (h : Told k w) :
    Tells sha256 k (smokeTest ops failed) w := by
  refine safe_bind (call_safe (safe_step fun fails => ⟨trivial, ?_⟩) h)
  cases fails <;> exact h

theorem undo_tells {rest : List Mark} (hgiven : k.ops.stop = true) (hstop : .stopped true ∈ rest)
    (hlog : w.log = .started false :: rest) (hun : leftUnkept rest = false)
    (hover : ∀ log, k.SwapsOver (log ++ rest))
    (hf : ∀ rerr u, Told k u → Tells sha256 k (f (some rerr)) u)
    (hg : ∀ u ms, u.log = .keptBack true :: ms ++ .started false :: rest →
      leftUnkept (ms ++ .started false :: rest) = false → Tells sha256 k (f none) u) :
    Tells sha256 k (swapBack >>= f) w := by
  have hms : leftUnkept (swapMarks w ++ .started false :: rest) = false := by
    unfold swapMarks
    split <;> simp [leftUnkept, hun]
  refine safe_bind (swapBack_safe.mono (fun _ _ => trivial) ?_)
  rintro r u (⟨rfl, _, _, hu⟩ | ⟨hr, hu⟩ | ⟨hr, _, hu⟩)
  · exact hg u (swapMarks w) (by rw [hu, backMarks, hlog]; rfl) hms
  · obtain ⟨rerr, rfl⟩ := Option.ne_none_iff_exists'.mp hr
    have hul := hu.log.trans hlog
    refine hf rerr u (.of_start (by rw [hul]; rfl) fun _ => ⟨?_, ?_⟩)
    · simp [hul, leftUnkept, hun]
    · exact hul ▸ hover [.started false]
  · obtain ⟨rerr, rfl⟩ := Option.ne_none_iff_exists'.mp hr
    rw [backMarks, hlog, swapMarks] at hu
    -- What is installed is the same file when both names were of it.
    refine hf rerr u ?_
    split at hu
    · refine .of_start (by rw [hu]; rfl) fun _ => ⟨?_, ?_⟩
      · simp [hu, leftUnkept, hun]
      · exact hu ▸ hover [.keptBack false, .started false]
    · refine .of_down true (by simp [hu, hstop]) (by rw [hu]; rfl) fun hs => ?_
      have hfalse := (hs hgiven).1
      rw [hu] at hfalse
      simp [leftUnkept] at hfalse

/-! ## Apply -/

section
variable {verified : String} {candidate : Option Bytes}

theorem restore_tells {failure : Failure} (hlog : w.log = stopMarks ops) :
    Tells sha256 (.apply verified candidate ops) (restore ops failure) w := by
  refine started_tells (fun r u hu => by cases r <;> exact hu) (fun hgiven ok => ?_)
    fun hgiven => ?_
  · rw [hlog, stopMarks, ops.paired, if_pos hgiven]
    exact fun _ => ⟨by simp [leftUnkept], trivial⟩
  · refine .of_none (by rw [← hgiven, ← ops.paired]; rfl) fun ok => ?_
    rw [hlog, stopMarks, ops.paired, hgiven]
    simp

theorem startNew_tells (hlog : w.log = .changed :: stopMarks ops) :
    Tells sha256 (.apply verified candidate ops) (startNew ops) w := by
  refine start_tells (fun hgiven fails => ?_) fun hgiven => ?_
  · have hstop : ops.stop = true := ops.paired.trans hgiven
    have hl : (w.mark (.started fails.isNone)).log =
        .started fails.isNone :: [.changed, .stopped true] := by
      rw [World.mark, hlog, stopMarks, if_pos hstop]
    cases fails with
    | none =>
      refine smokeTest_tells (.of_start (by rw [hl]; rfl) fun _ => ⟨?_, trivial⟩)
      rw [hl]
      rfl
    | some err =>
      refine undo_tells (k := .apply verified candidate ops) hstop (by simp) hl rfl
        (fun _ => trivial) (fun _ _ hu => hu) fun u ms hu hms => ?_
      refine started_tells (fun r u hu => by cases r <;> exact hu) (fun _ ok _ => ⟨?_, trivial⟩)
        fun hnot => absurd hgiven (by simp [hnot])
      rw [hu]
      simpa [leftUnkept] using hms
  · refine smokeTest_tells (.of_none (by rw [← hgiven, ← ops.paired]; rfl) fun ok => ?_)
    rw [hlog, stopMarks, ops.paired, hgiven]
    simp

theorem replaceBinary_tells (hlog : w.log = stopMarks ops)
    (hne : ∀ i, w.disk.names .candidate = some i → w.disk.names .binary ≠ some i) :
    Tells sha256 (.apply verified candidate ops) (replaceBinary verified ops) w := by
  refine safe_perform fun fails => ⟨trivial, ?_⟩
  rcases sum_step sha256 w .candidate fails with ⟨err, hact⟩ | ⟨bytes, _, hact⟩
  · rw [hact]
    exact restore_tells hlog
  · rw [hact]
    show Tells _ _ (if sha256 bytes ≠ verified then restore ops .tampered else _) w
    split
    · exact restore_tells hlog
    · refine safe_bind (keepPrevious_safe.mono (fun _ _ => trivial) ?_)
      rintro r u ⟨hkept, haside⟩
      cases r with
      | some err => exact restore_tells ((haside (Option.some_ne_none _)).log.trans hlog)
      | none =>
        have hk := hkept rfl
        have hul := hk.log.trans hlog
        refine safe_perform fun fails => ⟨trivial, ?_⟩
        rcases rename_step sha256 u .candidate .binary fails with ⟨err, hact⟩ | ⟨d, hren, hact⟩
        · rw [hact]
          exact restore_tells hul
        · rw [hact]
          obtain ⟨i, hold, _, _, hself, _, _⟩ := Disk.rename_spec hren
          have hchanged : d.names .binary ≠ u.disk.names .binary := by
            rw [hk.names _ (by decide) (by decide)] at hold
            rw [hself, hk.names _ (by decide) (by decide)]
            exact (hne i hold).symm
          exact startNew_tells (by simp [renamed, hchanged, hul])

theorem apply_tells (hlog : w.log = [])
    (hne : ∀ i, w.disk.names .candidate = some i → w.disk.names .binary ≠ some i) :
    Tells sha256 (.apply verified candidate ops) (apply verified ops) w := by
  have hbody : Tells sha256 (.apply verified candidate ops) (applyBody verified ops) w := by
    refine stop_tells (fun hgiven fails => ?_) fun hgiven => ?_
    · cases fails with
      | none => exact replaceBinary_tells (by simp [World.mark, hlog, stopMarks, hgiven]) hne
      | some err =>
        refine started_tells (fun r u hu => by cases r <;> exact hu)
          (fun _ ok _ => ⟨?_, trivial⟩)
          fun hnot => absurd hgiven (by simp [ops.paired, hnot])
        simp [World.mark, hlog, leftUnkept]
    · exact replaceBinary_tells (by simp [hlog, stopMarks, hgiven]) hne
  refine safe_bind (hbody.mono (fun _ _ => trivial) fun r u hu => ?_)
  refine safe_perform fun fails => ⟨trivial, ?_⟩
  cases fails <;> exact hu

end

/-! ## Rollback -/

theorem smokeOlder_tells (h : Told k w) : Tells sha256 k (smokeOlder ops) w := by
  refine safe_bind (call_safe (safe_step fun fails => ⟨trivial, ?_⟩) (smokeTest_tells h))
  cases fails with
  | some err => exact h
  | none => exact smokeTest_tells h

theorem startOlder_tells {ms : List Mark} (hms : leftUnkept ms = false)
    (hlog : w.log = .keptBack true :: ms) (hstop : ops.stop = true → .stopped true ∈ ms)
    (hnone : ops.stop = false → ∀ ok, .stopped ok ∉ ms) :
    Tells sha256 (.rollback ops) (startOlder ops) w := by
  refine start_tells (fun hgiven fails => ?_) fun hgiven => ?_
  · have hl : (w.mark (.started fails.isNone)).log =
        .started fails.isNone :: .keptBack true :: ms := by rw [World.mark, hlog]
    cases fails with
    | none =>
      refine smokeOlder_tells (.of_start (by rw [hl]; rfl) fun _ => ⟨?_, fun _ => ?_⟩)
      · rw [hl]
        simpa [leftUnkept] using hms
      · rw [hl]
        simp
    | some err =>
      have hup := ops.paired.trans hgiven
      refine undo_tells (k := .rollback ops) hup (by simp [hstop hup]) hl
        (by simpa [leftUnkept] using hms) (fun log _ => by simp) (fun _ _ hu => hu)
        fun u ms' hu hms' => ?_
      refine started_tells (fun r u hu => by cases r <;> exact hu)
        (fun _ ok _ => ⟨?_, fun _ => ?_⟩) fun hnot => absurd hgiven (by simp [hnot])
      · rw [hu]
        simpa [leftUnkept] using hms'
      · simp [hu]
  · have hdown : ops.stop = false := ops.paired.trans hgiven
    exact smokeOlder_tells (.of_none hdown fun ok => by simp [hlog, hnone hdown ok])

theorem Told.of_notBack (ms : List Mark) (ht : t.log = ms ++ stopMarks ops)
    (hms : startedLast t.log = false) (hnot : .keptBack true ∉ ms)
    (hst : ∀ ok, .stopped ok ∉ ms) : Told (.rollback ops) t := by
  cases hgiven : ops.stop with
  | false => exact .of_none hgiven fun ok => by simp [ht, stopMarks, hgiven, hst]
  | true =>
    refine .of_down true (by simp [ht, stopMarks, hgiven]) hms fun hs => ?_
    have hmem := (hs hgiven).2 (by simp [ht, stopMarks, hgiven])
    simp [ht, stopMarks, hgiven, hnot] at hmem

theorem goBack_tells (hw : w.log = stopMarks ops) :
    Tells sha256 (.rollback ops) (goBack ops) w := by
  refine safe_bind (swapBack_safe.mono (fun _ _ => trivial) ?_)
  rintro r t (⟨rfl, _, _, ht⟩ | ⟨hr, ht⟩ | ⟨hr, _, ht⟩)
  · rw [backMarks, hw] at ht
    refine startOlder_tells ?_ ht (fun hgiven => ?_) fun hgiven ok => ?_
    all_goals unfold swapMarks stopMarks
    · split <;> split <;> simp [leftUnkept]
    · simp [hgiven]
    · split <;> simp [hgiven]
  · obtain ⟨err, rfl⟩ := Option.ne_none_iff_exists'.mp hr
    refine Told.of_notBack [] (ht.log.trans hw) ?_ (by simp) (by simp)
    rw [ht.log, hw, stopMarks]
    split <;> rfl
  · obtain ⟨err, rfl⟩ := Option.ne_none_iff_exists'.mp hr
    rw [backMarks, hw] at ht
    refine Told.of_notBack (.keptBack false :: swapMarks w) ht ?_ ?_ fun ok => ?_
    all_goals unfold swapMarks at *
    · rw [ht, stopMarks]
      split <;> split <;> rfl
    · split <;> simp
    · split <;> simp

theorem rollback_tells (hlog : w.log = []) :
    Tells sha256 (.rollback ops) (rollback ops) w := by
  refine safe_perform fun fails => ⟨trivial, ?_⟩
  rcases stat_step sha256 w .previous fails with ⟨err, hact⟩ | hact
  · rw [hact]
    exact iff_of_true (fun hm => hm.elim fun ok hok => by simp [hlog] at hok) fun _ =>
      ⟨by simp [hlog, leftUnkept], fun hm => by simp [hlog] at hm⟩
  · rw [hact]
    refine stop_tells (fun hgiven fails => ?_) fun hgiven => ?_
    · cases fails with
      | none => exact goBack_tells (by simp [World.mark, hlog, stopMarks, hgiven])
      | some err =>
        refine started_tells (fun r u hu => by cases r <;> exact hu)
          (fun _ ok _ => ⟨?_, fun hm => ?_⟩)
          fun hnot => absurd hgiven (by simp [ops.paired, hnot])
        · simp [World.mark, hlog, leftUnkept]
        · simp [World.mark, hlog] at hm
    · exact goBack_tells (by simp [hlog, stopMarks, hgiven])

/-! ## Any sequence of calls -/

theorem enter_tells : Tells sha256 k (program k) (enter sha256 w k) := by
  cases k with
  | rollback ops => exact rollback_tells rfl
  | apply verified candidate ops =>
    refine apply_tells rfl fun i hi hb => ?_
    cases candidate with
    | none => simp [enter, place] at hi
    | some bytes =>
      have hb' : w.disk.names .binary = some i := hb
      have hnext : w.disk.next = i := by simpa [enter, place] using hi
      have hlt := w.disk.fresh _ _ hb'
      omega

/-- Whenever a call has returned that stopped the gateway, it started it after
that and after the last change of the installed path, exactly when the steps
of its swaps went through. -/
theorem brought_up_iff {m : Moment Answer World Kind Result}
    (h : Machine.Reachable ((upgrades sha256).machine Installed) m)
    {c : Call Answer World Kind Result} (hc : m.call = some c) {r : Result}
    (hr : c.left = .done r) : BroughtUp m.now.log ↔ c.kind.SwapsThrough m.now.log := by
  obtain ⟨_, hcall⟩ := Shop.follows (S := fun _ => True) (I := fun _ _ _ => True)
    (Q := fun k _ _ => Told k) (fun _ _ => trivial)
    (fun w k t _ ht => by cases ht; exact ⟨trivial, enter_tells⟩) (fun _ _ _ _ => trivial) h
  have hsafe := (hcall c hc).2
  rw [hr] at hsafe
  exact hsafe

/-! ### A rollback that is refused its first rename -/

/-- A program of one byte, and another kept beside it. -/
def twoVersions : World where
  disk :=
    { names := fun n => if n = .binary then some 0 else if n = .previous then some 1 else none
      bytes := fun i => [UInt8.ofNat i]
      next := 2
      fresh := fun n i h => by
        split at h
        · cases h
          exact Nat.zero_lt_two
        · split at h
          · cases h
            exact Nat.one_lt_two
          · cases h }
  log := []
  versions := [[0], [1]]

/-- The gateway is stopped, the installed program linked aside, and the rename
of the previous one onto it refused. -/
def refusedRollback : List (Event Kind (Option Err)) :=
  .begin (.rollback allHooks) ::
    (List.replicate 4 (.next none) ++ [.next (some "operation not permitted"), .next none])

theorem refusedRollback_reachable : Machine.Reachable ((upgrades sumOfNothing).machine Installed)
    (((upgrades sumOfNothing).machine Installed).after ⟨twoVersions, none⟩ refusedRollback) :=
  Machine.reachable_after ⟨⟨⟨[0], by decide⟩, by decide⟩, rfl⟩ (by decide)

/-- The rollback has returned, and the gateway it stopped was not started. -/
theorem refused_rollback_leaves_it_down :
    ∃ m, Machine.Reachable ((upgrades sumOfNothing).machine Installed) m ∧
      (∃ c r, m.call = some c ∧ c.left = .done r) ∧ ¬ BroughtUp m.now.log := by
  refine ⟨_, refusedRollback_reachable, ⟨_, _, rfl, rfl⟩, fun hup => ?_⟩
  have hstarted := hup ⟨true, by decide⟩
  revert hstarted
  decide

theorem refused_rollback_brought_up_iff :
    let m := ((upgrades sumOfNothing).machine Installed).after ⟨twoVersions, none⟩ refusedRollback
    BroughtUp m.now.log ↔ (Kind.rollback allHooks).SwapsThrough m.now.log :=
  brought_up_iff refusedRollback_reachable (c := _) rfl (r := _) rfl

end LocalBase.Upgrade
