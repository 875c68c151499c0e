import LocalBase.Upgrade.Kept

/-!
# An upgrade never leaves a broken program

The installed path holds a complete file at every moment of every call, and
`.previous` is complete whenever it is there. Wherever a call is cut off, what
it leaves is what the next one may begin on, so this is an invariant of any
sequence of calls.
-/

namespace LocalBase.Upgrade

open Program Files

variable {sha256 : Bytes → String} {b w t : World} {k : Kind} {α : Type}
  {f : Option Err → Steps α}

/-- What is installed and what is kept are complete versions. -/
def Complete (w : World) : Prop :=
  (∃ bytes, w.file .binary = some bytes ∧ bytes ∈ w.versions) ∧
    ∀ bytes, w.file .previous = some bytes → bytes ∈ w.versions

/-- What the installed path may hold during a call: what it held before, or
what the call puts there. -/
def Kind.MayHold (sha256 : Bytes → String) (k : Kind) (before : World) (bytes : Bytes) : Prop :=
  before.file .binary = some bytes ∨
    match k with
    | .apply verified _ _ => sha256 bytes = verified
    | .rollback _ => before.file .previous = some bytes

/-- A version did not start, and the swap back after that went through. -/
def SwappedBack (log : List Mark) : Prop :=
  ∃ later earlier, log = later ++ .keptBack true :: earlier ∧ .started false ∈ earlier

theorem not_swappedBack {log : List Mark} (h : .started false ∉ log) : ¬ SwappedBack log := by
  rintro ⟨later, earlier, rfl, hmem⟩
  exact h (List.mem_append_right _ (List.mem_cons_of_mem _ hmem))

theorem swappedBack_of_cons {m : Mark} {log : List Mark} (hm : m ≠ .keptBack true)
    (h : SwappedBack (m :: log)) : SwappedBack log := by
  obtain ⟨later, earlier, heq, hmem⟩ := h
  cases later with
  | nil =>
    rw [List.nil_append, List.cons.injEq] at heq
    exact absurd heq.1 hm
  | cons x later =>
    rw [List.cons_append, List.cons.injEq] at heq
    exact ⟨later, earlier, heq.2, hmem⟩

/-- What holds at every moment of a call that began on `b`. -/
structure Intact (sha256 : Bytes → String) (k : Kind) (b t : World) : Prop where
  complete : Complete t
  held : ∀ bytes, t.file .binary = some bytes → k.MayHold sha256 b bytes
  back : SwappedBack t.log → t.file .binary = b.file .binary

theorem Intact.mark (h : Intact sha256 k b w) {m : Mark} (hm : m ≠ .keptBack true) :
    Intact sha256 k b (w.mark m) :=
  ⟨h.complete, h.held, fun hback => h.back (swappedBack_of_cons hm hback)⟩

/-- Neither of the two files changed, and nothing was put on the record that
tells of a swap back. -/
theorem Intact.same (h : Intact sha256 k b w) (hb : t.file .binary = w.file .binary)
    (hp : t.file .previous = w.file .previous) (hl : t.log = w.log)
    (hv : t.versions = w.versions) : Intact sha256 k b t := by
  refine ⟨⟨?_, ?_⟩, ?_, ?_⟩
  · rw [hb, hv]
    exact h.complete.1
  · rw [hp, hv]
    exact h.complete.2
  · rw [hb]
    exact h.held
  · rw [hb, hl]
    exact h.back

theorem Intact.aside {tmp : Name} (h : Intact sha256 k b w) (ht : Aside tmp w t)
    (h1 : Name.binary ≠ tmp) (h2 : Name.previous ≠ tmp) : Intact sha256 k b t :=
  h.same (ht.file h1) (ht.file h2) ht.log ht.versions

theorem Intact.keepingPrevious (h : Intact sha256 k b w) (ht : KeepingPrevious w t) :
    Intact sha256 k b t := by
  rcases ht with ht | ht
  · exact h.aside ht (by decide) (by decide)
  · have hb : t.file .binary = w.file .binary := ht.file (by decide) (by decide)
    refine ⟨⟨?_, ?_⟩, ?_, ?_⟩
    · rw [hb, ht.versions]
      exact h.complete.1
    · intro bytes hbytes
      obtain ⟨installed, hi, hmem⟩ := h.complete.1
      rw [ht.previous, hi] at hbytes
      cases hbytes
      rwa [ht.versions]
    · rw [hb]
      exact h.held
    · rw [hb, ht.log]
      exact h.back

/-- A swap in which the previous version may be installed, and is the one from
before the call when a version did not start. -/
theorem Intact.swapping (h : Intact sha256 k b w)
    (hheld : ∀ bytes, w.file .previous = some bytes → k.MayHold sha256 b bytes)
    (hback : .started false ∈ w.log → w.file .previous = b.file .binary)
    (ht : Swapping w t) : Intact sha256 k b t := by
  -- The previous version is in place, with something complete beside it.
  have hin (hs : SwappedIn w t) (hp : ∀ bytes, t.file .previous = some bytes →
      w.file .previous = some bytes ∨ w.file .binary = some bytes)
      (hl : ∃ ms, .started false ∉ ms ∧ t.log = ms ++ w.log) : Intact sha256 k b t := by
    refine ⟨⟨?_, ?_⟩, ?_, ?_⟩
    · obtain ⟨bytes, hbytes⟩ := Option.isSome_iff_exists.mp hs.there
      rw [hs.binary, hs.versions]
      exact ⟨bytes, hbytes, h.complete.2 bytes hbytes⟩
    · intro bytes hbytes
      rw [hs.versions]
      rcases hp bytes hbytes with hprev | hbin
      · exact h.complete.2 bytes hprev
      · obtain ⟨installed, hi, hmem⟩ := h.complete.1
        rw [hi] at hbin
        cases hbin
        exact hmem
    · rw [hs.binary]
      exact hheld
    · intro hswapped
      obtain ⟨ms, hms, hlog⟩ := hl
      rw [hs.binary]
      by_cases hfailed : .started false ∈ w.log
      · exact hback hfailed
      · refine absurd hswapped (not_swappedBack ?_)
        rw [hlog, List.mem_append, not_or]
        exact ⟨hms, hfailed⟩
  have hmarks : .started false ∉ swapMarks w := by
    unfold swapMarks
    split <;> simp
  cases ht with
  | aside ht => exact h.aside ht (by decide) (by decide)
  | swapped hs hp hl =>
    refine hin hs (fun bytes hbytes => ?_) ⟨swapMarks w, hmarks, hl⟩
    rcases hp with hp | hp
    · rw [hp] at hbytes
      cases hbytes
    · exact .inl (hp ▸ hbytes)
  | notKept hs hp hl =>
    refine hin hs (fun bytes hbytes => ?_) ⟨.keptBack false :: swapMarks w, ?_, hl⟩
    · rcases hp with hp | hp
      · rw [hp] at hbytes
        cases hbytes
      · exact .inl (hp ▸ hbytes)
    · rw [List.mem_cons, not_or]
      exact ⟨by decide, hmarks⟩
  | kept hs hp hl =>
    refine hin hs (fun bytes hbytes => .inr (hp ▸ hbytes)) ⟨.keptBack true :: swapMarks w, ?_, hl⟩
    rw [List.mem_cons, not_or]
    exact ⟨by decide, hmarks⟩

/-! ## The programs -/

variable {given : Bool} {ops : Ops}

/-- From here on, whatever happens, every moment is intact. -/
abbrev Stays {α : Type} (sha256 : Bytes → String) (k : Kind) (b : World) (p : Steps α)
    (w : World) : Prop :=
  p.Safe (sem sha256) (Intact sha256 k b) (fun _ _ => True) w

theorem start_safe (h : Intact sha256 k b w)
    (hf : ∀ fails, Stays sha256 k b (f fails) (w.mark (.started fails.isNone)))
    (hskip : Stays sha256 k b (f none) w) : Stays sha256 k b (call given start >>= f) w :=
  safe_bind (call_safe (safe_step fun fails => ⟨h.mark (by simp), hf fails⟩) hskip)

theorem started_safe (h : Intact sha256 k b w)
    (hf : ∀ r u, Stays sha256 k b (f r) u) : Stays sha256 k b (call given start >>= f) w :=
  start_safe h (fun _ => hf _ _) (hf _ _)

theorem hook_safe {hook : Steps (Option Err)} (hhook : Stays sha256 k b hook w)
    (hf : ∀ r u, Stays sha256 k b (f r) u) :
    Stays sha256 k b (call given hook >>= f) w :=
  safe_bind (call_safe (hhook.mono (fun _ h => h) fun r u _ => hf r u) (hf _ _))

theorem restore_safe {failure : Failure} (h : Intact sha256 k b w) :
    Stays sha256 k b (restore ops failure) w :=
  started_safe h fun r _ => by cases r <;> trivial

theorem undo_safe {f : Option Err → Steps Result} (h : Intact sha256 k b w)
    (hp : w.file .previous = b.file .binary)
    (hf : ∀ r u, Intact sha256 k b u → Stays sha256 k b (f r) u) :
    Stays sha256 k b (swapBack >>= f) w := by
  have hswap {u : World} (hu : Swapping w u) : Intact sha256 k b u :=
    h.swapping (fun bytes hbytes => .inl (hp ▸ hbytes)) (fun _ => hp) hu
  refine safe_bind ((swapBack_safe.at_end (.aside .refl)).mono (fun _ => hswap) ?_)
  rintro r u ⟨_, hu⟩
  exact hf r u (hswap hu)

theorem smokeTest_safe {failed : Err → Failure} (h : Intact sha256 k b w) :
    Stays sha256 k b (smokeTest ops failed) w :=
  hook_safe (safe_step fun _ => ⟨h, trivial⟩) fun r _ => by cases r <;> trivial

theorem startNew_safe (h : Intact sha256 k b w) (hp : w.file .previous = b.file .binary) :
    Stays sha256 k b (startNew ops) w := by
  refine start_safe h (fun fails => ?_) (smokeTest_safe h)
  have hmarked : Intact sha256 k b (w.mark (.started fails.isNone)) := h.mark (by simp)
  cases fails with
  | none => exact smokeTest_safe hmarked
  | some err =>
    refine undo_safe hmarked hp fun r u hu => ?_
    cases r with
    | some rerr => trivial
    | none => exact started_safe hu fun r _ => by cases r <;> trivial

theorem smokeOlder_safe (h : Intact sha256 k b w) : Stays sha256 k b (smokeOlder ops) w := by
  refine safe_bind (call_safe (safe_step fun fails => ⟨h, ?_⟩) (smokeTest_safe h))
  cases fails with
  | some err => trivial
  | none => exact smokeTest_safe h

theorem startOlder_safe (h : Intact sha256 k b w) (hp : w.file .previous = b.file .binary) :
    Stays sha256 k b (startOlder ops) w := by
  refine start_safe h (fun fails => ?_) (smokeOlder_safe h)
  have hmarked : Intact sha256 k b (w.mark (.started fails.isNone)) := h.mark (by simp)
  cases fails with
  | none => exact smokeOlder_safe hmarked
  | some err =>
    refine undo_safe hmarked hp fun r u hu => ?_
    cases r with
    | some rerr => trivial
    | none => exact started_safe hu fun r _ => by cases r <;> trivial

theorem Intact.replaced {verified : String} {candidate : Option Bytes} {d : Disk Name UInt8}
    {bytes : Bytes} (h : Intact sha256 (.apply verified candidate ops) b w)
    (hc : w.file .candidate = some bytes) (hsum : sha256 bytes = verified)
    (hmem : bytes ∈ w.versions) (hfresh : .started false ∉ w.log)
    (hren : w.disk.rename .candidate .binary = some d) :
    Intact sha256 (.apply verified candidate ops) b (renamed w .candidate .binary d) ∧
      (renamed w .candidate .binary d).file .previous = w.file .previous := by
  obtain ⟨i, hold, hbytes, _, hself, hother, _⟩ := Disk.rename_spec hren
  have hp : d.file .previous = w.file .previous := by
    show (d.names .previous).map d.bytes = (w.disk.names .previous).map w.disk.bytes
    rw [hother _ (by decide) (by decide), hbytes]
  have hb : d.file .binary = some bytes := by
    rw [Disk.file_eq_some hself, hbytes, ← Disk.file_eq_some hold]
    exact hc
  refine ⟨⟨⟨⟨bytes, hb, hmem⟩, ?_⟩, ?_, ?_⟩, hp⟩
  · intro kept hkept
    exact h.complete.2 kept (hp ▸ hkept)
  · intro held hheld
    cases hb.symm.trans hheld
    exact .inr hsum
  · intro hswapped
    refine absurd hswapped (not_swappedBack ?_)
    simp only [renamed]
    split <;> simpa using hfresh

theorem stop_fresh (hlog : b.log = []) (fails : Option Err) :
    .started false ∉ (act sha256 b .stop fails).2.log := by
  show Mark.started false ∉ Mark.stopped _ :: b.log
  simp [hlog]

section
variable {verified : String} {candidate : Option Bytes}

theorem replaceBinary_safe (h : Intact sha256 (.apply verified candidate ops) b w)
    (hb : w.file .binary = b.file .binary) (hfresh : .started false ∉ w.log)
    (hv : ∀ bytes, w.file .candidate = some bytes → sha256 bytes = verified →
      bytes ∈ w.versions) :
    Stays sha256 (.apply verified candidate ops) b (replaceBinary verified ops) w := by
  refine safe_perform fun fails => ?_
  rcases sum_step sha256 w .candidate fails with ⟨err, hact⟩ | ⟨bytes, hbytes, hact⟩
  · rw [hact]
    exact ⟨h, restore_safe h⟩
  · rw [hact]
    refine ⟨h, ?_⟩
    show Stays _ _ _ (if sha256 bytes ≠ verified then restore ops .tampered else _) w
    split
    · exact restore_safe h
    · next hsum =>
      have hkeep {u : World} (hu : KeepingPrevious w u) := h.keepingPrevious hu
      refine safe_bind ((keepPrevious_safe.at_end (.inl .refl)).mono (fun _ => hkeep) ?_)
      rintro r u ⟨⟨hkept, _⟩, hu⟩
      cases r with
      | some err => exact restore_safe (hkeep hu)
      | none =>
        have hk := hkept rfl
        have hcand : u.file .candidate = some bytes :=
          (hk.file (by decide) (by decide)).trans hbytes
        have hmem : bytes ∈ u.versions := by
          rw [hk.versions]
          exact hv bytes hbytes (not_not.mp hsum)
        refine safe_perform fun fails => ?_
        rcases rename_step sha256 u .candidate .binary fails with ⟨err, hact⟩ | ⟨d, hren, hact⟩
        · rw [hact]
          have hsame : Intact sha256 (.apply verified candidate ops) b
              (notRenamed u .candidate .binary) := (hkeep hu).same rfl rfl rfl rfl
          exact ⟨hsame, restore_safe hsame⟩
        · rw [hact]
          obtain ⟨hin, hprev⟩ := (hkeep hu).replaced hcand (not_not.mp hsum) hmem
            (hk.log ▸ hfresh) hren
          exact ⟨hin, startNew_safe hin (hprev.trans (hk.previous.trans hb))⟩

theorem apply_safe (h : Intact sha256 (.apply verified candidate ops) b b) (hlog : b.log = [])
    (hv : ∀ bytes, b.file .candidate = some bytes → sha256 bytes = verified →
      bytes ∈ b.versions) :
    Stays sha256 (.apply verified candidate ops) b (apply verified ops) b := by
  have hbody : Stays sha256 (.apply verified candidate ops) b (applyBody verified ops) b := by
    refine safe_bind (call_safe (safe_step fun fails => ?_) ?_)
    · have hmarked : Intact sha256 (.apply verified candidate ops) b
          (b.mark (.stopped fails.isNone)) := h.mark (by simp)
      refine ⟨hmarked, ?_⟩
      cases fails with
      | some err => exact started_safe hmarked fun r _ => by cases r <;> trivial
      | none => exact replaceBinary_safe hmarked rfl (stop_fresh hlog none) hv
    · exact replaceBinary_safe h rfl (by simp [hlog]) hv
  refine safe_bind ((hbody.at_end h).mono (fun _ hu => hu) ?_)
  rintro r u ⟨_, hu⟩
  refine safe_perform fun fails => ?_
  cases fails with
  | some err => exact ⟨hu, trivial⟩
  | none =>
    have haside : Aside .candidate u { u with disk := u.disk.remove .candidate } :=
      aside_remove
    exact ⟨hu.aside haside (by decide) (by decide), trivial⟩

end

theorem goBack_safe (h : Intact sha256 (.rollback ops) b w)
    (hp : w.file .previous = b.file .previous) (hb : w.file .binary = b.file .binary)
    (hfresh : .started false ∉ w.log) : Stays sha256 (.rollback ops) b (goBack ops) w := by
  have hin {t : World} (ht : Swapping w t) : Intact sha256 (.rollback ops) b t :=
    h.swapping (fun bytes hbytes => .inr (hp ▸ hbytes)) (fun hm => absurd hm hfresh) ht
  refine safe_bind ((swapBack_safe.at_end (.aside .refl)).mono (fun _ => hin) ?_)
  rintro r t ⟨hend, ht⟩
  cases r with
  | some err => trivial
  | none =>
    rcases hend with ⟨_, _, hprev, _⟩ | ⟨hne, _⟩ | ⟨hne, _⟩
    · exact startOlder_safe (hin ht) (hprev.trans hb)
    · exact absurd rfl hne
    · exact absurd rfl hne

theorem rollback_safe (h : Intact sha256 (.rollback ops) b b) (hlog : b.log = []) :
    Stays sha256 (.rollback ops) b (rollback ops) b := by
  refine safe_perform fun fails => ?_
  rcases stat_step sha256 b .previous fails with ⟨err, hact⟩ | hact
  · rw [hact]
    exact ⟨h, trivial⟩
  · rw [hact]
    refine ⟨h, safe_bind (call_safe (safe_step fun fails => ?_) ?_)⟩
    · have hmarked : Intact sha256 (.rollback ops) b (b.mark (.stopped fails.isNone)) :=
        h.mark (by simp)
      refine ⟨hmarked, ?_⟩
      cases fails with
      | some err => exact started_safe hmarked fun r _ => by cases r <;> trivial
      | none => exact goBack_safe hmarked rfl rfl (stop_fresh hlog none)
    · exact goBack_safe h rfl rfl (by simp [hlog])

/-! ## Any sequence of calls -/

theorem place_file {candidate : Option Bytes} {n : Name} (hn : n ≠ .candidate) :
    (place w.disk candidate).file n = w.file n := by
  cases candidate with
  | none =>
    have haside : Aside .candidate w { w with disk := w.disk.remove .candidate } := aside_remove
    exact haside.file hn
  | some bytes =>
    exact file_of_names (w := w) (t := { w with disk := w.disk.create .candidate bytes })
      (Disk.create_names_of_ne hn) fun i hi => Disk.create_bytes_of_lt hi

theorem enter_files (sha256 : Bytes → String) (w : World) (k : Kind) :
    (enter sha256 w k).file .binary = w.file .binary ∧
      (enter sha256 w k).file .previous = w.file .previous := by
  cases k with
  | apply verified candidate ops => exact ⟨place_file (by decide), place_file (by decide)⟩
  | rollback ops => exact ⟨rfl, rfl⟩

theorem enter_complete (h : Complete w) : Complete (enter sha256 w k) := by
  have hsub (bytes : Bytes) (hb : bytes ∈ w.versions) :
      bytes ∈ (enter sha256 w k).versions := by
    cases k with
    | apply verified candidate ops => exact List.mem_append_left _ hb
    | rollback ops => exact hb
  obtain ⟨hb, hp⟩ := enter_files sha256 w k
  obtain ⟨⟨bytes, hbytes, hmem⟩, hprev⟩ := h
  refine ⟨⟨bytes, hb.trans hbytes, hsub _ hmem⟩, fun kept hkept => hsub _ (hprev kept ?_)⟩
  rw [← hp, hkept]

theorem enter_safe (h : Complete w) : Intact sha256 k (enter sha256 w k) (enter sha256 w k) ∧
    Stays sha256 k (enter sha256 w k) (program k) (enter sha256 w k) := by
  have hlog : (enter sha256 w k).log = [] := by cases k <;> rfl
  have hin : Intact sha256 k (enter sha256 w k) (enter sha256 w k) :=
    ⟨enter_complete h, fun _ hbytes => .inl hbytes, fun _ => rfl⟩
  refine ⟨hin, ?_⟩
  cases k with
  | rollback ops => exact rollback_safe hin hlog
  | apply verified candidate ops =>
    refine apply_safe hin hlog fun bytes hbytes hsum => List.mem_append_right _ ?_
    cases candidate with
    | none => simp [enter, place, World.file, Disk.file] at hbytes
    | some placed =>
      have hplaced : placed = bytes := by
        simpa [enter, place, World.file, Disk.file] using hbytes
      simp [hplaced, hsum]

/-- However the calls follow each other, whatever each of their steps comes
to and wherever they are cut off: what is installed is one complete file, and
what is kept as `.previous` is one; the installed one is from before the call,
or it is the candidate that was verified, or the previous version a rollback
goes to; and once a version that did not start was swapped back, it is the one
from before the call. -/
theorem always_a_whole_program {m : Moment Answer World Kind Result}
    (h : Machine.Reachable ((upgrades sha256).machine Installed) m) :
    Complete m.now ∧ ∀ c, m.call = some c →
      (∃ bytes, m.now.file .binary = some bytes ∧ c.kind.MayHold sha256 c.before bytes) ∧
        (SwappedBack m.now.log → m.now.file .binary = c.before.file .binary) := by
  obtain ⟨hsound, hcall⟩ := Shop.follows (S := Complete) (I := Intact sha256)
    (Q := fun _ _ _ _ => True)
    (fun w hw => ⟨hw.1.imp fun bytes hbytes => ⟨hbytes, by rw [hw.2]; simp [hbytes]⟩,
      fun bytes hbytes => by rw [hw.2]; simp [hbytes]⟩)
    (fun w k t hw ht => by cases ht; exact enter_safe hw)
    (fun k b w hw => hw.complete) h
  refine ⟨hsound, fun c hc => ?_⟩
  obtain ⟨hin, _⟩ := hcall c hc
  obtain ⟨bytes, hbytes, _⟩ := hin.complete.1
  exact ⟨⟨bytes, hbytes, hin.held bytes hbytes⟩, hin.back⟩

/-! ### An upgrade to a file that does not start -/

/-- A program of one byte, with nothing kept beside it. -/
def oneByte : World where
  disk :=
    { names := fun n => if n = .binary then some 0 else none
      bytes := fun _ => [1]
      next := 1
      fresh := fun n i h => by
        split at h
        · cases h
          exact Nat.zero_lt_one
        · cases h }
  log := []
  versions := [[1]]

def allHooks : Ops := ⟨true, true, true, true, rfl⟩

/-- The sum of no bytes at all, the only ones summed here. -/
def sumOfNothing : Bytes → String :=
  fun _ => "e3b0c44298fc1c149afbf4c8996fb92427ae41e4649b934ca495991b7852b855"

/-- The empty candidate is swapped in, does not start, and is swapped back. -/
def emptyUpgrade : List (Event Kind (Option Err)) :=
  .begin (.apply (sumOfNothing []) (some []) allHooks) ::
    (List.replicate 6 (.next none) ++ [.next (some "exit status 1")] ++
      List.replicate 4 (.next none))

theorem empty_upgrade_swapped_back :
    let m := ((upgrades sumOfNothing).machine Installed).after ⟨oneByte, none⟩ emptyUpgrade
    Complete m.now ∧ ∀ c, m.call = some c →
      (∃ bytes, m.now.file .binary = some bytes ∧ c.kind.MayHold sumOfNothing c.before bytes) ∧
        (SwappedBack m.now.log → m.now.file .binary = c.before.file .binary) :=
  always_a_whole_program (Machine.reachable_after
    ⟨⟨⟨[1], by decide⟩, by decide⟩, rfl⟩ (by decide))

end LocalBase.Upgrade
