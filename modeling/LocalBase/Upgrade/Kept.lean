import LocalBase.Upgrade.Swap

/-!
# What the steps of a swap leave

One rule for each of the programs the calls are made of. `Aside` is the frame:
only one of the temporary names was worked on. A copy goes to a file of its
own, so the frame holds wherever it is cut short, and a `swapBack` is in one of
four states at every moment of it (`Swapping`).
-/

namespace LocalBase.Upgrade

open Program Files

variable {sha256 : Bytes → String} {I : World → Prop} {w t : World} {tmp : Name}

theorem safe_step {α : Type} {Q : α → World → Prop} {o : Op} {k : Answer o → Steps α}
    (h : ∀ fails, I (act sha256 w o fails).2 ∧
      (k (act sha256 w o fails).1).Safe (sem sha256) I Q (act sha256 w o fails).2) :
    (Prog.act o k).Safe (sem sha256) I Q w := by
  intro fails r t ht
  obtain ⟨rfl, rfl⟩ := Prod.mk.inj (Option.some.inj ht)
  exact h fails

theorem safe_perform {α : Type} {Q : α → World → Prop} {o : Op} {f : Answer o → Steps α}
    (h : ∀ fails, I (act sha256 w o fails).2 ∧
      (f (act sha256 w o fails).1).Safe (sem sha256) I Q (act sha256 w o fails).2) :
    (perform o >>= f).Safe (sem sha256) I Q w :=
  safe_step h

theorem rename_step (sha256 : Bytes → String) (w : World) (old new : Name) (fails : Option Err) :
    (∃ err, act sha256 w (.rename old new) fails = (some err, notRenamed w old new)) ∨
      ∃ d, w.disk.rename old new = some d ∧
        act sha256 w (.rename old new) fails = (none, renamed w old new d) := by
  cases fails with
  | some err => exact .inl ⟨err, rfl⟩
  | none =>
    cases hren : w.disk.rename old new with
    | none => exact .inl ⟨_, by delta act; simp only [hren]; rfl⟩
    | some d => exact .inr ⟨d, rfl, by delta act; simp only [hren]⟩

theorem link_step (sha256 : Bytes → String) (w : World) (old new : Name) (fails : Option Err) :
    (∃ err, act sha256 w (.link old new) fails = (some err, w)) ∨
      ∃ d, w.disk.link old new = some d ∧
        act sha256 w (.link old new) fails = (none, { w with disk := d }) := by
  cases fails with
  | some err => exact .inl ⟨err, rfl⟩
  | none =>
    cases hlink : w.disk.link old new with
    | none => exact .inl ⟨_, by delta act; simp only [hlink]; rfl⟩
    | some d => exact .inr ⟨d, rfl, by delta act; simp only [hlink]⟩

theorem read_step (sha256 : Bytes → String) (w : World) (n : Name) (fails : Option Err) :
    (∃ err, act sha256 w (.read n) fails = (.error err, w)) ∨
      ∃ bytes, w.file n = some bytes ∧ act sha256 w (.read n) fails = (.ok bytes, w) := by
  cases fails with
  | some err => exact .inl ⟨err, rfl⟩
  | none =>
    cases hfile : w.file n with
    | none => exact .inl ⟨_, by delta act; simp only [hfile]; rfl⟩
    | some bytes => exact .inr ⟨bytes, rfl, by delta act; simp only [hfile]⟩

theorem sum_step (sha256 : Bytes → String) (w : World) (n : Name) (fails : Option Err) :
    (∃ err, act sha256 w (.sum n) fails = (.error err, w)) ∨
      ∃ bytes, w.file n = some bytes ∧ act sha256 w (.sum n) fails = (.ok (sha256 bytes), w) := by
  cases fails with
  | some err => exact .inl ⟨err, rfl⟩
  | none =>
    cases hfile : w.file n with
    | none => exact .inl ⟨_, by delta act; simp only [hfile]; rfl⟩
    | some bytes => exact .inr ⟨bytes, rfl, by delta act; simp only [hfile]⟩

theorem create_step (sha256 : Bytes → String) (w : World) (n : Name) (fails : Option Err) :
    (∃ err, act sha256 w (.create n) fails = (.error err, w)) ∨
      act sha256 w (.create n) fails =
        (.ok w.disk.next, { w with disk := w.disk.create n [] }) := by
  cases fails with
  | some err => exact .inl ⟨err, rfl⟩
  | none =>
    cases hname : w.disk.names n with
    | none => exact .inr (by delta act; simp only [hname])
    | some i => exact .inl ⟨_, by delta act; simp only [hname]; rfl⟩

theorem stat_step (sha256 : Bytes → String) (w : World) (n : Name) (fails : Option Err) :
    (∃ err, act sha256 w (.stat n) fails = (some err, w)) ∨
      act sha256 w (.stat n) fails = (none, w) := by
  cases fails with
  | some err => exact .inl ⟨err, rfl⟩
  | none =>
    cases hname : w.disk.names n with
    | none => exact .inl ⟨_, by delta act; simp only [hname]; rfl⟩
    | some i => exact .inr (by delta act; simp only [hname])

theorem call_safe {Q : Option Err → World → Prop} {hook : Steps (Option Err)} {given : Bool}
    (hhook : hook.Safe (sem sha256) I Q w) (hskip : Q none w) :
    (call given hook).Safe (sem sha256) I Q w := by
  unfold call
  split
  · exact hhook
  · exact hskip

/-- Only `tmp` was worked on: every other name is of the file it was of, with
the bytes it had. -/
structure Aside (tmp : Name) (w t : World) : Prop where
  names : ∀ n, n ≠ tmp → t.disk.names n = w.disk.names n
  bytes : ∀ i, i < w.disk.next → t.disk.bytes i = w.disk.bytes i
  next : w.disk.next ≤ t.disk.next
  log : t.log = w.log
  versions : t.versions = w.versions

theorem Aside.refl : Aside tmp w w :=
  ⟨fun _ _ => rfl, fun _ _ => rfl, Nat.le_refl _, rfl, rfl⟩

theorem Aside.trans {u : World} (h : Aside tmp w t) (h' : Aside tmp t u) : Aside tmp w u :=
  ⟨fun n hn => (h'.names n hn).trans (h.names n hn),
    fun i hi => (h'.bytes i (Nat.lt_of_lt_of_le hi h.next)).trans (h.bytes i hi),
    Nat.le_trans h.next h'.next, h'.log.trans h.log, h'.versions.trans h.versions⟩

theorem Aside.file (h : Aside tmp w t) {n : Name} (hn : n ≠ tmp) : t.file n = w.file n := by
  show (t.disk.names n).map _ = (w.disk.names n).map _
  rw [h.names n hn]
  cases hi : w.disk.names n with
  | none => rfl
  | some i => rw [Option.map_some, Option.map_some, h.bytes i (w.disk.fresh n i hi)]

theorem aside_remove : Aside tmp w { w with disk := w.disk.remove tmp } :=
  ⟨fun _ hn => Disk.remove_names_of_ne hn, fun _ _ => rfl, Nat.le_refl _, rfl, rfl⟩

theorem aside_remove_step (sha256 : Bytes → String) (fails : Option Err) :
    Aside tmp w (act sha256 w (.remove tmp) fails).2 := by
  cases fails with
  | none => exact aside_remove
  | some err => exact Aside.refl

/-- A copy under way: its file is `out`, which is of no name but `tmp`. -/
structure Copying (tmp : Name) (out : Nat) (written : Bytes) (w t : World) : Prop where
  aside : Aside tmp w t
  new : w.disk.next ≤ out
  name : t.disk.names tmp = some out
  holds : t.disk.bytes out = written

theorem Copying.append {out : Nat} {written : Bytes} {b : UInt8}
    (h : Copying tmp out written w t) :
    Copying tmp out (written ++ [b]) w { t with disk := t.disk.append out [b] } where
  aside :=
    ⟨h.aside.names,
      fun i hi => (Disk.append_bytes_of_ne (Nat.ne_of_lt (Nat.lt_of_lt_of_le hi h.new))).trans
        (h.aside.bytes i hi),
      h.aside.next, h.aside.log, h.aside.versions⟩
  new := h.new
  name := h.name
  holds := by
    show (t.disk.append out [b]).bytes out = _
    rw [Disk.append_bytes_self, h.holds]

theorem copyBytes_safe {out : Nat} {bytes written : Bytes} (h : Copying tmp out written w t) :
    (copyBytes out bytes).Safe (sem sha256) (Aside tmp w)
      (fun r u => Aside tmp w u ∧ (r = none → Copying tmp out (written ++ bytes) w u)) t := by
  induction bytes generalizing t written with
  | nil => exact ⟨h.aside, fun _ => by rwa [List.append_nil]⟩
  | cons b rest ih =>
    refine safe_perform fun fails => ?_
    cases fails with
    | some err => exact ⟨h.aside, h.aside, fun he => absurd he (Option.some_ne_none _)⟩
    | none =>
      refine ⟨h.append.aside, ?_⟩
      rw [List.append_cons]
      exact ih h.append

/-- The temporary name is of the file that was to be kept, or of a new file
with its bytes. -/
def Links (src tmp : Name) (w t : World) : Prop :=
  t.file tmp = w.file src ∧
    (t.disk.names tmp = w.disk.names src ∨
      ∃ j, t.disk.names tmp = some j ∧ w.disk.next ≤ j)

theorem orRemove_safe {J : World → Prop} {Q : Option Err → World → Prop} {err : Err}
    (hJ : ∀ u, Aside tmp t u → J u) (hQ : ∀ u, Aside tmp t u → Q (some err) u) :
    (orRemove tmp (some err)).Safe (sem sha256) J Q t := by
  refine safe_perform fun fails => ?_
  have hgone : Aside tmp t _ := aside_remove_step sha256 fails
  exact ⟨hJ _ hgone, hQ _ hgone⟩

theorem copyFile_safe {src : Name} (hsrc : src ≠ tmp) (h : Aside tmp w t) :
    (copyFile src tmp).Safe (sem sha256) (Aside tmp w)
      (fun r u => Aside tmp w u ∧ (r = none → Links src tmp w u)) t := by
  refine safe_perform fun fails => ?_
  rcases read_step sha256 t src fails with ⟨err, hact⟩ | ⟨bytes, hread, hact⟩
  · rw [hact]
    exact ⟨h, h, fun he => absurd he (Option.some_ne_none _)⟩
  · rw [hact]
    refine ⟨h, safe_perform fun fails => ?_⟩
    rcases create_step sha256 t tmp fails with ⟨err, hact⟩ | hact
    · rw [hact]
      exact ⟨h, h, fun he => absurd he (Option.some_ne_none _)⟩
    · rw [hact]
      have hcopy : Copying tmp t.disk.next [] w { t with disk := t.disk.create tmp [] } :=
        ⟨⟨fun n hn => (Disk.create_names_of_ne hn).trans (h.names n hn),
            fun i hi => (Disk.create_bytes_of_lt (Nat.lt_of_lt_of_le hi h.next)).trans
              (h.bytes i hi),
            Nat.le_trans h.next (Nat.le_succ _), h.log, h.versions⟩,
          h.next, Disk.create_names_self, Disk.create_bytes_self⟩
      refine ⟨hcopy.aside, safe_bind ?_⟩
      refine (copyBytes_safe hcopy).mono (fun _ hu => hu) ?_
      rintro copied u ⟨hu, hdone⟩
      refine safe_perform fun fails => ⟨hu, ?_⟩
      show (orRemove tmp (copied.or fails)).Safe _ _ _ u
      cases hor : copied.or fails with
      | some err =>
        exact orRemove_safe (fun _ hu' => hu.trans hu')
          fun _ hu' => ⟨hu.trans hu', fun he => absurd he (Option.some_ne_none _)⟩
      | none =>
        have hc := hdone (Option.or_eq_none_iff.mp hor).1
        refine ⟨hu, fun _ => ⟨?_, .inr ⟨_, hc.name, hc.new⟩⟩⟩
        rw [World.file, Disk.file_eq_some hc.name, hc.holds, List.nil_append, ← hread]
        exact h.file hsrc

theorem linkOrCopy_safe {src : Name} (hsrc : src ≠ tmp) (h : Aside tmp w t) :
    (linkOrCopy src tmp).Safe (sem sha256) (Aside tmp w)
      (fun r u => Aside tmp w u ∧ (r = none → Links src tmp w u)) t := by
  refine safe_perform fun fails => ?_
  rcases link_step sha256 t src tmp fails with ⟨err, hact⟩ | ⟨d, hlink, hact⟩
  · rw [hact]
    exact ⟨h, copyFile_safe hsrc h⟩
  · rw [hact]
    obtain ⟨i, hold, hnone, hnames, hbytes, hnext⟩ := Disk.link_spec hlink
    have hself : d.names tmp = some i := by rw [hnames, Function.update_self]
    have hlinked : Aside tmp w { t with disk := d } :=
      h.trans ⟨fun n hn => by show d.names n = _; rw [hnames, Function.update_of_ne hn],
        fun i _ => by show d.bytes i = _; rw [hbytes], Nat.le_of_eq hnext.symm, rfl, rfl⟩
    refine ⟨hlinked, hlinked, fun _ => ⟨?_, .inl ?_⟩⟩
    · show d.file tmp = _
      rw [Disk.file_eq_some hself, hbytes, ← Disk.file_eq_some hold]
      exact h.file hsrc
    · show d.names tmp = _
      rw [hself, ← hold, h.names src hsrc]

/-! ## The two swaps -/

/-- What is there of the previous version after a `keepPrevious`: a second
name for the installed file, or a copy of it. -/
structure KeptPrevious (w t : World) : Prop where
  names : ∀ n, n ≠ .previous → n ≠ .previousTmp → t.disk.names n = w.disk.names n
  bytes : ∀ i, i < w.disk.next → t.disk.bytes i = w.disk.bytes i
  previous : t.file .previous = w.file .binary
  inode : t.disk.names .previous = w.disk.names .binary ∨
    ∃ j, t.disk.names .previous = some j ∧ w.disk.next ≤ j
  log : t.log = w.log
  versions : t.versions = w.versions

theorem file_of_names {n : Name} (hn : t.disk.names n = w.disk.names n)
    (hb : ∀ i, i < w.disk.next → t.disk.bytes i = w.disk.bytes i) : t.file n = w.file n := by
  show (t.disk.names n).map _ = (w.disk.names n).map _
  rw [hn]
  cases hi : w.disk.names n with
  | none => rfl
  | some i => rw [Option.map_some, Option.map_some, hb i (w.disk.fresh n i hi)]

theorem KeptPrevious.file (h : KeptPrevious w t) {n : Name} (h1 : n ≠ .previous)
    (h2 : n ≠ .previousTmp) : t.file n = w.file n :=
  file_of_names (h.names n h1 h2) h.bytes

/-- Before the rename nothing but the temporary name was touched; after it
`.previous` is the installed version. -/
def KeepingPrevious (w t : World) : Prop := Aside .previousTmp w t ∨ KeptPrevious w t

theorem keepPrevious_safe :
    keepPrevious.Safe (sem sha256) (KeepingPrevious w)
      (fun r t => (r = none → KeptPrevious w t) ∧ (r ≠ none → Aside .previousTmp w t)) w := by
  refine safe_perform fun fails => ?_
  have hrem : Aside .previousTmp w _ := aside_remove_step sha256 fails
  refine ⟨.inl hrem, safe_bind ?_⟩
  refine (linkOrCopy_safe (by decide) hrem).mono (fun _ h => .inl h) ?_
  rintro r t ⟨ht, hlinks⟩
  cases r with
  | some err => exact ⟨fun he => absurd he (Option.some_ne_none _), fun _ => ht⟩
  | none =>
    obtain ⟨hfile, hinode⟩ := hlinks rfl
    refine safe_perform fun fails => ?_
    rcases rename_step sha256 t .previousTmp .previous fails with
      ⟨err, hact⟩ | ⟨d, hren, hact⟩
    · rw [hact]
      exact ⟨.inl ht, orRemove_safe (fun _ hu => .inl (ht.trans hu)) fun _ hu =>
        ⟨fun he => absurd he (Option.some_ne_none _), fun _ => ht.trans hu⟩⟩
    · rw [hact]
      obtain ⟨i, htmp, hbytes, _, hself, hother, _⟩ := Disk.rename_spec hren
      have hsame : d.names .binary = t.disk.names .binary := hother _ (by decide) (by decide)
      have hkept : KeptPrevious w (renamed t .previousTmp .previous d) := by
        simp only [renamed, hsame, if_true]
        refine ⟨fun n h1 h2 => (hother n h2 h1).trans (ht.names n h2),
          fun i hi => by show d.bytes i = _; rw [hbytes]; exact ht.bytes i hi, ?_, ?_,
          ht.log, ht.versions⟩
        · rw [← hfile]
          show d.file .previous = t.disk.file .previousTmp
          rw [Disk.file_eq_some hself, Disk.file_eq_some htmp, hbytes]
        · show d.names .previous = _ ∨ ∃ j, d.names .previous = some j ∧ _
          rw [hself, ← htmp]
          exact hinode
      exact ⟨.inr hkept, fun _ => hkept, fun hne => absurd rfl hne⟩

/-- What going over to the previous version puts on the record. -/
def swapMarks (w : World) : List Mark :=
  if w.disk.names .previous = w.disk.names .binary then [] else [.changed]

/-- The last rename of a `swapBack`. -/
def backMarks (w : World) (ok : Bool) : List Mark := .keptBack ok :: (swapMarks w ++ w.log)

/-- The first rename of a `swapBack` went through: what was previous is
installed, and what was installed is under the temporary name. -/
structure SwappedIn (w t : World) : Prop where
  there : (w.file .previous).isSome
  binary : t.file .binary = w.file .previous
  inode : t.disk.names .binary = w.disk.names .previous
  versions : t.versions = w.versions

inductive Swapping (w t : World) : Prop
  | aside (h : Aside .rollbackTmp w t)
  | swapped (h : SwappedIn w t) (hp : t.file .previous = none ∨ t.file .previous = w.file .previous)
      (hl : t.log = swapMarks w ++ w.log)
  | notKept (h : SwappedIn w t) (hp : t.file .previous = none ∨ t.file .previous = w.file .previous)
      (hl : t.log = backMarks w false)
  | kept (h : SwappedIn w t) (hp : t.file .previous = w.file .binary)
      (hl : t.log = backMarks w true)

/-- How a `swapBack` ends: it swapped the two, or the installed path is
untouched, or it holds the previous version, which nothing is kept beside. -/
def SwapEnd (w : World) (r : Option Err) (t : World) : Prop :=
  (r = none ∧ SwappedIn w t ∧ t.file .previous = w.file .binary ∧ t.log = backMarks w true) ∨
    (r ≠ none ∧ Aside .rollbackTmp w t) ∨
    (r ≠ none ∧ SwappedIn w t ∧ t.log = backMarks w false)

theorem swapped_renamed {d : Disk Name UInt8} (ht : Aside .rollbackTmp w t)
    (hren : t.disk.rename .previous .binary = some d) :
    SwappedIn w (renamed t .previous .binary d) ∧
      ((renamed t .previous .binary d).file .previous = none ∨
        (renamed t .previous .binary d).file .previous = w.file .previous) ∧
      (renamed t .previous .binary d).log = swapMarks w ++ w.log ∧
      (renamed t .previous .binary d).file .rollbackTmp = t.file .rollbackTmp := by
  obtain ⟨i, hprev, hbytes, _, hself, hother, hold⟩ := Disk.rename_spec hren
  have hb := ht.names .binary (by decide)
  have hp := ht.names .previous (by decide)
  have hmarks : (renamed t .previous .binary d).log = swapMarks w ++ w.log := by
    rw [← ht.log]
    simp [renamed, swapMarks, hself, hb, ← hp, hprev]
  refine ⟨⟨?_, ?_, ?_, ht.versions⟩, ?_, hmarks, ?_⟩
  · rw [← ht.file (by decide), World.file, Disk.file_eq_some hprev]
    rfl
  · show d.file .binary = _
    rw [Disk.file_eq_some hself, hbytes, ← Disk.file_eq_some hprev]
    exact ht.file (by decide)
  · show d.names .binary = _
    rw [hself, ← hprev, hp]
  · rcases hold with hnone | ⟨_, rfl⟩
    · exact .inl (Disk.file_eq_none.mpr hnone)
    · exact .inr (ht.file (by decide))
  · show (d.names .rollbackTmp).map d.bytes = (t.disk.names .rollbackTmp).map t.disk.bytes
    rw [hother .rollbackTmp (by decide) (by decide), hbytes]

theorem kept_renamed {u : World} {d : Disk Name UInt8} (hu : SwappedIn w u)
    (hl : u.log = swapMarks w ++ w.log) (htmp : u.file .rollbackTmp = w.file .binary)
    (hren : u.disk.rename .rollbackTmp .previous = some d) :
    SwappedIn w (renamed u .rollbackTmp .previous d) ∧
      (renamed u .rollbackTmp .previous d).file .previous = w.file .binary ∧
      (renamed u .rollbackTmp .previous d).log = backMarks w true := by
  obtain ⟨i, hold, hbytes, _, hself, hother, _⟩ := Disk.rename_spec hren
  have hb : d.names .binary = u.disk.names .binary := hother _ (by decide) (by decide)
  refine ⟨⟨hu.there, ?_, hb.trans hu.inode, hu.versions⟩, ?_, ?_⟩
  · rw [← hu.binary]
    show (d.names .binary).map d.bytes = (u.disk.names .binary).map u.disk.bytes
    rw [hb, hbytes]
  · rw [← htmp]
    show d.file .previous = u.disk.file .rollbackTmp
    rw [Disk.file_eq_some hself, Disk.file_eq_some hold, hbytes]
  · simp [renamed, hb, hl, backMarks]

theorem swapBack_safe :
    swapBack.Safe (sem sha256) (Swapping w) (SwapEnd w) w := by
  refine safe_perform fun fails => ?_
  have hrem : Aside .rollbackTmp w _ := aside_remove_step sha256 fails
  refine ⟨.aside hrem, safe_bind ?_⟩
  refine (linkOrCopy_safe (by decide) hrem).mono (fun _ h => .aside h) ?_
  rintro r t ⟨ht, hlinks⟩
  cases r with
  | some err => exact .inr (.inl ⟨Option.some_ne_none _, ht⟩)
  | none =>
    obtain ⟨hfile, _⟩ := hlinks rfl
    refine safe_perform fun fails => ?_
    rcases rename_step sha256 t .previous .binary fails with
      ⟨err, hact⟩ | ⟨d, hren, hact⟩
    · rw [hact]
      exact ⟨.aside ht, orRemove_safe (fun _ hu => .aside (ht.trans hu)) fun _ hu =>
        .inr (.inl ⟨Option.some_ne_none _, ht.trans hu⟩)⟩
    · rw [hact]
      obtain ⟨hin, hprev, hlog, htmp⟩ := swapped_renamed ht hren
      refine ⟨.swapped hin hprev hlog, safe_step fun fails => ?_⟩
      rcases rename_step sha256 (renamed t .previous .binary d) .rollbackTmp .previous
        fails with ⟨err, hact⟩ | ⟨d', hren', hact⟩
      · rw [hact]
        have hback : (notRenamed (renamed t .previous .binary d) .rollbackTmp .previous).log =
            backMarks w false := by
          simp [notRenamed, backMarks, hlog]
        have hsame : SwappedIn w
            (notRenamed (renamed t .previous .binary d) .rollbackTmp .previous) :=
          ⟨hin.there, hin.binary, hin.inode, hin.versions⟩
        exact ⟨.notKept hsame hprev hback, .inr (.inr ⟨Option.some_ne_none _, hsame, hback⟩)⟩
      · rw [hact]
        obtain ⟨hin', hprev', hlog'⟩ := kept_renamed hin hlog (htmp.trans hfile) hren'
        exact ⟨.kept hin' hprev' hlog', .inl ⟨rfl, hin', hprev', hlog'⟩⟩

end LocalBase.Upgrade
