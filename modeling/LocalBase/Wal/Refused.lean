import Mathlib.Data.List.TakeWhile
import LocalBase.Wal.Owner

/-!
# No process is refused its own commits

The record tells the truth as long as nobody writes it from what is no longer
so. It is written from what a process saw before, and a `-wal` may take commits
before anybody has recorded it. `Calm` says what the steps of a run keep clear
of: the temporary file is renamed as this process wrote it, a process does not
write to a file that is the record by then, a clean stop is recorded only while
no commits are waiting, and nothing is committed to a `-wal` that the record
there is does not name.
-/

namespace LocalBase.Wal

open Program

variable {p q : Pid} {w t : World} {o : OwnerRecord} {c : Choice} {α : Type}
  {f : Option Err → Steps α}

/-- What the record says of the `-wal`, if there is one, does not exclude this
one. -/
def namesWal (w : World) : Bool :=
  match w.record with
  | none => true
  | some text => ((readOwner text).map fun o =>
    o.wal = noTelling || (w.wal.map fun wal => wal.id.text) = some o.wal).getD false

def Choice.committed : Choice → Bool
  | .commits _ => true
  | _ => false

def Calm (_ : Pid) (w : World) (o : Op) (c : Choice) : Prop :=
  match o with
  | .renameTmp o => w.tmp.map TextFile.text = some o.text ∧
      (o.wal = ownerCleanStop → w.empty = true)
  | .fillTmp i _ => w.owner.map TextFile.number ≠ some i
  | .migrate | .commit => c.committed = true → namesWal w = true
  | _ => True

instance (p : Pid) (w : World) (o : Op) (c : Choice) : Decidable (Calm p w o c) :=
  match o with
  | .renameTmp o => inferInstanceAs
      (Decidable (w.tmp.map TextFile.text = some o.text ∧
        (o.wal = ownerCleanStop → w.empty = true)))
  | .fillTmp i _ => inferInstanceAs (Decidable (w.owner.map TextFile.number ≠ some i))
  | .migrate => inferInstanceAs (Decidable (c.committed = true → namesWal w = true))
  | .commit => inferInstanceAs (Decidable (c.committed = true → namesWal w = true))
  | .check | .walIsEmpty | .connect | .fileToken | .setApplicationID | .checkpoint | .walID
  | .readOwnerFile | .truncateTmp | .removeTmp | .disconnect | .walExists =>
    isTrue trivial

/-! ## The record's text -/

theorem parseUint_digits {n : Nat} (h : n < 4294967296) :
    parseUint (Nat.toDigits 10 n) = some n := by
  have hne : Nat.toDigits 10 n ≠ [] := Nat.toDigits_ne_nil
  have hall : (Nat.toDigits 10 n).all Char.isDigit = true :=
    List.all_eq_true.mpr fun c hc => Nat.isDigit_of_mem_toDigits (by decide) (by decide) hc
  simp [parseUint, hne, hall, Nat.ofDigitChars_ten_toDigits, h]

theorem readOwner_text (h : o.token < 4294967296) : readOwner o.text = some o := by
  have hlist : o.text.toList = Nat.toDigits 10 o.token ++ ' ' :: o.wal.toList := by
    simp [OwnerRecord.text, String.toList_append, Nat.toString_eq_repr]
  have hdigits : ∀ c ∈ Nat.toDigits 10 o.token, decide (c ≠ ' ') = true := by
    intro c hc
    have hd := Nat.isDigit_of_mem_toDigits (by decide) (by decide) hc
    refine decide_eq_true ?_
    rintro rfl
    exact absurd hd (by decide)
  have htake : o.text.toList.takeWhile (· ≠ ' ') = Nat.toDigits 10 o.token := by
    rw [hlist, List.takeWhile_append_of_pos hdigits]
    simp
  have hdrop : o.text.toList.dropWhile (· ≠ ' ') = ' ' :: o.wal.toList := by
    rw [hlist, List.dropWhile_append_of_pos hdigits]
    simp
  simp only [readOwner, htake, hdrop, parseUint_digits h, Option.map_some, String.ofList_toList]

/-! ## The world -/

structure Good (w : World) : Prop where
  owner : ∀ text, w.record = some text →
    ∃ o, readOwner text = some o ∧ o.token = w.token ∧ w.token ≠ 0
  names : w.empty = false → namesWal w = true
  token : w.token ≠ 0 → w.applicationID = w.token
  small : w.applicationID < 4294967296 ∧ w.token < 4294967296
  held : w.attached ≠ [] → w.wal.isSome

theorem Good.not_refused (h : Good w) : checkWALBelongs w = false := by
  unfold checkWALBelongs
  split
  · next wal text hwal howner =>
    cases hf : wal.filled with
    | false => rfl
    | true =>
      obtain ⟨o, ho, htoken, _⟩ := h.owner text howner
      have hnames := h.names (by simp [World.empty, hwal, hf])
      simp only [namesWal, howner, ho, hwal, Option.map_some, Option.getD_some, Bool.or_eq_true,
        decide_eq_true_eq, Option.some.injEq] at hnames
      simp only [ho, Bool.true_and, htoken, ne_eq, not_true, decide_false, Bool.false_or]
      obtain hno | hid := hnames
      · simp [hno]
      · simp [hid]
  · rfl

/-- What a process relies on: a token in the header stays, and while it is
attached so do its connection and the `-wal`. -/
structure Later (p : Pid) (w t : World) : Prop where
  token : w.token ≠ 0 → t.token = w.token
  attached : p ∈ w.attached → p ∈ t.attached ∧
    (t.wal.map fun wal => wal.id) = w.wal.map fun wal => wal.id

theorem Later.refl (p : Pid) (w : World) : Later p w w := ⟨fun _ => rfl, fun h => ⟨h, rfl⟩⟩

theorem Later.trans {u : World} (h : Later p w t) (h' : Later p t u) : Later p w u where
  token hw := (h'.token (by rw [h.token hw]; exact hw)).trans (h.token hw)
  attached hw :=
    have ht := h.attached hw
    have hu := h'.attached ht.1
    ⟨hu.1, hu.2.trans ht.2⟩

/-! ## Single operations -/

theorem Good.tmp (h : Good w) (tmp : Option TextFile) (n : Nat) :
    Good { w with tmp := tmp, opened := n } :=
  ⟨h.owner, h.names, h.token, h.small, h.held⟩

theorem Later.tmp (p : Pid) (w : World) (tmp : Option TextFile) (n : Nat) :
    Later p w { w with tmp := tmp, opened := n } :=
  ⟨fun _ => rfl, fun h => ⟨h, rfl⟩⟩

theorem truncated_eq (w : World) :
    ∃ tmp n, w.truncated.2 = { w with tmp := tmp, opened := n } := by
  unfold World.truncated
  split
  · exact ⟨_, w.opened, rfl⟩
  · exact ⟨_, _, rfl⟩

/-- A process that does not write to the record writes to the temporary file, or
to one that has no name any more. -/
theorem written_eq {i : Nat} (h : w.owner.map TextFile.number ≠ some i) (text : String) :
    w.written i text = { w with tmp := w.tmp.map (.write i text) } := by
  have howner : w.owner.map (.write i text) = w.owner := by
    cases hw : w.owner with
    | none => rfl
    | some file =>
      have hne : file.number ≠ i := fun he => h (by rw [hw, Option.map_some, he])
      rw [Option.map_some, TextFile.write, if_neg hne]
  rw [World.written, howner]

theorem committed_id (w : World) (moved : Bool) :
    ((w.committed moved).wal.map fun wal => wal.id) = w.wal.map fun wal => wal.id := by
  unfold World.committed
  cases w.wal <;> rfl

theorem namesWal_congr (howner : t.record = w.record)
    (hid : (t.wal.map fun wal => wal.id) = w.wal.map fun wal => wal.id) :
    namesWal t = namesWal w := by
  have htext : (t.wal.map fun wal => wal.id.text) = w.wal.map fun wal => wal.id.text := by
    have hmap := congrArg (Option.map FileID.text) hid
    simpa [Option.map_map, Function.comp_def] using hmap
  unfold namesWal
  rw [howner, htext]

theorem Good.moved (h : Good w) (moved : Bool) (howner : t.record = w.record)
    (happ : t.applicationID = w.applicationID)
    (htoken : t.token = if moved then w.applicationID else w.token) :
    (∀ text, t.record = some text →
        ∃ o, readOwner text = some o ∧ o.token = t.token ∧ t.token ≠ 0) ∧
      (t.token ≠ 0 → t.applicationID = t.token) ∧
      (t.applicationID < 4294967296 ∧ t.token < 4294967296) ∧
      (w.token ≠ 0 → t.token = w.token) := by
  have hkept : w.token ≠ 0 → t.token = w.token := by
    intro hne
    rw [htoken]
    split
    · exact h.token hne
    · rfl
  refine ⟨fun text ht => ?_, fun hne => ?_, ?_, hkept⟩
  · rw [howner] at ht
    obtain ⟨o, ho, htok, hne⟩ := h.owner text ht
    exact ⟨o, ho, htok.trans (hkept hne).symm, by rwa [hkept hne]⟩
  · rw [happ]
    rw [htoken] at hne ⊢
    split
    · rfl
    · next hm =>
      rw [if_neg hm] at hne
      exact h.token hne
  · rw [happ, htoken]
    split
    · exact ⟨h.small.1, h.small.1⟩
    · exact h.small

theorem committed_good (h : Good w) (hnames : namesWal w = true) (moved : Bool) :
    Good (w.committed moved) := by
  obtain ⟨howner, htoken, hsmall, _⟩ := h.moved moved (t := w.committed moved) rfl rfl rfl
  refine ⟨howner, fun _ => ?_, htoken, hsmall, fun ha => ?_⟩
  · exact (namesWal_congr (w := w) (t := w.committed moved) rfl (committed_id w moved)).trans hnames
  · have hw := h.held ha
    unfold World.committed
    simpa using hw

theorem committed_later (h : Good w) (moved : Bool) (q : Pid) : Later q w (w.committed moved) :=
  ⟨(h.moved moved (t := w.committed moved) rfl rfl rfl).2.2.2, fun hq => ⟨hq, committed_id w moved⟩⟩

theorem Good.no_owner (h : Good w) (happ : w.applicationID = 0) :
    w.token = 0 ∧ w.owner = none := by
  have htoken : w.token = 0 := by
    by_contra hne
    exact hne ((h.token hne).symm.trans happ)
  refine ⟨htoken, ?_⟩
  cases ho : w.owner with
  | none => rfl
  | some file =>
    obtain ⟨_, _, _, hne⟩ := h.owner file.text (by rw [World.record, ho]; rfl)
    exact absurd htoken hne

theorem without_later (hq : q ≠ p) (w : World) : Later q w (w.without p) :=
  ⟨fun _ => rfl, fun h => ⟨List.mem_filter.mpr ⟨h, by simpa using hq⟩, rfl⟩⟩

theorem without_good (h : Good w) (p : Pid) : Good (w.without p) :=
  ⟨h.owner, h.names, h.token, h.small, fun ha => h.held fun hw => ha (by
    rw [World.without, hw]
    rfl)⟩

theorem disconnect_step {r : Answer .disconnect} (h : Good w)
    (hact : act p w .disconnect c = some (r, t)) :
    Good t ∧ ∀ q, q ≠ p → Later q w t := by
  cases c <;> simp only [act, reduceCtorEq, Option.some.injEq, Prod.mk.injEq] at hact
  · split at hact
    · next hlast =>
      simp only [Option.some.injEq, Prod.mk.injEq] at hact
      obtain ⟨_, rfl⟩ := hact
      obtain ⟨howner, htoken, hsmall, hkept⟩ := h.moved true
        (t := { w.without p with wal := none, token := w.applicationID }) rfl rfl rfl
      refine ⟨⟨howner, fun he => absurd he.symm Bool.false_ne_true, htoken, hsmall,
          fun ha => absurd hlast.2 ha⟩,
        fun q hq => ⟨hkept, fun hmem => ?_⟩⟩
      have hin := (without_later hq w).attached hmem
      rw [hlast.2] at hin
      exact absurd hin.1 List.not_mem_nil
    · simp only [Option.some.injEq, Prod.mk.injEq] at hact
      obtain ⟨_, rfl⟩ := hact
      exact ⟨without_good h p, fun q hq => without_later hq w⟩
  · obtain ⟨_, rfl⟩ := hact
    exact ⟨without_good h p, fun q hq => without_later hq w⟩

theorem plain_step {o : Op} {r : Answer o} (h : Good w) (hcalm : Calm p w o c)
    (hd : o ≠ .disconnect) (hr : ∀ x, o ≠ .renameTmp x) (hact : act p w o c = some (r, t)) :
    Good t ∧ ∀ q, Later q w t := by
  have hsame : Good w ∧ ∀ q, Later q w w := ⟨h, fun q => .refl q w⟩
  have htmp : ∀ tmp n, Good { w with tmp := tmp, opened := n } ∧
      ∀ q, Later q w { w with tmp := tmp, opened := n } :=
    fun tmp n => ⟨h.tmp tmp n, fun q => .tmp q w tmp n⟩
  cases o with
  | disconnect => exact absurd rfl hd
  | renameTmp x => exact absurd rfl (hr x)
  | check => cases c <;> cases hact; exact hsame
  | walIsEmpty => cases c <;> cases hact <;> exact hsame
  | fileToken => cases c <;> cases hact <;> exact hsame
  | walID => cases c <;> cases hact <;> exact hsame
  | readOwnerFile => cases c <;> cases hact <;> exact hsame
  | walExists => cases c <;> cases hact <;> exact hsame
  | truncateTmp =>
    cases c <;> cases hact
    · obtain ⟨tmp, n, htruncated⟩ := truncated_eq w
      rw [htruncated]
      exact htmp tmp n
    · exact hsame
  | fillTmp i text =>
    cases c <;> cases hact
    · rw [written_eq hcalm]
      exact htmp _ w.opened
    · rw [written_eq hcalm]
      exact htmp _ w.opened
  | removeTmp =>
    cases c <;> cases hact
    · exact htmp _ w.opened
    · exact hsame
  | connect =>
    cases c <;> simp only [act, reduceCtorEq, Option.some.injEq, Prod.mk.injEq] at hact
    · split at hact
      · next hwal =>
        simp only [Option.some.injEq, Prod.mk.injEq] at hact
        obtain ⟨_, rfl⟩ := hact
        exact ⟨⟨h.owner, h.names, h.token, h.small, fun _ => hwal⟩,
          fun q => ⟨fun _ => rfl, fun hq => ⟨List.mem_cons_of_mem _ hq, rfl⟩⟩⟩
      · cases hact
    · exact hact.2 ▸ hsame
    · next id =>
      split at hact
      · cases hact
      · next hnew =>
        simp only [Option.some.injEq, Prod.mk.injEq] at hact
        obtain ⟨_, rfl⟩ := hact
        -- Nobody is attached while there is no file.
        refine ⟨⟨h.owner, fun he => absurd he.symm Bool.false_ne_true, h.token, h.small,
          fun _ => rfl⟩, fun q => ⟨fun _ => rfl, fun hq => ?_⟩⟩
        exact absurd (h.held (List.ne_nil_of_mem hq)) fun hwal => hnew (.inl hwal)
  | migrate =>
    cases c <;> simp only [act, reduceCtorEq, Option.some.injEq, Prod.mk.injEq] at hact
    · exact hact.2 ▸ hsame
    · exact hact.2 ▸ hsame
    · next moved =>
      split at hact
      · simp only [Option.some.injEq, Prod.mk.injEq] at hact
        exact hact.2 ▸ ⟨committed_good h (hcalm rfl) moved, committed_later h moved⟩
      · cases hact
  | commit =>
    cases c <;> simp only [act, reduceCtorEq, Option.some.injEq, Prod.mk.injEq] at hact
    · exact hact.2 ▸ hsame
    · next moved =>
      split at hact
      · simp only [Option.some.injEq, Prod.mk.injEq] at hact
        exact hact.2 ▸ ⟨committed_good h (hcalm rfl) moved, committed_later h moved⟩
      · cases hact
  | setApplicationID =>
    cases c <;> simp only [act, reduceCtorEq, Option.some.injEq, Prod.mk.injEq] at hact
    · exact hact.2 ▸ hsame
    · next tok =>
      split at hact
      · cases hact
      · next hok =>
        split at hact
        · next happ =>
          simp only [Option.some.injEq, Prod.mk.injEq] at hact
          obtain ⟨_, rfl⟩ := hact
          obtain ⟨htoken, howner⟩ := h.no_owner happ
          refine ⟨⟨fun text ht => ?_, fun _ => ?_, fun hne => absurd htoken hne, ⟨?_, h.small.2⟩,
            (committed_good h ?_ false).held⟩,
            fun q => ⟨fun hne => absurd htoken hne, fun hq => ⟨hq, committed_id w false⟩⟩⟩
          · simp [World.record, World.committed, howner] at ht
          · simp [namesWal, World.record, World.committed, howner]
          · simp only [not_or, Nat.not_le] at hok
            exact Nat.lt_trans hok.2.2 (by decide)
          · simp [namesWal, World.record, howner]
        · simp only [Option.some.injEq, Prod.mk.injEq] at hact
          exact hact.2 ▸ hsame
  | checkpoint =>
    cases c <;> simp only [act, reduceCtorEq, Option.some.injEq, Prod.mk.injEq] at hact
    · exact hact.2 ▸ hsame
    · exact hact.2 ▸ hsame
    · next emptied =>
      split at hact
      · cases hact
      · simp only [Option.some.injEq, Prod.mk.injEq] at hact
        obtain ⟨_, rfl⟩ := hact
        obtain ⟨howner, htoken, hsmall, hkept⟩ := h.moved true
          (t := { w with
            token := w.applicationID
            wal := if emptied then w.wal.map fun wal => { wal with filled := false } else w.wal })
          rfl rfl rfl
        cases emptied with
        | false =>
          exact ⟨⟨howner, fun he => h.names he, htoken, hsmall, h.held⟩,
            fun q => ⟨hkept, fun hq => ⟨hq, rfl⟩⟩⟩
        | true =>
          refine ⟨⟨howner, fun he => ?_, htoken, hsmall, fun ha => ?_⟩,
            fun q => ⟨hkept, fun hq => ⟨hq, ?_⟩⟩⟩
          · cases hw : w.wal <;> simp [World.empty, hw] at he
          · simpa using h.held ha
          · cases hw : w.wal <;> rfl

/-! ## The record is written -/

/-- A program of one process, among the others. -/
abbrev Runs {α : Type} (p : Pid) (Q : α → World → Prop) (left : Steps α) (w : World) : Prop :=
  Crew.Holds stores Calm Good Later p Q left w

theorem runs_op {Q : α → World → Prop} {o : Op} {f : Answer o → Steps α} (hd : o ≠ .disconnect)
    (hr : ∀ x, o ≠ .renameTmp x)
    (h : ∀ u c r t, Later p w u → Good u → act p u o c = some (r, t) → Later p u t →
      Runs p Q (f r) t) : Runs p Q (perform o >>= f) w := by
  intro u hl hu c r t hact
  obtain ⟨hcalm, hact⟩ := under_eq_some.mp hact
  obtain ⟨ht, hlater⟩ := plain_step hu hcalm hd hr hact
  exact ⟨ht, fun q _ => hlater q, h u c r t hl hu hact (hlater p)⟩

theorem runs_quiet {Q : α → World → Prop} {o : Op} {f : Answer o → Steps α} (hd : o ≠ .disconnect)
    (hr : ∀ x, o ≠ .renameTmp x)
    (h : ∀ r t, Later p w t → Runs p Q (f r) t) : Runs p Q (perform o >>= f) w :=
  runs_op hd hr fun _ _ r t hl _ _ ht => h r t (hl.trans ht)

/-- What a process knows of the record it writes. -/
structure Knows (p : Pid) (o : OwnerRecord) (w : World) : Prop where
  token : w.token = o.token
  given : o.token ≠ 0
  wal : o.wal = ownerCleanStop ∨ o.wal = noTelling ∨
    p ∈ w.attached ∧ ∃ id, (w.wal.map fun wal => wal.id) = some id ∧ id.text = o.wal

theorem Knows.later (h : Knows p o w) (hl : Later p w t) : Knows p o t where
  token := (hl.token (by rw [h.token]; exact h.given)).trans h.token
  given := h.given
  wal := h.wal.imp_right fun hrest => hrest.imp_right fun ⟨hp, id, hid, htext⟩ =>
    ⟨(hl.attached hp).1, id, (hl.attached hp).2.trans hid, htext⟩

theorem rename_step {r : Answer (.renameTmp o)} (h : Good w) (hk : Knows p o w)
    (hcalm : Calm p w (.renameTmp o) c) (hact : act p w (.renameTmp o) c = some (r, t)) :
    Good t ∧ ∀ q, Later q w t := by
  obtain ⟨htmp, hstop⟩ := hcalm
  cases c <;> simp only [act, reduceCtorEq, Option.some.injEq, Prod.mk.injEq] at hact
  · obtain ⟨file, hfile, htext⟩ := Option.map_eq_some_iff.mp htmp
    simp only [hfile, Option.some.injEq, Prod.mk.injEq] at hact
    obtain ⟨_, rfl⟩ := hact
    have hread : readOwner o.text = some o := readOwner_text (by rw [← hk.token]; exact h.small.2)
    refine ⟨⟨fun text ht => ?_, fun he => ?_, h.token, h.small, h.held⟩,
      fun q => ⟨fun _ => rfl, fun hq => ⟨hq, rfl⟩⟩⟩
    · obtain rfl : o.text = text := htext.symm.trans (Option.some.inj ht)
      refine ⟨o, hread, hk.token.symm, ?_⟩
      show w.token ≠ 0
      rw [hk.token]
      exact hk.given
    · have hnames : o.wal = noTelling ∨ (w.wal.map fun wal => wal.id.text) = some o.wal := by
        obtain hs | hno | ⟨_, id, hid, htext⟩ := hk.wal
        · have hfilled : w.empty = false := he
          rw [hstop hs] at hfilled
          cases hfilled
        · exact .inl hno
        · right
          obtain ⟨wal, hwal, rfl⟩ := Option.map_eq_some_iff.mp hid
          rw [hwal, Option.map_some, htext]
      simpa [namesWal, World.record, htext, hread] using hnames
  · obtain ⟨_, rfl⟩ := hact
    exact ⟨h, fun q => .refl q w⟩

theorem runs_rename {Q : α → World → Prop} (hk : Knows p o w) (h : ∀ r t, Runs p Q (f r) t) :
    Runs p Q (perform (Op.renameTmp o) >>= f) w := by
  intro u hl hu c r t hact
  obtain ⟨hcalm, hact⟩ := under_eq_some.mp hact
  obtain ⟨ht, hlater⟩ := rename_step hu (hk.later hl) hcalm hact
  exact ⟨ht, fun q _ => hlater q, h r t⟩

/-- It comes to an end, whatever the record says by then. -/
abbrev Ends {α : Type} (p : Pid) (left : Steps α) (w : World) : Prop :=
  Runs p (fun _ _ => True) left w

theorem Ends.bind {β : Type} {Q : β → World → Prop} {left : Steps α} {f : α → Steps β}
    (h : Ends p left w) (hf : ∀ a t, Runs p Q (f a) t) : Runs p Q (left >>= f) w :=
  stands_bind (h.mono fun a t _ => hf a t)

theorem writeOwner_ends (hk : Knows p o w) : Ends p (writeOwner o) w := by
  refine runs_quiet (by simp) (by simp) fun now t ht => ?_
  split
  · trivial
  · have hwrite : Runs p (fun _ u => Knows p o u) (writeTmp o.text) t := by
      refine runs_quiet (by simp) (by simp) fun r u hu => ?_
      cases r with
      | error err => exact (hk.later ht).later hu
      | ok i =>
        exact runs_quiet (by simp) (by simp) fun err x hx => ((hk.later ht).later hu).later hx
    refine stands_bind (hwrite.mono fun written u hu => ?_)
    cases written with
    | false => trivial
    | true =>
      refine runs_rename hu fun r x => ?_
      cases r with
      | none => trivial
      | some err => exact runs_quiet (by simp) (by simp) fun _ y _ => trivial

theorem runs_fileToken {Q : α → World → Prop} {f : Except Err Nat → Steps α}
    (herr : ∀ err t, Runs p Q (f (.error err)) t)
    (hok : ∀ token t, Later p w t → t.token = token → Runs p Q (f (.ok token)) t) :
    Runs p Q (perform Op.fileToken >>= f) w := by
  refine runs_op (by simp) (by simp) fun u c r t hl hu hact hlt => ?_
  cases c <;> cases hact
  · exact hok _ u hl rfl
  · exact herr _ u

theorem recordWAL_ends {token : Nat} (hp : p ∈ w.attached) (htoken : w.token = token)
    (hne : token ≠ 0) : Ends p (recordWAL token) w := by
  refine runs_op (by simp) (by simp) fun u c r t hl hu hact hlt => ?_
  have hu' : u.token = token := (hl.token (by rwa [htoken])).trans htoken
  have hpu := (hl.attached hp).1
  cases c <;> cases hact
  · refine writeOwner_ends ⟨hu', hne, .inr ?_⟩
    cases hw : u.wal with
    | none => exact .inl rfl
    | some wal => exact .inr ⟨hpu, wal.id, rfl, rfl⟩
  · exact writeOwner_ends ⟨hu', hne, .inr (.inl rfl)⟩

theorem claimWAL_ends (hp : p ∈ w.attached) : Ends p claimWAL w := by
  refine runs_fileToken (fun _ _ => trivial) fun token t hl htoken => ?_
  have hpt := (hl.attached hp).1
  dsimp only
  split
  · next hne => exact recordWAL_ends hpt htoken hne
  · have hset : Runs p (fun _ u => Later p t u) setToken t := by
      refine runs_quiet (by simp) (by simp) fun r u hu => ?_
      cases r with
      | some err => exact hu
      | none => exact runs_quiet (by simp) (by simp) fun r x hx => hu.trans hx
    refine stands_bind (hset.mono fun r u hu => ?_)
    cases r with
    | some err => trivial
    | none =>
      refine runs_fileToken (fun _ _ => trivial) fun token x hx htok => ?_
      dsimp only
      split
      · trivial
      · next hne => exact recordWAL_ends ((hu.trans hx).attached hpt).1 htok hne

theorem markCleanStop_ends : Ends p markCleanStop w := by
  refine runs_quiet (by simp) (by simp) fun r t _ => ?_
  cases r with
  | none => trivial
  | some there =>
    cases there with
    | true => trivial
    | false =>
      refine runs_fileToken (fun _ _ => trivial) fun token u _ htoken => ?_
      dsimp only
      split
      · trivial
      · next hne => exact writeOwner_ends ⟨htoken, hne, .inl rfl⟩

/-! ## The calls -/

abbrev Accepted (a : Result × Store) (_ : World) : Prop := a.1 ≠ .refused

theorem runs_disconnect {Q : α → World → Prop}
    (h : ∀ r t, Runs p Q (f r) t) : Runs p Q (perform Op.disconnect >>= f) w := by
  intro u _ hu c r t hact
  obtain ⟨_, hact⟩ := under_eq_some.mp hact
  obtain ⟨ht, hlater⟩ := disconnect_step hu hact
  exact ⟨ht, hlater, h r t⟩

theorem giveUp_runs {err : Err} : Runs p Accepted (giveUp err) w :=
  runs_disconnect fun _ _ => by simp [Accepted]

theorem runs_connect {Q : α → World → Prop} (herr : ∀ err t, Runs p Q (f (some err)) t)
    (hok : ∀ t, p ∈ t.attached → Runs p Q (f none) t) : Runs p Q (perform Op.connect >>= f) w := by
  refine runs_op (by simp) (by simp) fun u c r t _ _ hact _ => ?_
  cases r with
  | some err => exact herr err t
  | none =>
    refine hok t ?_
    cases c <;> simp only [act, reduceCtorEq, Option.some.injEq, Prod.mk.injEq] at hact
    · split at hact
      · cases hact
        exact List.mem_cons_self
      · cases hact
    · exact absurd hact.1 (by simp)
    · split at hact
      · cases hact
      · cases hact
        exact List.mem_cons_self

theorem runs_check {Q : α → World → Prop} {f : Bool → Steps α}
    (h : ∀ t, Runs p Q (f false) t) : Runs p Q (perform Op.check >>= f) w := by
  refine runs_op (by simp) (by simp) fun u c r t _ hu hact _ => ?_
  cases c <;> cases hact
  rw [hu.not_refused]
  exact h u

theorem openStore_runs : Runs p Accepted openStore w := by
  refine runs_check fun t => ?_
  refine runs_quiet (by simp) (by simp) fun clean u _ => ?_
  refine runs_connect (fun err x => giveUp_runs) fun x hx => ?_
  refine runs_quiet (by simp) (by simp) fun r y hy => ?_
  cases r with
  | some err => exact giveUp_runs
  | none =>
    cases clean with
    | true => exact (claimWAL_ends (hy.attached hx).1).bind fun _ _ => by simp [Accepted]
    | false => simp [Accepted]

theorem call_runs (k : Kind) (s : Store) : Runs p Accepted (call k s) w := by
  unfold call
  split
  · exact openStore_runs
  · refine runs_quiet (by simp) (by simp) fun r t _ => ?_
    cases r <;> simp [Accepted]
  · refine runs_disconnect fun r t => ?_
    cases r with
    | some err => simp [Accepted]
    | none => exact markCleanStop_ends.bind fun _ _ => by simp [Accepted]
  · simp [Accepted]

/-! ## Any number of processes -/

theorem stores_sound :
    Crew.Sound stores Calm Good Later (fun _ _ _ => True) (fun _ _ r _ => r ≠ .refused) Clean where
  refl := .refl
  trans _ _ _ _ := .trans
  memory _ _ _ _ _ _ := trivial
  result _ _ _ _ _ h _ := h
  init w h := by
    obtain ⟨hwal, howner, hattached, happ, hsmall⟩ := h
    refine ⟨fun text ht => ?_, fun he => ?_, fun _ => happ, ⟨happ ▸ hsmall, hsmall⟩, fun ha => ?_⟩
    · rw [World.record, howner] at ht
      cases ht
    · rw [World.empty, hwal] at he
      cases he
    · exact absurd hattached ha
  start _ _ _ _ := trivial
  call _ k s _ _ _ := (call_runs k s).mono fun _ _ h => ⟨trivial, h⟩
  die p w hw := ⟨without_good hw p, fun q hq => without_later hq w⟩

/-- A database's own `-wal` is never refused, in every run that is calm. -/
theorem own_wal_never_refused {m : Scene Answer World Kind Result Store Pid}
    (h : Machine.ReachesUnder (stores.machine Clean) (Crew.Guard Calm) m) {s : Store} :
    m.party p ≠ .busy .open (.done (.refused, s)) := by
  obtain ⟨_, hfits⟩ := stores_sound.reached h
  intro hp
  have hdone := hfits p
  rw [hp] at hdone
  exact hdone.2 rfl

/-! ### A clean stop recorded too late -/

/-- A new database, and no processes. -/
def nobody : Scene Answer World Kind Result Store Pid :=
  ⟨⟨0, 0, none, none, none, [], [], 0⟩, fun _ => .gone⟩

theorem nobody_clean : (stores.machine Clean).init nobody :=
  ⟨⟨rfl, rfl, rfl, rfl, by decide⟩, fun _ => rfl⟩

/-- A process's next operations, all of which go well. -/
def oks (p : Pid) (n : Nat) : List (Deed Pid Unit Kind Choice) := List.replicate n (.act p .ok)

/-- The first process opens the new database, and gives it its token. -/
def firstOpens : List (Deed Pid Unit Kind Choice) :=
  [.start 1 (), .call 1 .open] ++ oks 1 2 ++ [.act 1 (.makes ⟨1, 10⟩)] ++ oks 1 2 ++
    [.act 1 (.token 7), .act 1 (.moves true)] ++ oks 1 6 ++ [.ret 1]

/-- It closes it, and sees that there is no `-wal`. -/
def firstCloses : List (Deed Pid Unit Kind Choice) := [.call 1 .close] ++ oks 1 2

/-- Then it records that it stopped cleanly. -/
def firstRecords : List (Deed Pid Unit Kind Choice) := oks 1 5 ++ [.ret 1]

/-- Another opens it, makes the next `-wal`, records it, and commits to it. -/
def secondCommits : List (Deed Pid Unit Kind Choice) :=
  [.start 2 (), .call 2 .open] ++ oks 2 2 ++ [.act 2 (.makes ⟨1, 11⟩)] ++ oks 2 7 ++
    [.ret 2, .call 2 .commit, .act 2 (.commits false), .ret 2]

def thirdOpens : List (Deed Pid Unit Kind Choice) := [.start 3 (), .call 3 .open, .act 3 .ok]

/-- The record of the clean stop is put in place of the second process's. -/
theorem own_wal_refused :
    ∃ m, Machine.Reachable (stores.machine Clean) m ∧
      ∃ s, m.party 3 = .busy .open (.done (.refused, s)) :=
  ⟨(stores.machine Clean).after nobody
      (firstOpens ++ firstCloses ++ secondCommits ++ firstRecords ++ thirdOpens),
    Machine.reachable_after nobody_clean (by decide), false, rfl⟩

theorem recorded_in_time_not_refused :
    ((stores.machine Clean).after nobody
      (firstOpens ++ firstCloses ++ firstRecords ++ secondCommits ++ thirdOpens)).party 3 ≠
        .busy .open (.done (.refused, false)) :=
  own_wal_never_refused
    (Machine.reaches_under_after nobody_clean (by decide) (by decide))

end LocalBase.Wal
