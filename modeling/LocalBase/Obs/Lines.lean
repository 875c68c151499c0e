import LocalBase.Obs.Sink

/-!
# A line that was kept is a line of its own

A line ends up after part of another when the file it goes to ends in one and
the sink does not know. A sink knows what it did itself since it opened the
file (`Sink.torn`); it knows nothing of what another process left there, or
itself before a restart. `Own` says that no sink writes to a file that ends in
part of a line of somebody else's, and that is enough.
-/

namespace LocalBase.Obs

open Program Files

variable {p q : Pid} {s : Sink} {w t : World} {fd : Fd} {line : Line} {torn : Bool} {α : Type}
  {Q : α → World → Prop} {r : Answer (.write fd torn line)} {c : Choice} {o : Op}

/-- It does not end in part of a line. -/
def Whole (b : Bytes) : Prop := b.getLast? = none ∨ b.getLast? = some newline

instance (b : Bytes) : Decidable (Whole b) :=
  inferInstanceAs (Decidable (_ ∨ _))

/-- Where the line was put, it is a line of its own. -/
def Readable (w : World) (x : Kept) : Prop :=
  ∃ before after, w.disk.bytes x.file = before ++ x.line.text ++ newline :: after ∧
    before.length = x.start ∧ Whole before

/-- A file that ends in part of a line is written to only by the opening that
wrote there last. -/
def Own (p : Pid) (w : World) (o : Op) (_ : Choice) : Prop :=
  match o with
  | .write fd _ _ => Whole (w.disk.bytes fd.file) ∨ w.last fd.file = some (p, fd.opening)
  | _ => True

instance (p : Pid) (w : World) (o : Op) (c : Choice) : Decidable (Own p w o c) :=
  match o with
  | .write fd _ _ =>
    inferInstanceAs
      (Decidable (Whole (w.disk.bytes fd.file) ∨ w.last fd.file = some (p, fd.opening)))
  | .openActive | .fstat _ | .statActive | .lstatRotating | .rename _ _ | .close _ => isTrue trivial

/-! ## The world -/

structure Good (w : World) : Prop where
  kept : ∀ x ∈ w.kept, Readable w x
  blank : ∀ i, w.disk.next ≤ i → w.disk.bytes i = [] ∧ w.last i = none
  opened : ∀ i p n, w.last i = some (p, n) → n < w.openings

/-- What a process may rely on: a file that it wrote to last is as it was. -/
structure Later (p : Pid) (w t : World) : Prop where
  files : ∀ i n, t.last i = some (p, n) →
    w.last i = some (p, n) ∧ t.disk.bytes i = w.disk.bytes i
  openings : w.openings ≤ t.openings
  next : w.disk.next ≤ t.disk.next
  kept : w.kept ⊆ t.kept

theorem Later.refl (p : Pid) (w : World) : Later p w w :=
  ⟨fun _ _ h => ⟨h, rfl⟩, Nat.le_refl _, Nat.le_refl _, fun _ h => h⟩

theorem Later.trans {u : World} (h : Later p w t) (h' : Later p t u) : Later p w u where
  files i n hu := by
    obtain ⟨ht, hb⟩ := h'.files i n hu
    obtain ⟨hw, hb'⟩ := h.files i n ht
    exact ⟨hw, hb.trans hb'⟩
  openings := Nat.le_trans h.openings h'.openings
  next := Nat.le_trans h.next h'.next
  kept x hx := h'.kept (h.kept hx)

structure Quiet (w t : World) : Prop where
  bytes : t.disk.bytes = w.disk.bytes
  last : t.last = w.last
  kept : t.kept = w.kept
  openings : w.openings ≤ t.openings
  next : w.disk.next ≤ t.disk.next

theorem Quiet.good (h : Quiet w t) (hw : Good w) : Good t where
  kept := by
    intro x hx
    rw [h.kept] at hx
    obtain ⟨before, after, hb, hrest⟩ := hw.kept x hx
    exact ⟨before, after, by rw [h.bytes, hb], hrest⟩
  blank i hi := by
    rw [h.bytes, h.last]
    exact hw.blank i (Nat.le_trans h.next hi)
  opened i p n hi := by
    rw [h.last] at hi
    exact Nat.lt_of_lt_of_le (hw.opened i p n hi) h.openings

theorem Quiet.later (h : Quiet w t) (p : Pid) : Later p w t where
  files i n hi := by
    rw [h.last] at hi
    exact ⟨hi, by rw [h.bytes]⟩
  openings := h.openings
  next := h.next
  kept := by rw [h.kept]; exact fun _ hx => hx

theorem created_quiet (hw : Good w) :
    Quiet w w.created.2 ∧ w.created.1 < w.created.2.disk.next := by
  unfold World.created
  split
  · next i hi => exact ⟨⟨rfl, rfl, rfl, Nat.le_refl _, Nat.le_refl _⟩, w.disk.fresh _ i hi⟩
  · refine ⟨⟨?_, rfl, rfl, Nat.le_refl _, Nat.le_succ _⟩, Nat.lt_succ_self _⟩
    funext j
    by_cases hj : j = w.disk.next
    · rw [hj]
      exact (Disk.create_bytes_self).trans (hw.blank _ (Nat.le_refl _)).1.symm
    · exact Function.update_of_ne hj _ _

theorem quiet_step {r : Answer o} (hw : Good w) (ho : ∀ fd torn line, o ≠ .write fd torn line)
    (h : act p w o c = some (r, t)) :
    Quiet w t := by
  have hsame : Quiet w w := ⟨rfl, rfl, rfl, Nat.le_refl _, Nat.le_refl _⟩
  cases o with
  | write fd torn line => exact absurd rfl (ho fd torn line)
  | openActive =>
    have hc := (created_quiet hw).1
    cases c <;> cases h
    · exact ⟨hc.bytes, hc.last, hc.kept, Nat.le_succ_of_le hc.openings, hc.next⟩
    · exact hsame
    · exact hc
  | rename old new =>
    cases c <;> simp only [act] at h <;> try cases h
    · split at h
      · next d hd =>
        cases h
        obtain ⟨_, _, hbytes, hnext, _⟩ := Disk.rename_spec hd
        exact ⟨hbytes, rfl, rfl, Nat.le_refl _, Nat.le_of_eq hnext.symm⟩
      · cases h
        exact hsame
    · exact hsame
  | statActive =>
    cases c <;> simp only [act] at h <;> try cases h
    · split at h <;> cases h <;> exact hsame
    · exact hsame
  | fstat fd => cases c <;> cases h <;> exact hsame
  | lstatRotating => cases c <;> cases h <;> exact hsame
  | close fd => cases c <;> cases h <;> exact hsame

/-! ## A write -/

/-- What a sink knows of its open file. -/
structure Knows (p : Pid) (torn : Bool) (fd : Fd) (w : World) : Prop where
  file : fd.file < w.disk.next
  opening : fd.opening < w.openings
  torn : w.last fd.file = some (p, fd.opening) → ¬ Whole (w.disk.bytes fd.file) → torn = true

theorem Knows.later (h : Knows p torn fd w) (hl : Later p w t) :
    Knows p torn fd t where
  file := Nat.lt_of_lt_of_le h.file hl.next
  opening := Nat.lt_of_lt_of_le h.opening hl.openings
  torn ht hb := by
    obtain ⟨hw, hsame⟩ := hl.files _ _ ht
    rw [hsame] at hb
    exact h.torn hw hb

theorem whole_snoc (b : Bytes) : Whole (b ++ [newline]) :=
  .inr (by rw [List.getLast?_append, List.getLast?_singleton]; rfl)

theorem before_line (b : Bytes) (torn : Bool) (line : Line) (h : ¬ Whole b → torn = true) :
    ∃ before, b ++ lineBytes torn line = before ++ line.text ++ [newline] ∧
      before.length = b.length + (if torn then 1 else 0) ∧ Whole before := by
  cases torn with
  | true =>
    refine ⟨b ++ [newline], ?_, by simp, whole_snoc b⟩
    simp [lineBytes, Line.bytes]
  | false =>
    refine ⟨b, ?_, rfl, ?_⟩
    · simp [lineBytes, Line.bytes]
    · by_contra hb
      exact Bool.false_ne_true (h hb)

/-- What a line that was kept is found by does not change when more is
written. -/
theorem Readable.append {x : Kept} {i : Nat} {bs : Bytes} (h : Readable w x)
    (ht : t.disk = w.disk.append i bs) : Readable t x := by
  obtain ⟨before, after, hb, hrest⟩ := h
  by_cases hi : x.file = i
  · refine ⟨before, after ++ bs, ?_, hrest⟩
    rw [ht, ← hi, Disk.append_bytes_self, hb]
    simp
  · refine ⟨before, after, ?_, hrest⟩
    rw [ht, Disk.append_bytes_of_ne hi, hb]

/-- How a write of `len` bytes leaves `torn`. -/
def tornAfter (torn : Bool) (n len : Nat) (err : Option Err) : Bool :=
  if n = len ∧ err = none then false else torn || decide (0 < n)

/-- The parts of a write: what was there, how much of it there is now, and what
the ghosts say. -/
theorem write_step (h : act p w (.write fd torn line) c = some (r, t)) :
    r.1 ≤ (lineBytes torn line).length ∧
      t.disk = w.disk.append fd.file ((lineBytes torn line).take r.1) ∧
      t.openings = w.openings ∧
      t.last = (if r.1 = 0 then w.last
        else Function.update w.last fd.file (some (p, fd.opening))) ∧
      t.kept = (if r.1 = (lineBytes torn line).length ∧ r.2 = none then
        w.kept ++ [⟨p, fd.file, (w.disk.bytes fd.file).length + (if torn then 1 else 0), line⟩]
        else w.kept) := by
  cases c <;> simp only [act] at h <;> try cases h
  split at h
  · cases h
  · next hle =>
    cases h
    exact ⟨Nat.le_of_not_lt hle, rfl, rfl, rfl, rfl⟩

theorem write_good (hw : Good w) (hk : Knows p torn fd w) (hown : Own p w (.write fd torn line) c)
    (h : act p w (.write fd torn line) c = some (r, t)) : Good t := by
  obtain ⟨hle, hdisk, hopen, hlast, hkept⟩ := write_step h
  have hne : ∀ i, t.disk.next ≤ i → i ≠ fd.file := by
    rintro i hi rfl
    rw [hdisk] at hi
    exact absurd hk.file (Nat.not_lt.mpr hi)
  refine ⟨fun x hx => ?_, fun i hi => ⟨?_, ?_⟩, fun i q n hi => ?_⟩
  · rw [hkept] at hx
    split at hx
    · next hall =>
      obtain hx | hx := List.mem_append.mp hx
      · exact (hw.kept x hx).append hdisk
      · obtain rfl := List.mem_singleton.mp hx
        have htorn : ¬ Whole (w.disk.bytes fd.file) → torn = true :=
          fun hb => hk.torn (hown.resolve_left hb) hb
        obtain ⟨before, hb, hlen, hwhole⟩ := before_line _ torn line htorn
        refine ⟨before, [], ?_, hlen, hwhole⟩
        rw [hdisk, Disk.append_bytes_self, hall.1, List.take_length, hb]
    · exact (hw.kept x hx).append hdisk
  · rw [hdisk, Disk.append_bytes_of_ne (hne i hi)]
    rw [hdisk] at hi
    exact (hw.blank i hi).1
  · have hold := hw.blank i (by rw [hdisk] at hi; exact hi)
    rw [hlast]
    split
    · exact hold.2
    · rw [Function.update_of_ne (hne i hi)]
      exact hold.2
  · rw [hlast] at hi
    rw [hopen]
    split at hi
    · exact hw.opened i q n hi
    · by_cases hf : i = fd.file
      · rw [hf, Function.update_self] at hi
        cases hi
        exact hk.opening
      · rw [Function.update_of_ne hf] at hi
        exact hw.opened i q n hi

theorem write_later (hq : q ≠ p)
    (h : act p w (.write fd torn line) c = some (r, t)) : Later q w t := by
  obtain ⟨_, hdisk, hopen, hlast, hkept⟩ := write_step h
  refine ⟨fun i n hi => ?_, Nat.le_of_eq hopen.symm, by rw [hdisk]; exact Nat.le_refl _,
    fun x hx => ?_⟩
  · rw [hlast] at hi
    rw [hdisk]
    split at hi
    · next hzero =>
      refine ⟨hi, ?_⟩
      rw [hzero, List.take_zero, Disk.append, List.append_nil]
      exact congrFun (Function.update_eq_self _ _) i
    · by_cases hf : i = fd.file
      · rw [hf, Function.update_self] at hi
        cases hi
        exact absurd rfl hq
      · rw [Function.update_of_ne hf] at hi
        exact ⟨hi, Disk.append_bytes_of_ne hf⟩
  · rw [hkept]
    split
    · exact List.mem_append_left _ hx
    · exact hx

theorem write_knows (hk : Knows p torn fd w) (h : act p w (.write fd torn line) c = some (r, t)) :
    Knows p (tornAfter torn r.1 (lineBytes torn line).length r.2) fd t := by
  obtain ⟨hle, hdisk, hopen, hlast, _⟩ := write_step h
  refine ⟨by rw [hdisk]; exact hk.file, by rw [hopen]; exact hk.opening, fun hl hb => ?_⟩
  unfold tornAfter
  split
  · next hall =>
    refine absurd ?_ hb
    rw [hdisk, Disk.append_bytes_self, hall.1, List.take_length]
    unfold lineBytes Line.bytes
    split
    · rw [← List.cons_append, ← List.append_assoc]
      exact whole_snoc _
    · rw [← List.append_assoc]
      exact whole_snoc _
  · by_cases hzero : r.1 = 0
    · rw [hlast, if_pos hzero] at hl
      rw [hdisk, Disk.append_bytes_self, hzero, List.take_zero, List.append_nil] at hb
      rw [hk.torn hl hb]
      rfl
    · rw [decide_eq_true (Nat.pos_of_ne_zero hzero), Bool.or_true]

/-! ## The program -/

/-- A program of one sink, among the others. -/
abbrev Runs {α : Type} (p : Pid) (Q : α → World → Prop) (left : Steps α) (w : World) : Prop :=
  Crew.Holds sinks Own Good Later p Q left w

/-- The sink's memory is right about its file. -/
def Right (p : Pid) (s : Sink) (w : World) : Prop := ∀ fd, s.f = some fd → Knows p s.torn fd w

theorem Right.later (h : Right p s w) (hl : Later p w t) : Right p s t :=
  fun fd hfd => (h fd hfd).later hl

theorem runs_op {f : Answer o → Steps α} (ho : ∀ fd torn line, o ≠ .write fd torn line)
    (h : ∀ u c r t, Later p w u → Good u → act p u o c = some (r, t) → Later p w t →
      Runs p Q (f r) t) : Runs p Q (perform o >>= f) w := by
  intro u hl hu c r t hact
  obtain ⟨_, hact⟩ := under_eq_some.mp hact
  have hquiet := quiet_step hu ho hact
  exact ⟨hquiet.good hu, fun q _ => hquiet.later q,
    h u c r t hl hu hact (hl.trans (hquiet.later p))⟩

theorem runs_quiet {f : Answer o → Steps α} (ho : ∀ fd torn line, o ≠ .write fd torn line)
    (h : ∀ r t, Later p w t → Runs p Q (f r) t) : Runs p Q (perform o >>= f) w :=
  runs_op ho fun _ _ r t _ _ _ hl => h r t hl

theorem open_knows {r : Answer .openActive} (hw : Good w)
    (h : act p w .openActive c = some (r, t)) (hr : r = .ok fd) (torn : Bool) :
    Knows p torn fd t := by
  obtain ⟨hquiet, hfile⟩ := created_quiet hw
  cases c <;> cases h <;> cases hr
  refine ⟨hfile, Nat.lt_succ_self _, fun hl _ => ?_⟩
  exact absurd ((hquiet.good hw).opened _ _ _ hl) (Nat.lt_irrefl _)

theorem open_runs (hs : Right p s w) : Runs p (fun a t => Right p a.2 t) s.open w := by
  refine runs_op (by simp) fun u c r t hl hu hact hlt => ?_
  cases r with
  | error err => exact hs.later hlt
  | ok fd =>
    have hk := open_knows hu hact rfl
    refine runs_quiet (by simp) fun r v hlv => ?_
    cases r with
    | error err =>
      exact runs_quiet (by simp) fun _ x hlx => hs.later ((hlt.trans hlv).trans hlx)
    | ok size =>
      rintro fd' ⟨⟩
      exact (hk s.torn).later hlv

theorem pushOlder_runs {i : Nat} {f : Unit → Steps α}
    (h : ∀ t, Later p w t → Runs p Q (f ()) t) : Runs p Q (pushOlder i >>= f) w := by
  induction i generalizing w with
  | zero => exact h w (.refl p w)
  | succ i ih =>
    exact runs_quiet (by simp) fun _ t hl => ih fun u hu => h u (hl.trans hu)

theorem pushArchives_runs {f : Unit → Steps α}
    (h : ∀ t, Later p w t → Runs p Q (f ()) t) : Runs p Q (pushArchives >>= f) w := by
  have hrest : Runs p Q (pushOlder (archives - 1) >>= fun _ =>
      rename .rotating (.archive 1) >>= fun _ => f ()) w :=
    pushOlder_runs fun t hl => runs_quiet (by simp) fun _ u hu => h u (hl.trans hu)
  exact hrest

theorem right_of_none (h : s.f = none) : Right p s w := fun fd hfd => by rw [h] at hfd; cases hfd

theorem afresh_runs {moved : Bool} : Runs p (fun a t => Right p a.2 t) (s.afresh fd moved) w := by
  refine runs_quiet (by simp) fun _ t _ => ?_
  cases moved with
  | true => exact pushArchives_runs fun u _ => open_runs (right_of_none rfl)
  | false => exact open_runs (right_of_none rfl)

theorem moveActive_runs (hs : Right p s w) :
    Runs p (fun a t => Right p a.2 t) (s.moveActive fd) w := by
  refine runs_quiet (by simp) fun r t hl => ?_
  cases r with
  | none => exact afresh_runs
  | some err =>
    cases err with
    | notExist => exact afresh_runs
    | other err => exact hs.later hl

theorem rotate_runs (hs : Right p s w) : Runs p (fun a t => Right p a.2 t) (s.rotate fd) w := by
  refine runs_quiet (by simp) fun r t hl => ?_
  cases r with
  | true => exact pushArchives_runs fun u hu => moveActive_runs (hs.later (hl.trans hu))
  | false => exact moveActive_runs (hs.later hl)

theorem rotateOrFollow_runs (hs : Right p s w) :
    Runs p (fun a t => Right p a.2 t) (s.rotateOrFollow fd) w := by
  refine runs_quiet (by simp) fun mine t ht => runs_quiet (by simp) fun active u hu => ?_
  have hsu := hs.later (ht.trans hu)
  cases mine with
  | error err => exact rotate_runs hsu
  | ok size =>
    cases active with
    | error err => exact rotate_runs hsu
    | ok i =>
      dsimp only
      split
      · exact rotate_runs hsu
      · exact afresh_runs

/-- What is so when a line has been added, or not. -/
def Took (p : Pid) (line : Line) (a : Added) (t : World) : Prop :=
  Right p a.2 t ∧ (a.1.1 = true → ∃ x ∈ t.kept, x.pid = p ∧ x.line = line)

theorem runs_write {f : Nat × Option Err → Steps α} (hk : Knows p torn fd w)
    (h : ∀ n err t, n ≤ (lineBytes torn line).length →
      Knows p (tornAfter torn n (lineBytes torn line).length err) fd t →
      (n = (lineBytes torn line).length ∧ err = none →
        ∃ x ∈ t.kept, x.pid = p ∧ x.line = line) → Runs p Q (f (n, err)) t) :
    Runs p Q (perform (Op.write fd torn line) >>= f) w := by
  intro u hl hu c r t hact
  obtain ⟨hown, hact⟩ := under_eq_some.mp hact
  have hk := hk.later hl
  obtain ⟨hle, _, _, _, hkept⟩ := write_step hact
  refine ⟨write_good hu hk hown hact, fun q hq => write_later hq hact,
    h r.1 r.2 t hle (write_knows hk hact) fun hall => ?_⟩
  rw [hkept, if_pos hall]
  exact ⟨_, List.mem_append_right _ List.mem_cons_self, rfl, rfl⟩

theorem put_runs {problem : Option Err} (hfd : s.f = some fd) (hs : Right p s w) :
    Runs p (Took p line) (s.put fd line problem) w := by
  refine runs_write (hs fd hfd) fun n err t hle hknows hkept => ?_
  dsimp only
  by_cases hall : n = (lineBytes s.torn line).length ∧ err = none
  · rw [tornAfter, if_pos hall] at hknows
    obtain ⟨x, hx⟩ := hkept hall
    rw [if_neg fun h => absurd h.2 (by rw [hall.1]; exact Nat.lt_irrefl _), hall.2]
    refine ⟨fun fd' hfd' => ?_, fun _ => ⟨x, hx⟩⟩
    obtain rfl : fd = fd' := Option.some.inj (hfd.symm.trans hfd')
    exact hknows
  · have hfailed : ∃ e, (if err = none ∧ n < (lineBytes s.torn line).length then some "short write"
        else err) = some e := by
      cases err with
      | some e => exact ⟨e, by simp⟩
      | none =>
        have hlt : n < (lineBytes s.torn line).length :=
          Nat.lt_of_le_of_ne hle fun hn => hall ⟨hn, rfl⟩
        exact ⟨"short write", by simp [hlt]⟩
    obtain ⟨e, he⟩ := hfailed
    rw [he]
    rw [tornAfter, if_neg hall] at hknows
    refine ⟨fun fd' hfd' => ?_, fun hk => absurd hk Bool.false_ne_true⟩
    obtain rfl : fd = fd' := Option.some.inj (hfd.symm.trans hfd')
    exact hknows

theorem Took.refused (h : Right p s w) (err : Option Err) : Took p line ((false, err), s) w :=
  ⟨h, fun hk => absurd hk Bool.false_ne_true⟩

theorem place_runs (hfd : s.f = some fd) (hs : Right p s w) :
    Runs p (Took p line) (s.place fd line) w := by
  refine runs_quiet (by simp) fun size t hl => ?_
  dsimp only
  have ht : Right p { s with size := max s.size (size.toOption.getD 0) } t := hs.later hl
  split
  · refine stands_bind ((rotateOrFollow_runs ht).mono ?_)
    rintro ⟨err, s'⟩ u hu
    dsimp only
    cases hf : s'.f with
    | none => cases err <;> exact Took.refused hu _
    | some fd' =>
      cases err with
      | none => exact put_runs hf hu
      | some err =>
        dsimp only
        split
        · exact Took.refused hu _
        · exact put_runs hf hu
  · exact put_runs hfd ht

theorem add_runs (hs : Right p s w) : Runs p (Took p line) (s.add line) w := by
  unfold Sink.add
  cases hf : s.f with
  | some fd => exact place_runs hf hs
  | none =>
    refine stands_bind ((open_runs hs).mono ?_)
    rintro ⟨err, s'⟩ u hu
    dsimp only
    cases err with
    | some err => exact Took.refused hu _
    | none =>
      cases hf : s'.f with
      | none => exact Took.refused hu _
      | some fd => exact place_runs hf hu

/-- A write that reported its line kept has kept it. -/
def Told (p : Pid) (k : Kind) (r : Result) (t : World) : Prop :=
  ∀ line problem, k = .write line → r = .wrote true problem →
    ∃ x ∈ t.kept, x.pid = p ∧ x.line = line

theorem call_runs (k : Kind) (hs : Right p s w) :
    Runs p (fun a t => Right p a.2 t ∧ Told p k a.1 t) (call k s) w := by
  cases k with
  | openSink =>
    refine stands_bind ((open_runs hs).mono fun a t ht => ?_)
    exact ⟨ht, fun _ _ hk => by cases hk⟩
  | close =>
    show Runs p _ s.closeFile w
    unfold Sink.closeFile
    split
    · exact ⟨hs, fun _ _ hk => by cases hk⟩
    · split
      · exact ⟨hs, fun _ _ hk => by cases hk⟩
      · exact runs_quiet (by simp) fun _ t hl => ⟨hs.later hl, fun _ _ hk => by cases hk⟩
  | write line =>
    show Runs p _ (s.write line) w
    unfold Sink.write
    split
    · exact ⟨hs, fun _ _ _ hr => by cases hr⟩
    · refine stands_bind ((add_runs hs).mono ?_)
      rintro ⟨⟨kept, problem⟩, s'⟩ t ⟨hright, htook⟩
      refine ⟨hright, ?_⟩
      rintro line' problem' ⟨⟩ ⟨⟩
      exact htook rfl

/-! ## Any number of processes -/

theorem sinks_sound :
    Crew.Sound sinks Own Good Later (fun p s w => Right p s w) Told Untouched where
  refl := .refl
  trans _ _ _ _ := .trans
  memory _ _ _ _ h hl := h.later hl
  result _ _ _ _ _ h hl line problem hk hr :=
    (h line problem hk hr).imp fun _ hx => ⟨hl.kept hx.1, hx.2⟩
  init w h := by
    obtain ⟨hkept, hlast, hblank⟩ := h
    refine ⟨fun x hx => ?_, fun i hi => ⟨hblank i hi, hlast i⟩, fun i p n hi => ?_⟩
    · rw [hkept] at hx
      cases hx
    · rw [hlast] at hi
      cases hi
  start _ _ _ _ := right_of_none rfl
  call _ k _ _ _ hs := call_runs k hs
  die p w hw := ⟨hw, fun q _ => .refl q w⟩

/-- Every line that was kept is a line of its own, in every run in which no
sink writes to a file that ends in part of a line of another's; and every line
that a write has reported kept was. -/
theorem kept_lines_readable {m : Scene Answer World Kind Result Sink Pid}
    (h : Machine.ReachesUnder (sinks.machine Untouched) (Crew.Guard Own) m) :
    (∀ x ∈ m.now.kept, Readable m.now x) ∧
      ∀ p line problem s, m.party p = .busy (.write line) (.done (.wrote true problem, s)) →
        ∃ x ∈ m.now.kept, x.pid = p ∧ x.line = line ∧ Readable m.now x := by
  obtain ⟨hgood, hfits⟩ := sinks_sound.reached h
  refine ⟨hgood.kept, fun p line problem s hp => ?_⟩
  have hdone := hfits p
  rw [hp] at hdone
  obtain ⟨x, hx, hpid, hline⟩ := hdone.2 line problem rfl rfl
  exact ⟨x, hx, hpid, hline, hgood.kept x hx⟩

/-! ### Two processes, and a disk that was full -/

def nobody : Scene Answer World Kind Result Sink Pid :=
  ⟨⟨⟨fun _ => none, fun _ => [], 0, fun _ _ h => absurd h.symm (Option.some_ne_none _)⟩, 0,
    fun _ => none, []⟩, fun _ => .gone⟩

theorem nobody_untouched : (sinks.machine Untouched).init nobody :=
  ⟨⟨rfl, fun _ => rfl, fun _ _ => rfl⟩, fun _ => rfl⟩

def ab : Line := ⟨[97, 98], by decide⟩

def cd : Line := ⟨[99, 100], by decide⟩

/-- A process writes a line, as much of it as there is room for. -/
def writes (p : Pid) (line : Line) (n : Nat) (err : Option Err) : List (Deed Pid Nat Kind Choice) :=
  [.start p 0, .call p (.write line), .act p .ok, .act p .ok, .act p .ok, .act p (.wrote n err)]

/-- One process leaves part of a line, and is gone; the next writes after it. -/
def fullDisk : List (Deed Pid Nat Kind Choice) :=
  writes 1 ab 1 (some "no space left on device") ++ [.die 1] ++ writes 2 cd 3 none

theorem Readable.whole {x : Kept} (h : Readable w x) :
    Whole ((w.disk.bytes x.file).take x.start) := by
  obtain ⟨before, after, hb, hlen, hwhole⟩ := h
  rw [hb, ← hlen, List.append_assoc, List.take_left]
  exact hwhole

/-- A line was kept that is no line of its own. -/
theorem kept_line_after_part_of_another :
    ∃ m, Machine.Reachable (sinks.machine Untouched) m ∧
      (∃ s, m.party 2 = .busy (.write cd) (.done (.wrote true none, s))) ∧
      ∃ x ∈ m.now.kept, x.pid = 2 ∧ x.line = cd ∧ ¬ Readable m.now x := by
  refine ⟨(sinks.machine Untouched).after nobody fullDisk,
    Machine.reachable_after nobody_untouched (by decide), ⟨_, rfl⟩, ⟨2, 0, 1, cd⟩,
    by decide, rfl, rfl, fun h => ?_⟩
  have hwhole := h.whole
  revert hwhole
  decide

/-- The process that left part of a line goes on itself. -/
def goesOn : List (Deed Pid Nat Kind Choice) :=
  writes 1 ab 1 (some "no space left on device") ++
    [.ret 1, .call 1 (.write cd), .act 1 .ok, .act 1 (.wrote 4 none)]

theorem goes_on_on_a_new_line :
    let m := (sinks.machine Untouched).after nobody goesOn
    (∀ x ∈ m.now.kept, Readable m.now x) ∧
      ∀ p line problem s, m.party p = .busy (.write line) (.done (.wrote true problem, s)) →
        ∃ x ∈ m.now.kept, x.pid = p ∧ x.line = line ∧ Readable m.now x :=
  kept_lines_readable
    (Machine.reaches_under_after nobody_untouched (by decide) (by decide))

end LocalBase.Obs
