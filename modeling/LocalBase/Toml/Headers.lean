import LocalBase.Toml.Total

/-!
# Tables defined twice

A header is refused as defined twice when the joined name of its keys has been
defined before. The header that names the same table always is: what lies on
the way to a table stays there until an array on the way gets a new element.
The converse fails twice. A new element of an array starts with no tables, but
the names of those in the last one are still there; and a quoted key may have
a dot in it, so that other keys have the same joined name.
-/

namespace LocalBase.Toml

variable {name : Bytes}

namespace Entries

variable {m m' t t' : Entries} {k k' : Bytes} {v : Value} {path : List Bytes}
  {put : Entries → Value} {e : Problem} {f : Entries → Except Problem Entries} {ks : List Bytes}

theorem lookup_cons (e : Bytes × Value) :
    List.lookup k (e :: m) = if k = e.1 then some e.2 else m.lookup k := by
  obtain ⟨k₀, v₀⟩ := e
  rw [List.lookup_cons]
  by_cases h : k = k₀
  · simp [h]
  · rw [if_neg h, beq_false_of_ne h]

theorem lookup_set : (set m k v).lookup k' = if k' = k then some v else m.lookup k' := by
  induction m with
  | nil =>
    rw [set, lookup_cons]
  | cons e m ih =>
    obtain ⟨k₀, v₀⟩ := e
    rw [set]
    by_cases h : k₀ = k
    · rw [if_pos h, lookup_cons, lookup_cons, h]
      split_ifs <;> rfl
    · rw [if_neg h, lookup_cons, lookup_cons, ih]
      by_cases h' : k' = k₀
      · rw [if_pos h', if_pos h', if_neg (h' ▸ h)]
      · rw [if_neg h', if_neg h']

/-! ## Where keys lead -/

/-- The table that the keys lead to. -/
def target : List Bytes → Entries → Except Problem Entries
  | [], m => .ok m
  | k :: path, m => do
      let (t, _) ← descend m k
      target path t

/-- The keys lead to a table that is there. -/
def Leads : List Bytes → Entries → Prop
  | [], _ => True
  | k :: path, m => m.lookup k ≠ none ∧ ∃ t put, descend m k = .ok (t, put) ∧ Leads path t

theorem within_eq_error : within f path m = .error e ↔
    target path m = .error e ∨ ∃ t, target path m = .ok t ∧ f t = .error e := by
  induction path generalizing m with
  | nil => simp [within, target]
  | cons k path ih =>
    rw [within, target]
    cases descend m k with
    | error e' => simp [bind, Except.bind]
    | ok d =>
      obtain ⟨t, put⟩ := d
      rw [show (Except.ok (t, put) >>= fun x => target path x.1) = target path t from rfl, ← ih]
      show (within f path t >>= fun t => .ok (set m k (put t))) = .error e ↔ _
      rw [Fuel.bind_eq_error]
      simp

theorem descend_error {k : Bytes} (h : descend m k = .error e) : e = .alreadyValue k := by
  unfold descend at h
  split at h
  · cases h
  · cases h
  · split at h <;> cases h
    rfl
  · cases h
    rfl

theorem target_error (h : target path m = .error e) : ∃ k, e = .alreadyValue k := by
  induction path generalizing m with
  | nil => cases h
  | cons k path ih =>
    rw [target] at h
    rcases Fuel.bind_eq_error.mp h with h | ⟨⟨t, put⟩, _, h⟩
    · exact ⟨k, descend_error h⟩
    · exact ih h

theorem Leads.target (h : Leads path m) : ∃ t, target path m = .ok t := by
  induction path generalizing m with
  | nil => exact ⟨m, rfl⟩
  | cons k path ih =>
    obtain ⟨_, t, put, hd, ht⟩ := h
    rw [Entries.target, hd]
    exact ih ht

theorem descend_set (h : descend m k = .ok (t, put)) (m' : Entries) :
    ∃ put', descend (set m k (put m')) k = .ok (m', put') := by
  have hlookup : (set m k (put m')).lookup k = some (put m') := by
    rw [lookup_set, if_pos rfl]
  unfold descend at h
  rw [descend, hlookup]
  split at h
  · cases h
    exact ⟨_, rfl⟩
  · cases h
    exact ⟨_, rfl⟩
  · split at h
    · cases h
      simp
    · cases h
  · cases h

theorem descend_set_ne (h : k' ≠ k) : descend (set m k v) k' = descend m k' := by
  rw [descend, descend, lookup_set, if_neg h]

theorem leads_of_within (h : within f path m = .ok m') : Leads path m' := by
  induction path generalizing m m' with
  | nil => exact trivial
  | cons k path ih =>
    rw [within] at h
    obtain ⟨⟨t, put⟩, hd, h⟩ := Fuel.bind_eq_ok.mp h
    obtain ⟨t', ht, hm⟩ := Fuel.bind_eq_ok.mp h
    cases hm
    obtain ⟨put', hput⟩ := descend_set hd t'
    refine ⟨?_, t', put', hput, ih ht⟩
    rw [lookup_set, if_pos rfl]
    exact Option.some_ne_none _

theorem Leads.within (h : Leads ks m) (hw : within f path m = .ok m')
    (hf : ∀ rest, ks = path ++ rest → ∀ t t', f t = .ok t' → Leads rest t → Leads rest t') :
    Leads ks m' := by
  induction path generalizing ks m m' with
  | nil => exact hf ks rfl m m' hw h
  | cons k path ih =>
    rw [Entries.within] at hw
    obtain ⟨⟨t, put⟩, hd, hw⟩ := Fuel.bind_eq_ok.mp hw
    obtain ⟨t', ht, hm⟩ := Fuel.bind_eq_ok.mp hw
    cases hm
    cases ks with
    | nil => exact trivial
    | cons k' ks =>
      obtain ⟨hthere, t₀, put₀, hd₀, hrest⟩ := h
      by_cases hk : k' = k
      · subst hk
        cases hd.symm.trans hd₀
        obtain ⟨put', hput⟩ := descend_set hd t'
        refine ⟨?_, t', put', hput, ih hrest ht fun rest heq => hf rest (by rw [heq]; rfl)⟩
        rw [lookup_set, if_pos rfl]
        exact Option.some_ne_none _
      · refine ⟨?_, t₀, put₀, ?_, hrest⟩
        · rw [lookup_set, if_neg hk]
          exact hthere
        · rw [descend_set_ne hk]
          exact hd₀

theorem Leads.set_new (h : Leads ks m) (hnew : m.lookup k = none) :
    Leads ks (set m k v) := by
  cases ks with
  | nil => exact trivial
  | cons k' ks =>
    obtain ⟨hthere, t, put, hd, hrest⟩ := h
    have hk : k' ≠ k := fun heq => hthere (heq ▸ hnew)
    refine ⟨?_, t, put, ?_, hrest⟩
    · rw [lookup_set, if_neg hk]
      exact hthere
    · rw [descend_set_ne hk]
      exact hd

theorem add_leads (h : Leads ks m) (ha : add name k v m = .ok m') : Leads ks m' := by
  unfold add at ha
  split at ha
  · next hnew =>
    cases ha
    exact h.set_new hnew
  · cases ha

theorem openTable_leads {defined : List Bytes} (h : Leads ks m)
    (ho : openTable defined name k m = .ok m') : Leads ks m' := by
  unfold openTable at ho
  split at ho
  · cases ho
  · split at ho
    · next hnew =>
      cases ho
      exact h.set_new hnew
    · cases ho
      exact h
    · cases ho

theorem addElement_leads (h : Leads ks m) (hks : ks.head? ≠ some k)
    (ha : addElement k m = .ok m') : Leads ks m' := by
  unfold addElement at ha
  split at ha
  · next hnew =>
    cases ha
    exact h.set_new hnew
  · cases ha
    cases ks with
    | nil => exact trivial
    | cons k' ks =>
      have hk : k' ≠ k := fun heq => hks (heq ▸ rfl)
      obtain ⟨hthere, t, put, hd, hrest⟩ := h
      refine ⟨?_, t, put, ?_, hrest⟩
      · rw [lookup_set, if_neg hk]
        exact hthere
      · rw [descend_set_ne hk]
        exact hd
  · cases ha

theorem openTable_twice {defined : List Bytes} {name' : Bytes} :
    openTable defined name k m = .error (.definedTwice name') ↔ name ∈ defined ∧ name' = name := by
  unfold openTable
  split_ifs with h
  · simp [h, eq_comm]
  · constructor
    · intro herr
      split at herr <;> cases herr
    · exact fun hn => absurd hn.1 h

end Entries

/-! ## Statements -/

/-- The name that a statement defines. -/
def Statement.defines : Statement → Option Bytes
  | .table keys => some keys.joined
  | _ => none

namespace Parser

variable {p p' : Parser} {s : Statement} {keys : Keys} {ks : List Bytes}

theorem apply_leads (h : Entries.Leads ks p.root) (ha : p.apply s = .ok p')
    (hs : ∀ keys, s = .array keys → ¬ keys.toList <+: ks) : Entries.Leads ks p'.root := by
  cases s with
  | table keys =>
    obtain ⟨root, hw, hp⟩ := Fuel.bind_eq_ok.mp ha
    cases hp
    exact h.within hw fun rest _ t t' ht hl => Entries.openTable_leads hl ht
  | array keys =>
    obtain ⟨root, hw, hp⟩ := Fuel.bind_eq_ok.mp ha
    cases hp
    refine h.within hw fun rest heq t t' ht hl => Entries.addElement_leads hl ?_ ht
    intro hhead
    obtain ⟨k, rest', rfl⟩ := List.exists_cons_of_ne_nil (l := rest) (by rintro rfl; cases hhead)
    cases hhead
    refine hs keys rfl ⟨rest', ?_⟩
    rw [heq, Keys.toList, List.append_assoc]
    rfl
  | assign keys v =>
    obtain ⟨root, hw, hp⟩ := Fuel.bind_eq_ok.mp ha
    cases hp
    exact h.within hw fun rest _ t t' ht hl =>
      hl.within ht fun rest' _ u u' hu hl' => Entries.add_leads hl' hu

theorem leads_of_table (ha : p.apply (.table keys) = .ok p') :
    Entries.Leads keys.init p'.root := by
  obtain ⟨root, hw, hp⟩ := Fuel.bind_eq_ok.mp ha
  cases hp
  exact Entries.leads_of_within hw

theorem apply_defined (ha : p.apply s = .ok p') : p'.defined = p.defined ++ s.defines.toList := by
  cases s with
  | table keys =>
    obtain ⟨root, _, hp⟩ := Fuel.bind_eq_ok.mp ha
    cases hp
    rfl
  | array keys =>
    obtain ⟨root, _, hp⟩ := Fuel.bind_eq_ok.mp ha
    cases hp
    exact (List.append_nil _).symm
  | assign keys v =>
    obtain ⟨root, _, hp⟩ := Fuel.bind_eq_ok.mp ha
    cases hp
    exact (List.append_nil _).symm

/-- A header is refused as defined twice when its keys lead somewhere and its
name is defined. -/
theorem apply_twice :
    p.apply (.table keys) = .error (.definedTwice name) ↔
      (∃ t, Entries.target keys.init p.root = .ok t) ∧ keys.joined ∈ p.defined ∧
        name = keys.joined := by
  rw [apply, Fuel.bind_eq_error, Entries.within_eq_error]
  constructor
  · rintro ((herr | ⟨t, ht, htwice⟩) | ⟨_, _, hok⟩)
    · obtain ⟨k, hk⟩ := Entries.target_error herr
      cases hk
    · exact ⟨⟨t, ht⟩, Entries.openTable_twice.mp htwice⟩
    · cases hok
  · rintro ⟨⟨t, ht⟩, htwice⟩
    exact .inl (.inr ⟨t, ht, Entries.openTable_twice.mpr htwice⟩)

end Parser

/-! ## A document up to a header -/

/-- Where a document has led, with the statements up to there. -/
inductive Reached (src : Bytes) : List Statement → Parser → Prop
  | start : Reached src [] (.start src)
  | next {before : List Statement} {p p' : Parser} {s : Statement} {c : Cursor} :
      Reached src before p → p.read = .ok (some (s, c)) → p.next = .ok (some p') →
      Reached src (before ++ [s]) p'

/-- One of the headers before was of the same keys, and since then no array of
tables that they pass through has had a new element. -/
def DefinedBefore (before : List Statement) (keys : Keys) : Prop :=
  ∃ pre post, before = pre ++ .table keys :: post ∧
    ∀ k : Keys, .array k ∈ post → ¬ k.toList <+: keys.init

/-- The document is refused at the next header because that is defined twice. -/
def RefusedTwice (src : Bytes) (p : Parser) (keys : Keys) : Prop :=
  ∃ line, p.next = .error (.error line (.definedTwice keys.joined)) ∧
    parse src = .error (.error line (.definedTwice keys.joined))

variable {src : Bytes} {before : List Statement} {p p' : Parser} {s : Statement} {keys : Keys}
  {c : Cursor}

theorem next_of_read (h : p.read = .ok (some (s, c))) (hn : p.next = .ok (some p')) :
    ∃ q, p.apply s = .ok q ∧ p'.root = q.root ∧ p'.defined = q.defined := by
  unfold Parser.next at hn
  rw [h] at hn
  dsimp only [Bind.bind, Except.bind] at hn
  cases ha : p.apply s with
  | error problem =>
    rw [ha] at hn
    cases hn
  | ok q =>
    rw [ha] at hn
    obtain ⟨c', _, hp⟩ := Fuel.bind_eq_ok.mp hn
    cases hp
    exact ⟨q, rfl, rfl, rfl⟩

theorem next_twice (h : p.read = .ok (some (s, c))) {line : Nat} :
    p.next = .error (.error line (.definedTwice name)) ↔
      p.apply s = .error (.definedTwice name) ∧ line = c.line := by
  unfold Parser.next
  rw [h]
  dsimp only [Bind.bind, Except.bind]
  cases p.apply s with
  | error problem => simp [Cursor.fail, eq_comm, and_comm]
  | ok q =>
    constructor
    · intro herr
      rcases Fuel.bind_eq_error.mp herr with herr | ⟨_, _, herr⟩
      · rcases endOfLine_cases (c := c) with ⟨c', hc', _⟩ | ⟨line', hline⟩
        · cases hc'.symm.trans herr
        · cases hline.symm.trans herr
      · cases herr
    · rintro ⟨herr, _⟩
      cases herr

theorem Reached.goes_on (h : Reached src before p) :
    ∃ n, p.cursor.rest.length < n ∧ parse src = document n p := by
  induction h with
  | start => exact ⟨_, Nat.lt_succ_self _, rfl⟩
  | next _ _ hn ih =>
    obtain ⟨n, hlen, hparse⟩ := ih
    have hshort := next_shrinks hn
    obtain ⟨n, rfl⟩ := Nat.exists_eq_add_of_lt (Nat.zero_lt_of_lt hlen)
    refine ⟨0 + n, by omega, hparse.trans ?_⟩
    rw [document, hn]
    rfl

theorem Reached.ends (h : Reached src before p) {e : Failure} (hn : p.next = .error e) :
    parse src = .error e := by
  obtain ⟨n, hlen, hparse⟩ := h.goes_on
  obtain ⟨n, rfl⟩ := Nat.exists_eq_add_of_lt (Nat.zero_lt_of_lt hlen)
  rw [hparse, document, hn]
  rfl

theorem Reached.defined (h : Reached src before p) :
    p.defined = before.filterMap Statement.defines := by
  induction h with
  | start => rfl
  | next _ hr hn ih =>
    obtain ⟨q, ha, _, hdefined⟩ := next_of_read hr hn
    rw [hdefined, Parser.apply_defined ha, ih, List.filterMap_append]
    rename_i s _ _
    cases s
    all_goals rfl

theorem Reached.leads (h : Reached src before p) (hk : DefinedBefore before keys) :
    Entries.Leads keys.init p.root := by
  induction h with
  | start =>
    obtain ⟨pre, post, heq, _⟩ := hk
    cases pre <;> cases heq
  | @next before p p' s c _ hr hn ih =>
    obtain ⟨q, ha, hroot, _⟩ := next_of_read hr hn
    obtain ⟨pre, post, heq, hpost⟩ := hk
    rw [hroot]
    rcases List.eq_nil_or_concat post with rfl | ⟨post, s', rfl⟩
    · -- The header itself was the last statement.
      obtain ⟨rfl, hs⟩ := List.append_inj' heq rfl
      cases hs
      exact Parser.leads_of_table ha
    · rw [List.concat_eq_append] at heq hpost
      obtain ⟨rfl, hs⟩ := List.append_inj' (heq.trans (by simp :
        pre ++ .table keys :: (post ++ [s']) = (pre ++ .table keys :: post) ++ [s'])) rfl
      cases hs
      refine Parser.apply_leads (ih ⟨pre, post, rfl, fun k hk => hpost k ?_⟩) ha fun k hk => ?_
      · exact List.mem_append_left _ hk
      · subst hk
        exact hpost k (List.mem_append_right _ List.mem_cons_self)

theorem Reached.refused_iff (h : Reached src before p) (hr : p.read = .ok (some (.table keys, c))) :
    RefusedTwice src p keys ↔ (∃ t, Entries.target keys.init p.root = .ok t) ∧
      ∃ k : Keys, .table k ∈ before ∧ k.joined = keys.joined := by
  have hmem : keys.joined ∈ p.defined ↔ ∃ k : Keys, .table k ∈ before ∧ k.joined = keys.joined := by
    rw [h.defined, List.mem_filterMap]
    constructor
    · rintro ⟨s, hs, hname⟩
      cases s with
      | table k => exact ⟨k, hs, Option.some.inj hname⟩
      | array k => cases hname
      | assign k v => cases hname
    · rintro ⟨k, hk, hname⟩
      exact ⟨.table k, hk, congrArg some hname⟩
  rw [← hmem]
  constructor
  · rintro ⟨line, hn, _⟩
    obtain ⟨ht, hdefined, _⟩ := Parser.apply_twice.mp ((next_twice hr).mp hn).1
    exact ⟨ht, hdefined⟩
  · rintro ⟨ht, hdefined⟩
    have hn : p.next = .error (.error c.line (.definedTwice keys.joined)) :=
      (next_twice hr).mpr ⟨Parser.apply_twice.mpr ⟨ht, hdefined, rfl⟩, rfl⟩
    exact ⟨c.line, hn, h.ends hn⟩

theorem Reached.refused_of_defined (h : Reached src before p)
    (hr : p.read = .ok (some (.table keys, c))) (hk : DefinedBefore before keys) :
    RefusedTwice src p keys := by
  rw [h.refused_iff hr]
  refine ⟨(h.leads hk).target, keys, ?_, rfl⟩
  obtain ⟨pre, post, rfl, _⟩ := hk
  exact List.mem_append_right _ List.mem_cons_self

/-- A document's headers are refused as defined twice exactly where they are, if
and only if each whose keys lead somewhere, and whose joined name an earlier one
has, names the table of an earlier one. -/
theorem refused_exactly_iff (src : Bytes) :
    (∀ before p keys c, Reached src before p → p.read = .ok (some (.table keys, c)) →
      (RefusedTwice src p keys ↔ DefinedBefore before keys)) ↔
    ∀ before p keys c, Reached src before p → p.read = .ok (some (.table keys, c)) →
      (∃ t, Entries.target keys.init p.root = .ok t) →
      (∃ k : Keys, .table k ∈ before ∧ k.joined = keys.joined) → DefinedBefore before keys := by
  refine forall₂_congr fun before p => forall₂_congr fun keys c => forall₂_congr fun h hr => ?_
  rw [h.refused_iff hr]
  constructor
  · exact fun hiff ht hname => hiff.mp ⟨ht, hname⟩
  · intro hcond
    exact ⟨fun hboth => hcond hboth.1 hboth.2,
      fun hk => (h.refused_iff hr).mp (h.refused_of_defined hr hk)⟩

/-- A table in each of two elements of an array. -/
def twoElements : Bytes := ascii "[[x]]\n[x.y]\n[[x]]\n[x.y]\n"

theorem second_element_refused :
    ¬ ∀ src before p keys c, Reached src before p → p.read = .ok (some (.table keys, c)) →
      (RefusedTwice src p keys ↔ DefinedBefore before keys) := by
  intro h
  have hreached : ∃ p, Reached twoElements
      [.array ⟨[], [120]⟩, .table ⟨[[120]], [121]⟩, .array ⟨[], [120]⟩] p ∧
      ∃ c, p.read = .ok (some (.table ⟨[[120]], [121]⟩, c)) ∧
        ∃ t, Entries.target [[120]] p.root = .ok t :=
    ⟨_, .next (.next (.next .start rfl rfl) rfl rfl) rfl rfl, _, rfl, _, rfl⟩
  obtain ⟨p, hp, c, hr, ht⟩ := hreached
  have hrefused := (hp.refused_iff hr).mpr
    ⟨ht, ⟨[[120]], [121]⟩, List.mem_cons_of_mem _ List.mem_cons_self, rfl⟩
  obtain ⟨pre, post, heq, hpost⟩ := (h _ _ _ _ _ hp hr).mp hrefused
  have hmem : Statement.array ⟨[], [120]⟩ ∈ post := by
    rcases pre with _ | ⟨_, _ | ⟨_, _ | ⟨_, pre⟩⟩⟩
    · cases heq
    · obtain ⟨-, rfl⟩ := List.cons.inj (List.cons.inj heq).2
      exact List.mem_cons_self
    · cases heq
    · cases (List.append_eq_nil_iff.mp
        (List.cons.inj (List.cons.inj (List.cons.inj heq).2).2).2.symm).2
  exact hpost _ hmem (List.prefix_refl _)

end LocalBase.Toml
