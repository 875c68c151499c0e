import LocalBase.Lib.Fuel
import LocalBase.Toml.Document

/-!
# The readers have fuel enough

Every reader of a statement takes something off the source, and each of its
loops takes something off in every round. So none runs out of fuel on fewer
bytes than it has fuel, and a document is read to its end or to its first error.
-/

namespace LocalBase.Toml

open Readers

variable {α : Type} {c c' : Cursor} {n k : Nat}

/-- The answer of a reader that started from a cursor. -/
abbrev Cursor.Takes (k : Nat) (c : Cursor) (r : Result (α × Cursor)) : Prop :=
  Readers.Takes (fun c => c.rest.length) .exhausted k c r

theorem fail_takes {problem : Problem} : c.Takes k (c'.fail problem : Result (α × Cursor)) :=
  takes_error nofun

theorem peek_ne (h : c.peek ≠ 0) : 0 < c.rest.length := by
  rcases c with ⟨_ | ⟨b, rest⟩, line⟩
  · exact absurd rfl h
  · exact Nat.succ_pos _

theorem advance_length : (c.advance n).rest.length = c.rest.length - n := List.length_drop

theorem skipSpace_length : (skipSpace c).rest.length ≤ c.rest.length :=
  (List.dropWhile_suffix _).length_le

theorem skipLines_length {comment : Bool} {line : Nat} {rest : Bytes} :
    (skipLines comment line rest).rest.length ≤ rest.length := by
  induction rest generalizing comment line with
  | nil => exact le_refl 0
  | cons b rest ih =>
    rw [skipLines]
    split_ifs
    · exact ih.trans (Nat.le_succ _)
    · exact ih.trans (Nat.le_succ _)
    · exact ih.trans (Nat.le_succ _)
    · exact ih.trans (Nat.le_succ _)
    · exact le_refl _

theorem skipBlank_length : (skipBlank c).rest.length ≤ c.rest.length := skipLines_length

/-! ## Strings -/

theorem escape_takes : c.Takes 1 (escape c) := by
  unfold escape
  split
  · exact fail_takes
  · next e rest hrest =>
    have hlen : 2 ≤ c.rest.length := by
      have := congrArg List.length hrest
      rw [List.length_drop, List.length_cons] at this
      omega
    have hnext : (c.advance 2).rest.length + 1 ≤ c.rest.length := by
      rw [advance_length]
      omega
    -- Eight escapes of one letter, then the code points.
    iterate 8 refine takes_ite (fun _ => takes_ok hnext) fun _ => ?_
    refine takes_ite (fun _ => takes_ite (fun _ => fail_takes) fun _ => ?_) fun _ => fail_takes
    split
    · exact fail_takes
    · refine takes_ok ?_
      rw [advance_length]
      omega

theorem basicBody_takes {read : Bytes} (h : c.rest.length < n) :
    c.Takes 1 (basicBody n read c) := by
  induction n generalizing read c with
  | zero => exact absurd h (Nat.not_lt_zero _)
  | succ n ih =>
    rw [basicBody]
    split
    · exact fail_takes
    · next b rest hrest =>
      have hlen : (c.advance 1).rest.length + 1 = c.rest.length := by
        rw [advance_length, hrest, List.length_cons]
        omega
      split_ifs
      · exact fail_takes
      · exact takes_ok hlen.le
      · exact (escape_takes.bind fun e c' hc' =>
          show c'.Takes 1 (basicBody n (read ++ e) c') from ih (by omega)).of (by omega)
      · exact (ih (by omega)).of (by omega)

theorem basicString_takes (h : 0 < c.rest.length) : c.Takes 1 (basicString c) := by
  have hlen : (c.advance 1).rest.length + 1 = c.rest.length := by
    rw [advance_length]
    omega
  exact (basicBody_takes (by omega)).of (by omega)

theorem literalString_takes : c.Takes 1 (literalString c) := by
  unfold literalString
  dsimp only
  split
  · next hquote =>
    rw [List.head?_drop] at hquote
    have hlt := (List.getElem?_eq_some_iff.mp hquote).1
    refine takes_ok ?_
    dsimp only
    rw [List.length_drop] at hlt ⊢
    rw [List.length_drop]
    omega
  · exact fail_takes

theorem openQuotes_length : (openQuotes c).rest.length ≤ (c.advance 3).rest.length := by
  unfold openQuotes
  dsimp only
  split_ifs
  · exact advance_length.trans_le (Nat.sub_le _ _)
  · exact advance_length.trans_le (Nat.sub_le _ _)
  · exact le_refl _

theorem lineEnd_length (h : lineEnd c = some c') : c'.rest.length ≤ c.rest.length - 1 := by
  unfold lineEnd at h
  dsimp only at h
  split_ifs at h
  cases h
  exact (List.dropWhile_suffix _).length_le.trans List.length_drop.le

theorem multilineBody_takes {read : Bytes} (h : c.rest.length < n) :
    c.Takes 1 (multilineBody n read c) := by
  induction n generalizing read c with
  | zero => exact absurd h (Nat.not_lt_zero _)
  | succ n ih =>
    rw [multilineBody]
    split
    · exact fail_takes
    · next b rest hrest =>
      have hpos : 0 < c.rest.length := by
        rw [hrest]
        exact Nat.succ_pos _
      have hlen : (c.advance 1).rest.length + 1 = c.rest.length := by
        rw [advance_length]
        omega
      refine takes_ite (fun _ => takes_ok ?_) fun _ => takes_ite (fun _ => ?_) fun _ => ?_
      · rw [advance_length]
        omega
      · split
        · next c' hc' =>
          have hshort := lineEnd_length hc'
          exact (ih (by omega)).of (by omega)
        · exact (escape_takes.bind fun e c' hc' =>
            show c'.Takes 1 (multilineBody n (read ++ e) c') from ih (by omega)).of (by omega)
      · exact (ih (by exact (by omega : (c.advance 1).rest.length < n))).of (by
          dsimp only
          omega)

theorem multilineBasic_takes (h : 0 < c.rest.length) : c.Takes 1 (multilineBasic c) := by
  have hopen := openQuotes_length (c := c)
  rw [advance_length] at hopen
  exact (multilineBody_takes (by omega)).of (by omega)

theorem multilineLiteral_takes (h : 0 < c.rest.length) : c.Takes 1 (multilineLiteral c) := by
  have hopen := openQuotes_length (c := c)
  rw [advance_length] at hopen
  unfold multilineLiteral
  dsimp only
  split
  · exact fail_takes
  · refine takes_ok ?_
    dsimp only
    rw [List.length_drop]
    omega

/-! ## Numbers, keys and values -/

theorem number_takes : c.Takes 1 (number c) := by
  unfold number
  dsimp only
  refine takes_ite (fun _ => fail_takes) fun hraw => ?_
  have hlen : (c.advance (c.rest.takeWhile isNumberByte).length).rest.length + 1 ≤
      c.rest.length := by
    have hpos := List.length_pos_iff.mpr hraw
    have hle := (List.takeWhile_prefix (l := c.rest) isNumberByte).length_le
    rw [advance_length]
    omega
  refine takes_ite (fun _ => takes_ok hlen) fun _ => takes_ite (fun _ => takes_ok hlen) fun _ => ?_
  refine takes_ite (fun _ => ?_) fun _ => takes_ite (fun _ => ?_) fun _ =>
    takes_ite (fun _ => ?_) fun _ => takes_ite (fun _ => ?_) fun _ => ?_
  -- Each base has a reader of its own, and only what it answers matters.
  all_goals
    split
    · exact fail_takes
    · exact takes_ok hlen

theorem keyPart_takes : c.Takes 1 (keyPart c) := by
  unfold keyPart
  refine takes_ite (fun h => basicString_takes (peek_ne (h ▸ by decide))) fun _ => ?_
  refine takes_ite (fun _ => literalString_takes) fun _ => takes_ite (fun h => takes_ok ?_)
    fun _ => fail_takes
  have hpos : 0 < (c.rest.takeWhile isBare).length := by
    rcases c with ⟨_ | ⟨b, rest⟩, line⟩
    · have hnone : isBare 0 = false := by decide
      cases hnone.symm.trans h
    · have hb : isBare b = true := h
      dsimp only
      rw [List.takeWhile_cons_of_pos hb]
      exact Nat.succ_pos _
  have hle := (List.takeWhile_prefix (l := c.rest) isBare).length_le
  rw [advance_length]
  omega

theorem keyParts_takes {init : List Bytes} (h : c.rest.length < n) :
    c.Takes 1 (keyParts n init c) := by
  induction n generalizing init c with
  | zero => exact absurd h (Nat.not_lt_zero _)
  | succ n ih =>
    have hspace := skipSpace_length (c := c)
    rw [keyParts]
    refine (keyPart_takes.bind (l := 0) fun k c' hc' => ?_).of (by omega)
    have hspace' := skipSpace_length (c := c')
    refine takes_ite (fun _ => ?_) fun _ => takes_ok hspace'
    have hlen : ((skipSpace c').advance 1).rest.length ≤ c'.rest.length := by
      rw [advance_length]
      omega
    exact (ih (by omega)).of (by omega)

theorem key_takes : c.Takes 1 (key c) := keyParts_takes (Nat.lt_succ_self _)

/-- Each reader of values, by the fuel: an item may start where the value that it
is in goes on, so there are two rounds for a byte. -/
structure ValueReaders (n : Nat) : Prop where
  value : ∀ c : Cursor, 2 * c.rest.length < n → c.Takes 1 (value n c)
  array : ∀ out (c : Cursor), 2 * c.rest.length + 1 < n → c.Takes 1 (arrayItems n out c)
  inline : ∀ out (c : Cursor), 2 * c.rest.length + 1 < n → c.Takes 1 (inlineItems n out c)
  assign : ∀ c : Cursor, 2 * c.rest.length < n → c.Takes 1 (keyAndValue n c)

theorem valueReaders (n : Nat) : ValueReaders n := by
  induction n with
  | zero =>
    exact ⟨fun _ h => absurd h (Nat.not_lt_zero _), fun _ _ h => absurd h (Nat.not_lt_zero _),
      fun _ _ h => absurd h (Nat.not_lt_zero _), fun _ h => absurd h (Nat.not_lt_zero _)⟩
  | succ n ih =>
    refine ⟨fun c h => ?_, fun out c h => ?_, fun out c h => ?_, fun c h => ?_⟩
    · rw [value]
      refine takes_ite (fun hc => ?_) fun _ => takes_ite (fun hc => ?_) fun _ =>
        takes_ite (fun hc => ?_) fun _ => takes_ite (fun hc => ?_) fun _ => ?_
      · have hpos := peek_ne (c := c) (hc ▸ by decide)
        exact takes_ite
          (fun _ => (multilineBasic_takes hpos).bind (l := 0) fun s c' _ => takes_ok (le_refl _))
          fun _ => (basicString_takes hpos).bind (l := 0) fun s c' _ => takes_ok (le_refl _)
      · have hpos := peek_ne (c := c) (hc ▸ by decide)
        exact takes_ite
          (fun _ => (multilineLiteral_takes hpos).bind (l := 0) fun s c' _ => takes_ok (le_refl _))
          fun _ => literalString_takes.bind (l := 0) fun s c' _ => takes_ok (le_refl _)
      · have hpos := peek_ne (c := c) (hc ▸ by decide)
        have hlen : (c.advance 1).rest.length + 1 = c.rest.length := by
          rw [advance_length]
          omega
        exact (ih.array _ _ (by omega)).of (by omega)
      · have hpos := peek_ne (c := c) (hc ▸ by decide)
        have hspace := skipSpace_length (c := c.advance 1)
        rw [advance_length] at hspace
        refine takes_ite (fun _ => takes_ok ?_) fun _ => (ih.inline _ _ (by omega)).of (by omega)
        rw [advance_length]
        omega
      · refine takes_ite (fun ht => takes_ok ?_) fun _ => takes_ite (fun hf => takes_ok ?_)
          fun _ => number_takes
        · have hlen : 4 ≤ c.rest.length := (List.isPrefixOf_iff_prefix.mp ht).length_le
          rw [advance_length]
          omega
        · have hlen : 5 ≤ c.rest.length := (List.isPrefixOf_iff_prefix.mp hf).length_le
          rw [advance_length]
          omega
    · rw [arrayItems]
      have hblank := skipBlank_length (c := c)
      refine takes_ite (fun hend => takes_ok ?_) fun _ => ?_
      · have := peek_ne (c := skipBlank c) (hend ▸ by decide)
        rw [advance_length]
        omega
      · refine ((ih.value _ (by omega)).bind (l := 0) fun v c' hc' => ?_).of (by omega)
        have hblank' := skipBlank_length (c := c')
        have hlen : ((skipBlank c').advance 1).rest.length ≤ c'.rest.length := by
          rw [advance_length]
          omega
        refine takes_ite (fun hcomma => ?_) fun _ => takes_ite (fun _ => takes_ok hlen)
          fun _ => fail_takes
        exact (ih.array _ _ (by omega)).of (by omega)
    · rw [inlineItems]
      have hspace := skipSpace_length (c := c)
      refine ((ih.assign _ (by omega)).bind (l := 0) fun a c' hc' => ?_).of (by omega)
      obtain ⟨keys, v⟩ := a
      dsimp only
      cases Entries.assign keys v out with
      | error problem => exact fail_takes
      | ok out =>
        have hspace' := skipSpace_length (c := c')
        have hlen : ((skipSpace c').advance 1).rest.length ≤ c'.rest.length := by
          rw [advance_length]
          omega
        refine takes_ite (fun _ => ?_) fun _ => takes_ite (fun _ => takes_ok hlen)
          fun _ => fail_takes
        exact (ih.inline _ _ (by omega)).of (by omega)
    · rw [keyAndValue]
      refine (key_takes.bind (l := 0) fun keys c' hc' => ?_).of (by omega)
      have hspace := skipSpace_length (c := c')
      refine takes_ite (fun _ => ?_) fun _ => fail_takes
      have hspace' := skipSpace_length (c := (skipSpace c').advance 1)
      rw [advance_length] at hspace'
      refine ((ih.value _ (by omega)).bind (l := 0) fun v c'' hc'' => ?_).of (by omega)
      exact takes_ok (le_refl _)

/-! ## Statements and documents -/

theorem header_takes (h : c.peek = 91) : c.Takes 1 (header c) := by
  have hpos := peek_ne (c := c) (h ▸ by decide)
  have hlen : (c.advance 1).rest.length + 1 = c.rest.length := by
    rw [advance_length]
    omega
  unfold header
  dsimp only
  generalize decide ((c.advance 1).peek = 91) = array
  have hopen :
      (skipSpace (if array = true then (c.advance 1).advance 1 else c.advance 1)).rest.length
        ≤ (c.advance 1).rest.length := by
    refine skipSpace_length.trans ?_
    split
    · rw [advance_length]
      omega
    · exact le_refl _
  refine (key_takes.bind (l := 0) fun keys c' hc' => ?_).of (by omega)
  have hclose := skipSpace_length (c := c')
  have hlen' : ((skipSpace c').advance 1).rest.length ≤ c'.rest.length := by
    rw [advance_length]
    omega
  refine takes_ite (fun _ => fail_takes) fun _ => takes_ite (fun _ => ?_) fun _ => takes_ok hlen'
  refine takes_ite (fun _ => fail_takes) fun _ => takes_ok ?_
  dsimp only
  rw [advance_length]
  omega

theorem statement_takes : c.Takes 1 (statement c) := by
  unfold statement
  refine takes_ite (fun h => header_takes h) fun _ => ?_
  exact Takes.bind (l := 0) ((valueReaders _).assign c (by omega)) fun a c' hc' =>
    takes_ok (le_refl _)

theorem skipComment_length : (skipComment c).rest.length ≤ c.rest.length := by
  unfold skipComment
  split
  · exact (List.dropWhile_suffix _).length_le
  · exact le_refl _

theorem endOfLine_cases : (∃ c', endOfLine c = .ok c' ∧ c'.rest.length ≤ c.rest.length) ∨
    ∃ line, endOfLine c = .error (.error line .endOfLine) := by
  have hlen := (skipComment_length (c := skipSpace c)).trans skipSpace_length
  unfold endOfLine
  generalize skipComment (skipSpace c) = d at hlen ⊢
  dsimp only
  have hreturn : (if d.peek = 13 then d.advance 1 else d).rest.length ≤ d.rest.length := by
    split
    · rw [advance_length]
      exact Nat.sub_le _ _
    · exact le_refl _
  generalize (if d.peek = 13 then d.advance 1 else d) = e at hreturn ⊢
  by_cases h : e.rest = [] ∨ e.peek = newline
  · exact .inl ⟨e, if_pos h, hreturn.trans hlen⟩
  · exact .inr ⟨e.line, if_neg h⟩

variable {p p' : Parser} {s : Statement}

theorem read_shrinks (h : p.read = .ok (some (s, c))) :
    c.rest.length < p.cursor.rest.length := by
  unfold Parser.read at h
  dsimp only at h
  split at h
  · cases h
  · have hblank := skipBlank_length (c := p.cursor)
    have htakes := statement_takes (c := skipBlank p.cursor)
    cases hs : statement (skipBlank p.cursor) with
    | error e =>
      rw [hs] at h
      cases h
    | ok a =>
      rw [hs] at h
      cases h
      have hshort : c.rest.length + 1 ≤ _ := htakes.2 s c hs
      exact lt_of_lt_of_le hshort hblank

theorem read_ne : p.read ≠ .error .exhausted := by
  unfold Parser.read
  dsimp only
  split
  · exact nofun
  · have htakes := statement_takes (c := skipBlank p.cursor)
    cases hs : statement (skipBlank p.cursor) with
    | error e =>
      rintro h
      cases h
      exact htakes.1 hs
    | ok a => exact nofun

theorem next_shrinks (h : p.next = .ok (some p')) :
    p'.cursor.rest.length < p.cursor.rest.length := by
  obtain ⟨a, hr, h⟩ := Fuel.bind_eq_ok.mp h
  cases a with
  | none => cases h
  | some a =>
    obtain ⟨s, c⟩ := a
    have hread := read_shrinks hr
    dsimp only at h
    split at h
    · cases h
    · obtain ⟨c', hc', h⟩ := Fuel.bind_eq_ok.mp h
      cases h
      rcases endOfLine_cases (c := c) with ⟨c'', hc'', hlen⟩ | ⟨line, herr⟩
      · cases hc''.symm.trans hc'
        exact lt_of_le_of_lt hlen hread
      · cases herr.symm.trans hc'

theorem next_ne : p.next ≠ .error .exhausted := by
  intro h
  rcases Fuel.bind_eq_error.mp h with h | ⟨a, hr, h⟩
  · exact read_ne h
  · cases a with
    | none => cases h
    | some a =>
      obtain ⟨s, c⟩ := a
      dsimp only at h
      split at h
      · cases h
      · rcases Fuel.bind_eq_error.mp h with h | ⟨c', _, h⟩
        · rcases endOfLine_cases (c := c) with ⟨c'', hc'', _⟩ | ⟨line, herr⟩
          · cases hc''.symm.trans h
          · cases herr.symm.trans h
        · cases h

theorem document_ne (h : p.cursor.rest.length < n) : document n p ≠ .error .exhausted := by
  induction n generalizing p with
  | zero => exact absurd h (Nat.not_lt_zero _)
  | succ n ih =>
    intro herr
    rw [document] at herr
    rcases Fuel.bind_eq_error.mp herr with herr | ⟨a, hn, herr⟩
    · exact next_ne herr
    · cases a with
      | none => cases herr
      | some p' =>
        have hshort := next_shrinks hn
        exact ih (by omega) herr

theorem parse_ne (src : Bytes) : parse src ≠ .error .exhausted :=
  document_ne (Nat.lt_succ_self _)

end LocalBase.Toml
