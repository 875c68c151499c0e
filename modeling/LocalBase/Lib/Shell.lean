import Mathlib.Tactic.Common

/-!
# What a shell reads

A POSIX shell's reading of a line, as far as the line is one simple command whose words are
all literal. Anything unquoted that has a meaning of its own, be it an operator, an
expansion, a pattern or a comment, is no such line, and the reading says which it was. What
is quoted is read as it stands, and the rules below put a word together from its parts.
-/

namespace Shell

abbrev Text := List Char

/-- What has a meaning other than itself. -/
inductive Meaning where
  /-- `|`, `&`, `;`, a redirection, a parenthesis or the end of a line. -/
  | operator
  /-- `$` or a backquote. -/
  | expansion
  | pattern
  | tilde
  | brace
  | comment
  | history
  /-- A first word that assigns, or that the grammar reserves. -/
  | grammar
  | unfinished
deriving DecidableEq

def isBlank (c : Char) : Bool := c = ' ' || c = '\t'

def quoteMark : Char := Char.ofNat 39

def operators : Text := "|&;<>()\n".toList

def expanders : Text := "$\x60".toList

def patterns : Text := "*?[".toList

def braces : Text := "\x7b\x7d".toList

/-- The meaning of a character that stands unquoted, of some in shells that are more than
POSIX; that of `#` is at the start of a word. -/
def meaning (start : Bool) (c : Char) : Option Meaning :=
  if c = '#' then if start then some .comment else none
  else if operators.contains c then some .operator
  else if expanders.contains c then some .expansion
  else if patterns.contains c then some .pattern
  else if c = '~' then some .tilde
  else if braces.contains c then some .brace
  else if c = '!' then some .history
  else none

/-- Where the reading is: unquoted, in quotes of either kind, or after a backslash. -/
inductive Quote where
  | bare
  | escape
  | single
  | double
  | doubleEscape

def isMarked (c : Char) : Bool := "$\x60\"\\".toList.contains c

/-- The words of a text: `word` is the one that is being read, if any, and `done` are those
before it. -/
def readFrom : Quote → Option Text → List Text → Text → Except Meaning (List Text)
  | .bare, word, done, [] => .ok (done ++ word.toList)
  | _, _, _, [] => .error .unfinished
  | .bare, word, done, c :: cs =>
    if isBlank c then readFrom .bare none (done ++ word.toList) cs
    else if c = quoteMark then readFrom .single (some (word.getD [])) done cs
    else if c = '"' then readFrom .double (some (word.getD [])) done cs
    else if c = '\\' then readFrom .escape word done cs
    else
      match meaning word.isNone c with
      | some m => .error m
      | none => readFrom .bare (some (word.getD [] ++ [c])) done cs
  | .escape, word, done, c :: cs =>
    if c = '\n' then readFrom .bare word done cs
    else readFrom .bare (some (word.getD [] ++ [c])) done cs
  | .single, word, done, c :: cs =>
    if c = quoteMark then readFrom .bare word done cs
    else readFrom .single (some (word.getD [] ++ [c])) done cs
  | .double, word, done, c :: cs =>
    if c = '"' then readFrom .bare word done cs
    else if c = '\\' then readFrom .doubleEscape word done cs
    else if isMarked c then .error .expansion
    else readFrom .double (some (word.getD [] ++ [c])) done cs
  | .doubleEscape, word, done, c :: cs =>
    if c = '\n' then readFrom .double word done cs
    else if isMarked c then readFrom .double (some (word.getD [] ++ [c])) done cs
    else readFrom .double (some (word.getD [] ++ ['\\', c])) done cs

/-- The words that are no command's name. -/
def reserved : List Text :=
  ["case", "do", "done", "elif", "else", "esac", "fi", "for", "if", "in", "then", "until",
    "while"].map String.toList

/-- The words of a simple command. -/
def read (line : Text) : Except Meaning (List Text) :=
  match readFrom .bare none [] line with
  | .error m => .error m
  | .ok [] => .ok []
  | .ok (name :: words) =>
    if name.contains '=' || reserved.contains name then .error .grammar
    else .ok (name :: words)

/-! ## Words from their parts -/

variable {t t' w w' line : Text} {texts words : List Text}

/-- A text is read as this much of a word, wherever a word may stand. -/
def Reads (t w : Text) : Prop :=
  ∀ word done rest, readFrom .bare word done (t ++ rest) =
    readFrom .bare (some (word.getD [] ++ w)) done rest

theorem Reads.append (h : Reads t w) (h' : Reads t' w') : Reads (t ++ t') (w ++ w') := by
  intro word done rest
  rw [List.append_assoc, h, h', Option.getD_some, List.append_assoc]

/-- The characters that may be read as other than themselves. -/
def marks : Text :=
  quoteMark :: ' ' :: '\t' :: '"' :: '\\' :: '#' :: '~' :: '!' ::
    (operators ++ expanders ++ patterns ++ braces)

theorem reads_char {c : Char} (h : c ∉ marks) : Reads [c] [c] := by
  intro word done rest
  simp only [marks, List.mem_cons, List.mem_append, not_or] at h
  obtain ⟨hquote, hspace, htab, hdouble, hback, hhash, htilde, hbang, hrest⟩ := h
  obtain ⟨⟨⟨hop, hexp⟩, hpat⟩, hbrace⟩ := hrest
  have hblank : isBlank c = false := by simp [isBlank, hspace, htab]
  have hmeaning : meaning word.isNone c = none := by
    simp [meaning, hhash, hop, hexp, hpat, htilde, hbrace, hbang]
  rw [List.singleton_append, readFrom, hblank, if_neg Bool.false_ne_true, if_neg hquote,
    if_neg hdouble, if_neg hback, hmeaning]

/-- A word that needs no quoting. -/
def plain (w : Text) : Bool := w ≠ [] && w.all (! marks.contains ·)

theorem reads_all (hne : t ≠ []) (h : ∀ c ∈ t, c ∉ marks) : Reads t t := by
  induction t with
  | nil => exact absurd rfl hne
  | cons c t ih =>
    have hfirst := reads_char (h c (List.mem_cons_self ..))
    cases t with
    | nil => exact hfirst
    | cons d t =>
      exact hfirst.append (ih (List.cons_ne_nil d t) fun e he =>
        h e (List.mem_cons_of_mem c he))

theorem reads_plain (h : plain w = true) : Reads w w := by
  rw [plain, Bool.and_eq_true, decide_eq_true_eq, List.all_eq_true] at h
  refine reads_all h.1 fun c hc hmem => ?_
  have hnot := h.2 c hc
  rw [List.contains_iff_mem.2 hmem] at hnot
  cases hnot

/-! ## Quoting -/

/-- A character in single quotes; the mark itself is left out of them. -/
def escaped (c : Char) : Text :=
  if c = quoteMark then [quoteMark, '\\', quoteMark, quoteMark] else [c]

def quoted (s : Text) : Text := quoteMark :: s.flatMap escaped ++ [quoteMark]

theorem readFrom_escaped (s : Text) (word : Text) (done : List Text) (rest : Text) :
    readFrom .single (some word) done (s.flatMap escaped ++ quoteMark :: rest) =
      readFrom .bare (some (word ++ s)) done rest := by
  induction s generalizing word with
  | nil =>
    rw [List.flatMap_nil, List.nil_append, readFrom, if_pos rfl, List.append_nil]
  | cons c s ih =>
    rw [List.flatMap_cons, List.append_assoc, escaped]
    split
    · next hc =>
      -- Out of the quotes, the mark after a backslash, and into them again.
      subst hc
      simp only [List.cons_append, List.nil_append]
      rw [readFrom, if_pos rfl, readFrom, if_neg (by decide), if_neg (by decide),
        if_neg (by decide), if_pos rfl, readFrom, if_neg (by decide), readFrom,
        if_neg (by decide), if_pos rfl, Option.getD_some, Option.getD_some, ih,
        List.append_assoc, List.singleton_append]
    · next hc =>
      rw [List.singleton_append, readFrom, if_neg hc, Option.getD_some, ih,
        List.append_assoc, List.singleton_append]

theorem reads_quoted (s : Text) : Reads (quoted s) s := by
  intro word done rest
  rw [quoted, List.append_assoc, List.cons_append, readFrom, if_neg (by decide), if_pos rfl,
    List.singleton_append, readFrom_escaped]

/-! ## Lines -/

def spaced (texts : List Text) : Text := [' '].intercalate texts

theorem readFrom_spaced {done : List Text} (hne : texts ≠ [])
    (h : List.Forall₂ Reads texts words) :
    readFrom .bare none done (spaced texts) = .ok (done ++ words) := by
  induction h generalizing done with
  | nil => exact absurd rfl hne
  | @cons t w texts words hw hrest ih =>
    cases texts with
    | nil =>
      cases hrest
      have hend := hw none done []
      rw [List.append_nil] at hend
      rw [spaced, List.intercalate_singleton, hend]
      rfl
    | cons t' texts =>
      have hsplit : spaced (t :: t' :: texts) = t ++ (' ' :: spaced (t' :: texts)) := by
        rw [spaced, spaced, List.intercalate_cons_cons, List.append_assoc]
        rfl
      rw [hsplit, hw, readFrom, if_pos (by decide : isBlank ' ' = true),
        ih (List.cons_ne_nil t' texts), List.append_assoc]
      rfl

/-- A line of words that starts with a command's name is read as those words. -/
theorem read_spaced {name : Text} (h : List.Forall₂ Reads texts (name :: words))
    (hname : name.contains '=' = false) (hreserved : reserved.contains name = false) :
    read (spaced texts) = .ok (name :: words) := by
  have hne : texts ≠ [] := by
    rintro rfl
    cases h
  rw [read, readFrom_spaced hne h, List.nil_append]
  dsimp only
  rw [hname, hreserved]
  rfl

end Shell
