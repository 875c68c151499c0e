import LocalBase.Toml.Syntax

/-!
# TOML documents

`Parse` reads one statement after another. A header moves the current table, and
an assignment adds to it. The current table is kept as the keys of the last
header: only headers add elements to arrays of tables, so between two of them
the keys lead to the same table.
-/

namespace LocalBase.Toml

/-- The explicitly defined tables are remembered by their joined names. -/
structure Parser where
  cursor : Cursor
  root : Entries := []
  cur : List Bytes := []
  defined : List Bytes := []

def Parser.start (src : Bytes) : Parser := { cursor := ⟨src, 1⟩ }

namespace Entries

/-- `[[keys]]`: a new element of the array at the last key. -/
def addElement (k : Bytes) (m : Entries) : Except Problem Entries :=
  match m.lookup k with
  | none => .ok (set m k (.array [.table []]))
  | some (.array items) => .ok (set m k (.array (items ++ [.table []])))
  | some _ => .error (.notArray k)

/-- `[keys]`: the table at the last key. -/
def openTable (defined : List Bytes) (name k : Bytes) (m : Entries) : Except Problem Entries :=
  if name ∈ defined then .error (.definedTwice name)
  else match m.lookup k with
    | none => .ok (set m k (.table []))
    | some (.table _) => .ok m
    | some _ => .error (.alreadyValue name)

end Entries

namespace Parser

/-- What a statement does to the tables. -/
def apply (p : Parser) : Statement → Except Problem Parser
  | .table keys => do
      let root ← p.root.within (Entries.openTable p.defined keys.joined keys.last) keys.init
      .ok { p with root := root, cur := keys.toList, defined := p.defined ++ [keys.joined] }
  | .array keys => do
      let root ← p.root.within (Entries.addElement keys.last) keys.init
      .ok { p with root := root, cur := keys.toList }
  | .assign keys v => do
      let root ← p.root.within (Entries.assign keys v) p.cur
      .ok { p with root := root }

/-- The next statement and the cursor after it; nothing at the end of the source. -/
def read (p : Parser) : Result (Option (Statement × Cursor)) :=
  let c := skipBlank p.cursor
  if c.rest = [] then .ok none else (statement c).map some

/-- One statement, to the end of its line. -/
def next (p : Parser) : Result (Option Parser) := do
  match ← p.read with
  | none => .ok none
  | some (s, c) =>
    match p.apply s with
    | .error problem => c.fail problem
    | .ok p =>
      let c ← endOfLine c
      .ok (some { p with cursor := c })

end Parser

def document : Nat → Parser → Result Entries
  | 0, _ => .error .exhausted
  | n + 1, p => do
      match ← p.next with
      | none => .ok p.root
      | some p => document n p

def parse (src : Bytes) : Result Entries := document (src.length + 1) (.start src)

/-!
## A document of one line

What `Parse` makes of one key and what follows its equals sign is what the reader
of values makes of it.
-/

/-- `k = `, a value and a newline. -/
def line (s : Bytes) : Bytes := ascii "k = " ++ (s ++ [newline])

/-- What is read as the value of a line. -/
def lineValue (s : Bytes) : Result (Value × Cursor) :=
  value (2 * (line s).length + 1) ⟨s ++ [newline], 1⟩

section Line

variable {s : Bytes} {v : Value} {e : Failure}

theorem key_line : key ⟨line s, 1⟩ = .ok (⟨[], ascii "k"⟩, ⟨61 :: 32 :: (s ++ [newline]), 1⟩) := by
  rfl

theorem skipSpace_line (hs : (s ++ [newline]).head?.all fun b => !isBlank b) :
    skipSpace ⟨32 :: (s ++ [newline]), 1⟩ = ⟨s ++ [newline], 1⟩ := by
  have hdrop : (s ++ [newline]).dropWhile isBlank = s ++ [newline] := by
    cases s with
    | nil => rfl
    | cons b s => exact List.dropWhile_cons_of_neg (by simpa using hs)
  rw [skipSpace, List.dropWhile_cons_of_pos rfl, hdrop]

theorem statement_line (hs : (s ++ [newline]).head?.all fun b => !isBlank b) :
    statement ⟨line s, 1⟩ = lineValue s >>= fun p => .ok (.assign ⟨[], ascii "k"⟩ p.1, p.2) := by
  have hread : keyAndValue (2 * (line s).length + 2) ⟨line s, 1⟩ =
      lineValue s >>= fun p => .ok ((⟨[], ascii "k"⟩, p.1), p.2) := by
    rw [keyAndValue, key_line]
    show (value _ (skipSpace ⟨32 :: (s ++ [newline]), 1⟩) >>= _) = _
    rw [skipSpace_line hs]
    rfl
  show (keyAndValue (2 * (line s).length + 2) ⟨line s, 1⟩ >>= _) = _
  rw [hread, lineValue]
  cases value (2 * (line s).length + 1) ⟨s ++ [newline], 1⟩ <;> rfl

theorem parse_line (hs : (s ++ [newline]).head?.all fun b => !isBlank b)
    (h : lineValue s = .ok (v, ⟨[newline], 1⟩)) : parse (line s) = .ok [(ascii "k", v)] := by
  have hstatement := statement_line hs
  rw [h] at hstatement
  have hread : Parser.read (.start (line s)) =
      .ok (some (.assign ⟨[], ascii "k"⟩ v, ⟨[newline], 1⟩)) := by
    show Except.map some (statement ⟨line s, 1⟩) = _
    rw [hstatement]
    rfl
  have hnext : Parser.next (.start (line s)) =
      .ok (some { cursor := ⟨[newline], 1⟩, root := [(ascii "k", v)] }) := by
    rw [Parser.next, hread]
    rfl
  rw [parse, document, hnext]
  rfl

theorem parse_line_error (hs : (s ++ [newline]).head?.all fun b => !isBlank b)
    (h : lineValue s = .error e) : parse (line s) = .error e := by
  have hstatement := statement_line hs
  rw [h] at hstatement
  have hread : Parser.read (.start (line s)) = .error e := by
    show Except.map some (statement ⟨line s, 1⟩) = _
    rw [hstatement]
    rfl
  rw [parse, document, Parser.next, hread]
  rfl

end Line

end LocalBase.Toml
