import LocalBase.Lib.Crew
import LocalBase.Lib.Files

/-!
# The log file

`Sink` appends lines to one file and rotates it. Several processes have a sink
of their own on the same files, each behind a mutex of its own: between any two
operations of one, the others go on with theirs, and a process can be gone.

Whether an operation fails, and how much of a write gets to the disk, is not
for the program to choose. What a sink says on stderr about it is left out.
-/

namespace LocalBase.Obs

open Program Files

abbrev Bytes : Type := List UInt8

abbrev Err : Type := String

abbrev Pid : Type := Nat

def newline : UInt8 := 10

structure Line where
  text : Bytes
  single : newline ∉ text
deriving DecidableEq

def Line.bytes (line : Line) : Bytes := line.text ++ [newline]

inductive Name where
  | active
  | rotating
  | archive (i : Nat)
deriving DecidableEq, Repr

/-- An open file: its number, and which of all openings it is. -/
structure Fd where
  file : Nat
  opening : Nat
deriving DecidableEq, Repr

/-- A line that was written whole: by whom, to which file, and where. -/
structure Kept where
  pid : Pid
  file : Nat
  start : Nat
  line : Line
deriving DecidableEq

/-- The disk, how many openings there have been, which of them wrote last to a
file, and the lines that were kept. -/
structure World where
  disk : Disk Name UInt8
  openings : Nat
  last : Nat → Option (Pid × Nat)
  kept : List Kept

inductive RenameErr where
  | notExist
  | other (err : Err)
deriving DecidableEq, Repr

inductive Op where
  | openActive
  | fstat (fd : Fd)
  | statActive
  | lstatRotating
  | rename (old new : Name)
  | close (fd : Fd)
  | write (fd : Fd) (torn : Bool) (line : Line)
deriving DecidableEq

/-- What an operation answers. `fstat` gives the size, `statActive` which file
has the name, and `write` how much it wrote. -/
abbrev Answer : Op → Type
  | .openActive => Except Err Fd
  | .fstat _ | .statActive => Except Err Nat
  | .lstatRotating => Bool
  | .rename _ _ => Option RenameErr
  | .close _ => Option Err
  | .write _ _ _ => Nat × Option Err

/-- What the world decides. `late`: an opening refused by its checks, after the
file was made. -/
inductive Choice where
  | ok
  | fails (err : Err)
  | late (err : Err)
  | wrote (n : Nat) (err : Option Err)
deriving DecidableEq, Repr

/-- What a write adds: a newline goes before a line where the file ends in part
of one. -/
def lineBytes (torn : Bool) (line : Line) : Bytes :=
  if torn then newline :: line.bytes else line.bytes

/-- The active file, made if it is not there. -/
def World.created (w : World) : Nat × World :=
  match w.disk.names .active with
  | some i => (i, w)
  | none => (w.disk.next, { w with disk := w.disk.create .active [] })

/-- What a process's operation does; `none` where the choice is not one of
its. -/
def act (p : Pid) (w : World) (o : Op) (c : Choice) : Option (Answer o × World) :=
  match o, c with
  | .openActive, .ok =>
    let (i, w) := w.created
    some (.ok ⟨i, w.openings⟩, { w with openings := w.openings + 1 })
  | .openActive, .fails err => some (.error err, w)
  | .openActive, .late err => some (.error err, w.created.2)
  | .fstat fd, .ok => some (.ok (w.disk.bytes fd.file).length, w)
  | .fstat _, .fails err => some (.error err, w)
  | .statActive, .ok =>
    match w.disk.names .active with
    | some i => some (.ok i, w)
    | none => some (.error "no such file or directory", w)
  | .statActive, .fails err => some (.error err, w)
  | .lstatRotating, .ok => some ((w.disk.names .rotating).isSome, w)
  | .lstatRotating, .fails _ => some (false, w)
  | .rename old new, .ok =>
    match w.disk.rename old new with
    | some d => some (none, { w with disk := d })
    | none => some (some .notExist, w)
  | .rename _ _, .fails err => some (some (.other err), w)
  | .close _, .ok => some (none, w)
  | .close _, .fails err => some (some err, w)
  | .write fd torn line, .wrote n err =>
    let bytes := lineBytes torn line
    if bytes.length < n then none
    else
      let start := (w.disk.bytes fd.file).length + (if torn then 1 else 0)
      some ((n, err), { w with
        disk := w.disk.append fd.file (bytes.take n)
        last := if n = 0 then w.last else Function.update w.last fd.file (some (p, fd.opening))
        kept := if n = bytes.length ∧ err = none then w.kept ++ [⟨p, fd.file, start, line⟩]
          else w.kept })
  | _, _ => none

/-! ## The program -/

abbrev Steps (α : Type) : Type := Prog Answer α

def openActive : Steps (Except Err Fd) := perform Op.openActive
def fstat (fd : Fd) : Steps (Except Err Nat) := perform (Op.fstat fd)
def statActive : Steps (Except Err Nat) := perform Op.statActive
def lstatRotating : Steps Bool := perform Op.lstatRotating
def rename (old new : Name) : Steps (Option RenameErr) := perform (Op.rename old new)
def close (fd : Fd) : Steps (Option Err) := perform (Op.close fd)
def write (fd : Fd) (torn : Bool) (line : Line) : Steps (Nat × Option Err) :=
  perform (Op.write fd torn line)

def rotateBytes : Nat := 10485760

def archives : Nat := 5

/-- A sink's memory. `torn`: the file ends in part of a line. `overrun`: how far
past the limit this log may go. -/
structure Sink where
  f : Option Fd
  size : Nat
  torn : Bool
  overrun : Nat
  closed : Bool
  lastErr : Option Err
deriving DecidableEq, Repr

def Sink.new (overrun : Nat) : Sink := ⟨none, 0, false, overrun, false, none⟩

def Sink.open (s : Sink) : Steps (Option Err × Sink) := do
  match ← openActive with
  | .error err => return (some err, s)
  | .ok fd =>
    match ← fstat fd with
    | .error err => do
        let _ ← close fd
        return (some err, s)
    | .ok size => return (none, { s with f := some fd, size := size })

/-- Archive `i` and those before it, each to the next number. -/
def pushOlder : Nat → Steps Unit
  | 0 => pure ()
  | i + 1 => do
      let _ ← rename (.archive (i + 1)) (.archive (i + 2))
      pushOlder i

/-- Moves the archives along and makes the rotating file archive 1. -/
def pushArchives : Steps Unit := do
  pushOlder (archives - 1)
  let _ ← rename .rotating (.archive 1)

/-- The active file is out of the way, and is closed. -/
def Sink.afresh (s : Sink) (fd : Fd) (moved : Bool) : Steps (Option Err × Sink) := do
  let _ ← close fd
  if moved then pushArchives
  Sink.open { s with f := none, torn := false }

/-- A file that can't be moved stays as it was. -/
def Sink.moveActive (s : Sink) (fd : Fd) : Steps (Option Err × Sink) := do
  match ← rename .active .rotating with
  | some (.other err) => return (some err, s)
  | some .notExist => s.afresh fd false
  | none => s.afresh fd true

/-- Makes the active file archive 1; one that a crash left between the renames
goes first. -/
def Sink.rotate (s : Sink) (fd : Fd) : Steps (Option Err × Sink) := do
  if ← lstatRotating then pushArchives
  s.moveActive fd

/-- Rotates, unless another process already has. -/
def Sink.rotateOrFollow (s : Sink) (fd : Fd) : Steps (Option Err × Sink) := do
  let mine ← fstat fd
  let active ← statActive
  match mine, active with
  | .ok _, .ok i => if i = fd.file then s.rotate fd else s.afresh fd false
  | _, _ => s.rotate fd

/-- Whether the line was kept, and what is wrong. -/
abbrev Added : Type := (Bool × Option Err) × Sink

def Sink.put (s : Sink) (fd : Fd) (line : Line) (problem : Option Err) : Steps Added := do
  let (n, err) ← write fd s.torn line
  let s := { s with size := s.size + n }
  let err := if err = none ∧ n < (lineBytes s.torn line).length then some "short write" else err
  match err with
  | some err => return ((false, some err), { s with torn := s.torn || decide (0 < n) })
  | none => return ((true, problem), { s with torn := false })

/-- An open file takes the line, or is rotated first. -/
def Sink.place (s : Sink) (fd : Fd) (line : Line) : Steps Added := do
  let size ← fstat fd
  let s := { s with size := max s.size (size.toOption.getD 0) }
  if rotateBytes < s.size + line.bytes.length then
    let (err, s) ← s.rotateOrFollow fd
    match err, s.f with
    | none, some fd => s.put fd line none
    | some err, some fd =>
      if rotateBytes + s.overrun < s.size + line.bytes.length then return ((false, some err), s)
      else s.put fd line (some err)
    | err, none => return ((false, err), s)
  else s.put fd line none

def Sink.add (s : Sink) (line : Line) : Steps Added := do
  match s.f with
  | some fd => s.place fd line
  | none =>
    let (err, s) ← s.open
    match err, s.f with
    | none, some fd => s.place fd line
    | err, _ => return ((false, err), s)

inductive Kind where
  | openSink
  | write (line : Line)
  | close
deriving DecidableEq

inductive Result where
  | opened (err : Option Err)
  | wrote (kept : Bool) (problem : Option Err)
  | ignored
  | closed (err : Option Err)
deriving DecidableEq, Repr

def Sink.write (s : Sink) (line : Line) : Steps (Result × Sink) :=
  if s.closed then pure (.ignored, s)
  else do
    let ((kept, problem), s) ← s.add line
    return (.wrote kept problem, { s with lastErr := if kept then none else problem })

def Sink.closeFile (s : Sink) : Steps (Result × Sink) :=
  match s.f with
  | none => pure (.closed none, { s with closed := true })
  | some fd =>
    if s.closed then pure (.closed none, s)
    else do
      let err ← close fd
      return (.closed err, { s with closed := true })

def call (k : Kind) (s : Sink) : Steps (Result × Sink) :=
  match k with
  | .openSink => do
      let (err, s) ← s.open
      return (.opened err, s)
  | .write line => s.write line
  | .close => s.closeFile

/-- The sinks of any number of processes on one log, each started with what it
may go past the limit by. -/
def sinks : Crew Answer World Choice Kind Result Sink Pid Nat where
  sem := act
  start := Sink.new
  call := call
  die _ w := w

/-- No process has written yet; the files may be there from before. -/
def Untouched (w : World) : Prop :=
  w.kept = [] ∧ (∀ i, w.last i = none) ∧ ∀ i, w.disk.next ≤ i → w.disk.bytes i = []

end LocalBase.Obs
