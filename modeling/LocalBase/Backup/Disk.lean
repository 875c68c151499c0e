import LocalBase.Lib.Machine
import Mathlib.Logic.Function.Basic
import Mathlib.Data.List.Basic

/-!
# Restoring a backup

A restore moves the root's old files aside and the staged ones in, one rename at
a time, and an undo moves them back. Every step here is one operation on the
file system, or what the code finds out before the next one; a crash, or an
error, is a cut after any of them.

A file or a directory is what it is, whatever that holds: its content is of any
type.
-/

namespace LocalBase.Backup

open Restart

def databaseName : String := "local-base.db"

/-- The suffixes of every file that belongs with a database. -/
def sidecars : List String := ["-wal", "-shm", "-journal", "-wal-owner", "-wal-owner.tmp"]

/-- All a restore moves, here and on undo. The database is first. -/
def replaceable : List String :=
  databaseName :: sidecars.map (databaseName ++ ·) ++
    ["ui-access.json", "email-delivery.json", "credentials", "catalog.d", "backends.d", "voices"]

/-- The order the files go in, and back: the database last. -/
def databaseLast : List String := replaceable.tail ++ replaceable.take 1

theorem mem_databaseLast {n : String} : n ∈ databaseLast ↔ n ∈ replaceable := by
  unfold databaseLast replaceable
  simp only [List.cons_append, List.tail_cons, List.take_succ_cons, List.take_zero,
    List.mem_append, List.mem_cons, List.not_mem_nil, or_false]
  exact or_comm

/-- The root of a restore, and what is beside it. -/
structure Disk (α : Type) where
  root : String → Option α
  /-- The directory the old files go to. -/
  before : Option (String → Option α) := none
  /-- The staged files, in the directory they are moved from. -/
  staging : Option (String → Option α) := none
  journal : Bool := false
  /-- The rest of the root: its marker, the gateway's lock in `runtime`, what
  else is there, and the directory itself. -/
  marker : Bool := true
  gatewayLock : Bool := true
  runtime : Bool := true
  inRuntime : Bool := false
  other : Bool := false
  present : Bool := true

/-- What the journal says of a restore. -/
structure Journal where
  had : List String
  /-- The staging directory is beside the root, and the undo removes it. -/
  staging : Bool
  newRoot : Bool

namespace Disk

variable {α : Type}

def aside (d : Disk α) (n : String) : Option α := d.before.bind fun b => b n

def staged (d : Disk α) (n : String) : Option α := d.staging.bind fun s => s n

/-- The journal that `Commit` writes: the names that are there. -/
def journalOf (d : Disk α) (staging newRoot : Bool) : Journal :=
  { had := replaceable.filter fun n => (d.root n).isSome, staging := staging, newRoot := newRoot }

/-- The root as `apply` finds it: the journal is written, and names a directory
that is not there. -/
def committed (d : Disk α) : Disk α := { d with before := none, journal := true }

/-! ## The operations -/

def mkBefore (d : Disk α) : Disk α := { d with before := some fun _ => none }

def moveAside (d : Disk α) (n : String) : Disk α :=
  { d with
    root := Function.update d.root n none
    before := d.before.map fun b => Function.update b n (d.root n) }

def moveIn (d : Disk α) (n : String) : Disk α :=
  { d with
    root := Function.update d.root n (d.staged n)
    staging := d.staging.map fun s => Function.update s n none }

/-- `os.RemoveAll` of one name of the root. -/
def remove (d : Disk α) (n : String) : Disk α := { d with root := Function.update d.root n none }

def moveBack (d : Disk α) (n : String) : Disk α :=
  { d with
    root := Function.update d.root n (d.aside n)
    before := d.before.map fun b => Function.update b n none }

/-- Nothing is aside; only the names a restore moves ever are. -/
def nothingAside (d : Disk α) : Bool := replaceable.all fun n => (d.aside n).isNone

/-- `os.Remove` of the root, which fails on one that holds anything. -/
def removeRoot (d : Disk α) : Disk α :=
  let empty := replaceable.all (fun n => (d.root n).isNone) && d.before.isNone && !d.journal &&
    !d.marker && !d.runtime && !d.other
  if empty then { d with present := false } else d

end Disk

/-! ## Applying -/

inductive ApplyPc
  | mkdir
  | aside (names : List String)
  | moving (names : List String)
  | applied
  | failed

/-- `Staged.apply`. -/
def applyStep {α : Type} (j : Journal) (d : Disk α) : ApplyPc → Disk α × ApplyPc
  | .mkdir => if d.before.isSome then (d, .failed) else (d.mkBefore, .aside j.had)
  | .aside [] => (d, .moving databaseLast)
  | .aside (n :: ns) =>
    if (d.root n).isSome then (d.moveAside n, .aside ns) else (d, .failed)
  | .moving [] => (d, .applied)
  | .moving (n :: ns) =>
    if (d.staged n).isSome then (d.moveIn n, .moving ns) else (d, .moving ns)
  | .applied => (d, .applied)
  | .failed => (d, .failed)

def apply (α : Type) (j : Journal) : Procedure (Disk α) ApplyPc where
  start := .mkdir
  step := applyStep j

/-! ## Undoing -/

inductive UndoPc
  /-- Is everything old aside? -/
  | deciding
  | removing (names : List String)
  | back (names : List String)
  /-- What was at the name is gone, and the old file comes next. -/
  | replacing (n : String) (names : List String)
  | before
  | staging
  | journal
  | marker
  | lock
  | runtime
  | root
  | undone
  /-- The directory of the old files could not be removed. -/
  | failed
deriving DecidableEq

/-- Everything the journal lists is aside. -/
def Journal.allAside {α : Type} (j : Journal) (d : Disk α) : Bool :=
  d.before.isSome && j.had.all fun n => (d.aside n).isSome

/-- `undo`. -/
def undoStep {α : Type} (j : Journal) (d : Disk α) : UndoPc → Disk α × UndoPc
  | .deciding => (d, if j.allAside d then .removing replaceable else .back databaseLast)
  | .removing [] => (d, .back databaseLast)
  | .removing (n :: ns) =>
    -- It was never there, so anything at its name now is new.
    if n ∈ j.had then (d, .removing ns) else (d.remove n, .removing ns)
  | .back [] => (d, .before)
  | .back (n :: ns) =>
    -- It was moved aside, so anything at its name now is new.
    if (d.aside n).isSome then (d.remove n, .replacing n ns) else (d, .back ns)
  | .replacing n ns => (d.moveBack n, .back ns)
  | .before =>
    if d.before.isNone then (d, .staging)
    else if d.nothingAside then ({ d with before := none }, .staging)
    else (d, .failed)
  | .staging => (if j.staging then { d with staging := none } else d, .journal)
  | .journal => ({ d with journal := false }, if j.newRoot then .marker else .undone)
  | .marker => ({ d with marker := false }, .lock)
  | .lock => ({ d with gatewayLock := false }, .runtime)
  | .runtime =>
    (if d.gatewayLock || d.inRuntime then d else { d with runtime := false }, .root)
  | .root => (d.removeRoot, .undone)
  | .undone => (d, .undone)
  | .failed => (d, .failed)

def undo (α : Type) (j : Journal) : Procedure (Disk α) UndoPc where
  start := .deciding
  step := undoStep j

end LocalBase.Backup
