import LocalBase.Lib.Crew

/-!
# Whose write-ahead log it is

Beside a database lies a record of which `-wal` is its own: the token in the
database's header and the identity of the file, or that the last process
stopped cleanly. Every process that opens and closes the database rewrites the
record, without a lock, and `checkWALBelongs` refuses a `-wal` with commits in
it that the record does not name. A text is written to the file that was opened,
and by then the file may have another name: another process may have renamed it
over the record.

Of SQLite is taken what the source relies on: the first connection makes the
`-wal`, commits go to it, the last connection to close cleanly empties it into
the database and removes it, a crash leaves it, and a new one is another file.
The database stays where it is; a root that cannot be written is left out.
-/

namespace LocalBase.Wal

open Program

abbrev Pid : Type := Nat

abbrev Err : Type := String

structure FileID where
  dev : Nat
  ino : Nat
deriving DecidableEq, Repr

def FileID.text (id : FileID) : String := toString id.dev ++ ":" ++ toString id.ino

/-! ## The record -/

/-- What the owner file says: the database's token, and a file's identity,
`ownerCleanStop`, or `-` if there is no telling. -/
structure OwnerRecord where
  token : Nat
  wal : String
deriving DecidableEq, Repr

def ownerCleanStop : String := "stopped"

def noTelling : String := "-"

def OwnerRecord.text (o : OwnerRecord) : String := toString o.token ++ " " ++ o.wal

def parseUint (digits : List Char) : Option Nat :=
  if digits ≠ [] ∧ digits.all Char.isDigit then
    let n := Nat.ofDigitChars 10 digits 0
    if n < 4294967296 then some n else none
  else none

def readOwner (text : String) : Option OwnerRecord :=
  let token := text.toList.takeWhile (· ≠ ' ')
  match text.toList.dropWhile (· ≠ ' ') with
  | [] => none
  | _ :: wal => (parseUint token).map fun n => ⟨n, String.ofList wal⟩

/-! ## The files -/

/-- The `-wal`: which file it is, and whether commits are in it. -/
structure WalFile where
  id : FileID
  filled : Bool
deriving DecidableEq, Repr

/-- A file the record is written in: the number it was opened under, and what it
holds. -/
structure TextFile where
  number : Nat
  text : String
deriving DecidableEq, Repr

/-- The database and the files beside it. `token` is what its header has, 0 for
none, and `applicationID` what a connection reads, from the `-wal` too.
`attached` are the processes with a connection, `tmp` is the file the record is
written through, `made` are the identities given out, and `opened` is how many
text files there have been. -/
structure World where
  token : Nat
  applicationID : Nat
  wal : Option WalFile
  owner : Option TextFile
  tmp : Option TextFile
  attached : List Pid
  made : List FileID
  opened : Nat
deriving DecidableEq, Repr

/-- What the owner file says, if there is one. -/
def World.record (w : World) : Option String := w.owner.map TextFile.text

/-- No commits are waiting in a `-wal`. -/
def World.empty (w : World) : Bool := ((w.wal.map fun wal => !wal.filled).getD true)

/-- Whether the database is refused. -/
def checkWALBelongs (w : World) : Bool :=
  match w.wal, w.record with
  | some wal, some text =>
    wal.filled &&
      match readOwner text with
      | none => true
      | some recorded => w.token ≠ recorded.token ||
          (recorded.wal ≠ noTelling && wal.id.text ≠ recorded.wal)
  | _, _ => false

inductive Op where
  | check
  | walIsEmpty
  | connect
  | migrate
  | fileToken
  | setApplicationID
  | checkpoint
  | walID
  | readOwnerFile
  | truncateTmp
  | fillTmp (i : Nat) (text : String)
  | renameTmp (o : OwnerRecord)
  | removeTmp
  | commit
  | disconnect
  | walExists
deriving DecidableEq, Repr

/-- What an operation answers. `check` and `walIsEmpty` answer so, `truncateTmp`
the file it opened, `walExists` nothing where it cannot tell, and the others
whether they failed. -/
abbrev Answer : Op → Type
  | .check | .walIsEmpty => Bool
  | .fileToken | .truncateTmp => Except Err Nat
  | .walID | .readOwnerFile => Option String
  | .walExists => Option Bool
  | .removeTmp => Unit
  | _ => Option Err

/-- What the world decides: `makes`, the file that a new `-wal` is; `commits`,
that something was written, and whether what is in the `-wal` got to the
database with it; `moves`, a checkpoint that empties the `-wal` or not; `short`,
how much of a text was written. -/
inductive Choice where
  | ok
  | fails (err : Err)
  | makes (id : FileID)
  | commits (moved : Bool)
  | token (t : Nat)
  | moves (emptied : Bool)
  | short (n : Nat) (err : Err)
deriving DecidableEq, Repr

/-- A text written at the start of a file, over what was there. -/
def overwrite (old new : String) : String :=
  String.ofList (new.toList ++ old.toList.drop new.length)

/-- Opens the file of the temporary name, and empties it; a new one where there
is none. -/
def World.truncated (w : World) : Nat × World :=
  match w.tmp with
  | some file => (file.number, { w with tmp := some { file with text := "" } })
  | none => (w.opened, { w with tmp := some ⟨w.opened, ""⟩, opened := w.opened + 1 })

def TextFile.write (i : Nat) (text : String) (file : TextFile) : TextFile :=
  if file.number = i then { file with text := overwrite file.text text } else file

/-- A text is written to the file that was opened, whatever its name is by
now. -/
def World.written (w : World) (i : Nat) (text : String) : World :=
  { w with tmp := w.tmp.map (.write i text), owner := w.owner.map (.write i text) }

/-- Commits are in the `-wal`, and in the database too where they were moved. -/
def World.committed (w : World) (moved : Bool) : World :=
  { w with
    wal := w.wal.map fun wal => { wal with filled := true }
    token := if moved then w.applicationID else w.token }

def World.without (w : World) (p : Pid) : World := { w with attached := w.attached.filter (· ≠ p) }

/-- What a process's operation does; `none` where the choice is not one of
its. -/
def act (p : Pid) (w : World) (o : Op) (c : Choice) : Option (Answer o × World) :=
  match o, c with
  | .check, .ok => some (checkWALBelongs w, w)
  | .walIsEmpty, .ok => some (w.empty, w)
  | .walIsEmpty, .fails _ => some (true, w)
  | .connect, .ok =>
    if w.wal.isSome then some (none, { w with attached := p :: w.attached }) else none
  | .connect, .makes id =>
    if w.wal.isSome ∨ id ∈ w.made then none
    else some (none, { w with
      wal := some ⟨id, false⟩, attached := p :: w.attached, made := id :: w.made })
  | .connect, .fails err => some (some err, w)
  | .migrate, .ok => some (none, w)
  | .migrate, .commits moved => if p ∈ w.attached then some (none, w.committed moved) else none
  | .migrate, .fails err => some (some err, w)
  | .fileToken, .ok => some (.ok w.token, w)
  | .fileToken, .fails err => some (.error err, w)
  | .setApplicationID, .token t =>
    if p ∉ w.attached ∨ t = 0 ∨ 2147483648 ≤ t then none
    else if w.applicationID = 0 then
      some (none, { w.committed false with applicationID := t })
    else some (none, w)
  | .setApplicationID, .fails err => some (some err, w)
  | .checkpoint, .moves emptied =>
    if p ∉ w.attached then none
    else some (none, { w with
      token := w.applicationID
      wal := if emptied then w.wal.map fun wal => { wal with filled := false } else w.wal })
  | .checkpoint, .ok => some (none, w)
  | .checkpoint, .fails err => some (some err, w)
  | .walID, .ok => some (w.wal.map fun wal => wal.id.text, w)
  | .walID, .fails _ => some (none, w)
  | .readOwnerFile, .ok => some (w.record, w)
  | .readOwnerFile, .fails _ => some (none, w)
  | .truncateTmp, .ok => some (.ok w.truncated.1, w.truncated.2)
  | .truncateTmp, .fails err => some (.error err, w)
  | .fillTmp i text, .ok => some (none, w.written i text)
  | .fillTmp i text, .short n err =>
    some (some err, w.written i (String.ofList (text.toList.take n)))
  | .renameTmp _, .ok =>
    match w.tmp with
    | some file => some (none, { w with owner := some file, tmp := none })
    | none => some (some "no such file or directory", w)
  | .renameTmp _, .fails err => some (some err, w)
  | .removeTmp, .ok => some ((), { w with tmp := none })
  | .removeTmp, .fails _ => some ((), w)
  | .commit, .commits moved => if p ∈ w.attached then some (none, w.committed moved) else none
  | .commit, .fails err => some (some err, w)
  | .disconnect, .ok =>
    if w.attached ≠ [] ∧ (w.without p).attached = [] then
      some (none, { w.without p with wal := none, token := w.applicationID })
    else some (none, w.without p)
  | .disconnect, .fails err => some (some err, w.without p)
  | .walExists, .ok => some (some w.wal.isSome, w)
  | .walExists, .fails _ => some (none, w)
  | _, _ => none

/-! ## The program -/

abbrev Steps (α : Type) : Type := Prog Answer α

def check : Steps Bool := perform Op.check
def walIsEmpty : Steps Bool := perform Op.walIsEmpty
def connect : Steps (Option Err) := perform Op.connect
def migrate : Steps (Option Err) := perform Op.migrate
def fileToken : Steps (Except Err Nat) := perform Op.fileToken
def setApplicationID : Steps (Option Err) := perform Op.setApplicationID
def checkpoint : Steps (Option Err) := perform Op.checkpoint
def walID : Steps (Option String) := perform Op.walID
def readOwnerFile : Steps (Option String) := perform Op.readOwnerFile
def truncateTmp : Steps (Except Err Nat) := perform Op.truncateTmp
def fillTmp (i : Nat) (text : String) : Steps (Option Err) := perform (Op.fillTmp i text)
def renameTmp (o : OwnerRecord) : Steps (Option Err) := perform (Op.renameTmp o)
def removeTmp : Steps Unit := perform Op.removeTmp
def commit : Steps (Option Err) := perform Op.commit
def disconnect : Steps (Option Err) := perform Op.disconnect
def walExists : Steps (Option Bool) := perform Op.walExists

/-- `os.WriteFile`: whether it went well. -/
def writeTmp (text : String) : Steps Bool := do
  match ← truncateTmp with
  | .error _ => return false
  | .ok i =>
    let err ← fillTmp i text
    return err.isNone

def writeOwner (o : OwnerRecord) : Steps Unit := do
  let now ← readOwnerFile
  if now = some o.text then pure ()
  else do
    let written ← writeTmp o.text
    if written then
      match ← renameTmp o with
      | none => pure ()
      | some _ => removeTmp
    else pure ()

/-- Writes a token, unless there is one, and checkpoints. -/
def setToken : Steps (Option Err) := do
  match ← setApplicationID with
  | some err => return some err
  | none => checkpoint

/-- Records whose `-wal` this is, once there is a token. -/
def recordWAL (token : Nat) : Steps Unit := do
  let id ← walID
  writeOwner ⟨token, id.getD noTelling⟩

def claimWAL : Steps Unit := do
  match ← fileToken with
  | .error _ => pure ()
  | .ok token =>
    if token ≠ 0 then recordWAL token
    else
      match ← setToken with
      | some _ => pure ()
      | none =>
        match ← fileToken with
        | .error _ => pure ()
        | .ok token => if token = 0 then pure () else recordWAL token

/-- Records that the last connection closed and took the `-wal` with it. -/
def markCleanStop : Steps Unit := do
  match ← walExists with
  | some false =>
    match ← fileToken with
    | .error _ => pure ()
    | .ok token => if token = 0 then pure () else writeOwner ⟨token, ownerCleanStop⟩
  | _ => pure ()

inductive Kind where
  | open
  | commit
  | close
deriving DecidableEq, Repr

inductive Result where
  | opened
  | refused
  | committed
  | closed
  | failed (err : Err)
deriving DecidableEq, Repr

/-- A process's memory: whether it has the store open. -/
abbrev Store : Type := Bool

/-- The connections are closed, and this is why. -/
def giveUp (err : Err) : Steps (Result × Store) := do
  let _ ← disconnect
  return (.failed err, false)

def openStore : Steps (Result × Store) := do
  let refused ← check
  if refused then return (.refused, false)
  else
    let clean ← walIsEmpty
    match ← connect with
    | some err => giveUp err
    | none =>
      match ← migrate with
      | some err => giveUp err
      | none => do
          if clean then claimWAL
          return (.opened, true)

def commitStore : Steps (Result × Store) := do
  match ← commit with
  | some err => return (.failed err, true)
  | none => return (.committed, true)

def closeStore : Steps (Result × Store) := do
  match ← disconnect with
  | some err => return (.failed err, false)
  | none => do
      markCleanStop
      return (.closed, false)

/-- A store is opened once, and then used until it is closed. -/
def call (k : Kind) (s : Store) : Steps (Result × Store) :=
  match k, s with
  | .open, false => openStore
  | .commit, true => commitStore
  | .close, true => closeStore
  | _, s => pure (.failed "the store is not there", s)

/-- Any number of processes on one database. -/
def stores : Crew Answer World Choice Kind Result Store Pid Unit where
  sem := act
  start _ := false
  call := call
  die p w := w.without p

/-- A clean database with no owner record. -/
def Clean (w : World) : Prop :=
  w.wal = none ∧ w.owner = none ∧ w.attached = [] ∧ w.applicationID = w.token ∧
    w.token < 4294967296

end LocalBase.Wal
