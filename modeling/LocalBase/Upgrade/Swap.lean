import LocalBase.Lib.Program
import LocalBase.Lib.Files

/-!
# Swapping the installed binary

`Apply` and `Rollback` of the upgrade package, with what they are built from:
`keepPrevious`, `copyFile` and `swapBack`. Their operations are those of the
source, and each may fail, with whatever error the system gives; a copy is
written a byte at a time, so that it can be cut short anywhere.

The world is the disk beside the installed binary, and a record of what the
results are about: when the gateway was stopped and started, when the
installed path came to be of another file, and how the last step of a
`swapBack` ended.
-/

namespace LocalBase.Upgrade

open Program Files

/-- The names the swap works on: `binary` is the installed path, the others
stand beside it. -/
inductive Name where
  | binary
  | previous
  | previousTmp
  | rollbackTmp
  | candidate
deriving DecidableEq, Repr

abbrev Bytes : Type := List UInt8

abbrev Err : Type := String

inductive Op where
  | stop
  | start
  | smoke
  | onPrevious
  | stat (n : Name)
  | sum (n : Name)
  | remove (n : Name)
  | removeAll
  | link (old new : Name)
  | read (n : Name)
  | create (n : Name)
  | write (i : Nat) (b : UInt8)
  | close
  | rename (old new : Name)

/-- What an operation answers: an error or none, a sum, a file's bytes, the
number of a file it opened. -/
abbrev Answer : Op → Type
  | .sum _ => Except Err String
  | .read _ => Except Err Bytes
  | .create _ => Except Err Nat
  | _ => Option Err

/-- What the record keeps, the latest first. `changed`: the installed path is
of another file. `keptBack`: whether the last rename of a `swapBack` went
through. -/
inductive Mark where
  | stopped (ok : Bool)
  | started (ok : Bool)
  | changed
  | keptBack (ok : Bool)
deriving DecidableEq, Repr

/-- `versions`: the complete files the installed path has been given to hold,
and what was kept when this began. -/
structure World where
  disk : Disk Name UInt8
  log : List Mark
  versions : List Bytes

abbrev World.file (w : World) (n : Name) : Option Bytes := w.disk.file n

def World.mark (w : World) (m : Mark) : World := { w with log := m :: w.log }

section
variable (sha256 : Bytes → String)

/-- A rename that goes through, and what the record says of it. -/
def renamed (w : World) (old new : Name) (d : Disk Name UInt8) : World :=
  let back := if old = .rollbackTmp ∧ new = .previous then [Mark.keptBack true] else []
  let moved := if d.names .binary = w.disk.names .binary then [] else [Mark.changed]
  { w with disk := d, log := back ++ (moved ++ w.log) }

def notRenamed (w : World) (old new : Name) : World :=
  let back := if old = .rollbackTmp ∧ new = .previous then [Mark.keptBack false] else []
  { w with log := back ++ w.log }

/-- What an operation does. The choice is the error it fails with, if it
fails where it could have gone through. -/
def act (w : World) (o : Op) (fails : Option Err) : Answer o × World :=
  match o with
  | .stop => (fails, w.mark (.stopped fails.isNone))
  | .start => (fails, w.mark (.started fails.isNone))
  | .smoke | .onPrevious | .close => (fails, w)
  | .stat n =>
    match fails, w.disk.names n with
    | none, some _ => (none, w)
    | none, none => (some "no such file or directory", w)
    | some err, _ => (some err, w)
  | .sum n =>
    match fails, w.file n with
    | none, some bytes => (.ok (sha256 bytes), w)
    | none, none => (.error "no such file or directory", w)
    | some err, _ => (.error err, w)
  | .remove n =>
    match fails with
    | none => (none, { w with disk := w.disk.remove n })
    | some err => (some err, w)
  | .removeAll =>
    match fails with
    | none => (none, { w with disk := w.disk.remove .candidate })
    | some err => (some err, w)
  | .link old new =>
    match fails, w.disk.link old new with
    | none, some d => (none, { w with disk := d })
    | none, none => (some "file exists", w)
    | some err, _ => (some err, w)
  | .read n =>
    match fails, w.file n with
    | none, some bytes => (.ok bytes, w)
    | none, none => (.error "no such file or directory", w)
    | some err, _ => (.error err, w)
  | .create n =>
    match fails, w.disk.names n with
    | none, none => (.ok w.disk.next, { w with disk := w.disk.create n [] })
    | none, some _ => (.error "file exists", w)
    | some err, _ => (.error err, w)
  | .write i b =>
    match fails with
    | none => (none, { w with disk := w.disk.append i [b] })
    | some err => (some err, w)
  | .rename old new =>
    match fails, w.disk.rename old new with
    | none, some d => (none, renamed w old new d)
    | none, none => (some "no such file or directory", notRenamed w old new)
    | some err, _ => (some err, notRenamed w old new)

/-- Every choice can be had everywhere. -/
def sem : Sem Answer World (Option Err) := fun w o fails => some (act sha256 w o fails)

end

/-! ## The programs -/

abbrev Steps (α : Type) : Type := Prog Answer α

def stop : Steps (Option Err) := perform Op.stop
def start : Steps (Option Err) := perform Op.start
def smoke : Steps (Option Err) := perform Op.smoke
def onPrevious : Steps (Option Err) := perform Op.onPrevious
def stat (n : Name) : Steps (Option Err) := perform (Op.stat n)
def fileSHA256 (n : Name) : Steps (Except Err String) := perform (Op.sum n)
def remove (n : Name) : Steps (Option Err) := perform (Op.remove n)
def removeAll : Steps (Option Err) := perform Op.removeAll
def link (old new : Name) : Steps (Option Err) := perform (Op.link old new)
def read (n : Name) : Steps (Except Err Bytes) := perform (Op.read n)
def create (n : Name) : Steps (Except Err Nat) := perform (Op.create n)
def write (i : Nat) (b : UInt8) : Steps (Option Err) := perform (Op.write i b)
def close : Steps (Option Err) := perform Op.close
def rename (old new : Name) : Steps (Option Err) := perform (Op.rename old new)

/-- `io.Copy` into the file: what was read, until an error. -/
def copyBytes (out : Nat) : Bytes → Steps (Option Err)
  | [] => pure none
  | b :: rest => do
      match ← write out b with
      | some err => return some err
      | none => copyBytes out rest

/-- No error, or the error once the file is removed. -/
def orRemove (n : Name) : Option Err → Steps (Option Err)
  | none => pure none
  | some err => do
      let _ ← remove n
      return some err

def copyFile (src dst : Name) : Steps (Option Err) := do
  match ← read src with
  | .error err => return some err
  | .ok bytes =>
    match ← create dst with
    | .error err => return some err
    | .ok out =>
      let copied ← copyBytes out bytes
      let closed ← close
      orRemove dst (copied.or closed)

/-- A hard link, or a copy where there are no links. -/
def linkOrCopy (src dst : Name) : Steps (Option Err) := do
  match ← link src dst with
  | none => return none
  | some _ => copyFile src dst

def keepPrevious : Steps (Option Err) := do
  let _ ← remove .previousTmp
  match ← linkOrCopy .binary .previousTmp with
  | some err => return some err
  | none =>
    let renamed ← rename .previousTmp .previous
    orRemove .previousTmp renamed

def swapBack : Steps (Option Err) := do
  let _ ← remove .rollbackTmp
  match ← linkOrCopy .binary .rollbackTmp with
  | some err => return some err
  | none =>
    match ← rename .previous .binary with
    | some err => orRemove .rollbackTmp (some err)
    | none => rename .rollbackTmp .previous

/-- Which of the hooks are there. They are empty for a root with no gateway,
so what can be stopped can be started. -/
structure Ops where
  stop : Bool
  start : Bool
  smoke : Bool
  onPrevious : Bool
  paired : stop = start

/-- A hook that is not there has nothing to say. -/
def call (given : Bool) (hook : Steps (Option Err)) : Steps (Option Err) :=
  if given then hook else pure none

/-- How an `Apply` or a `Rollback` ended. -/
inductive Failure where
  | notStopped (err : Err)
  | notStoppedNorBack (err serr : Err)
  | unreadable (err : Err)
  | tampered
  | notKept (err : Err)
  | notReplaced (err : Err)
  | notBack (err : Failure) (serr : Err)
  | notRolledBack (err rerr : Err)
  | rolledBackNotBack (err serr : Err)
  | rolledBack (err : Err)
  | smokeFailed (err : Err)
  | noPrevious
  | neitherStopped (err serr : Err)
  | notForward (err rerr : Err)
  | neitherStarted (err serr : Err)
  | forwardAgain (err : Err)
  | plain (err : Err)
deriving DecidableEq, Repr

def Failure.text : Failure → String
  | .notStopped err => "could not stop the gateway, so nothing was changed: " ++ err
  | .notStoppedNorBack err serr =>
    "could not stop the gateway: " ++ err ++ ". The old version did not come back either: " ++ serr
  | .unreadable err => "could not read the new binary: " ++ err
  | .tampered => "the new binary changed after it was verified, so nothing was changed"
  | .notKept err => "could not keep the previous binary: " ++ err
  | .notReplaced err => "could not replace the binary: " ++ err
  | .notBack err serr => err.text ++ ". The old version did not come back either: " ++ serr
  | .notRolledBack err rerr =>
    "the new version did not start (" ++ err ++ "), and rolling back failed: " ++ rerr
  | .rolledBackNotBack err serr =>
    "the new version did not start (" ++ err ++
      "), so it was rolled back, but the old version did not come back either: " ++ serr
  | .rolledBack err => "the new version did not start, so it was rolled back: " ++ err
  | .smokeFailed err => "the new version is running, but smoke failed: " ++ err
  | .noPrevious => "there is no previous version to go back to"
  | .neitherStopped err serr =>
    "could not stop the gateway: " ++ err ++ ". It did not come back either: " ++ serr
  | .notForward err rerr =>
    "the previous version did not start (" ++ err ++ "), and going forward again failed: " ++ rerr
  | .neitherStarted err serr =>
    "the previous version did not start (" ++ err ++ "), and neither did this one: " ++ serr
  | .forwardAgain err => "the previous version did not start, so this version is back: " ++ err
  | .plain err => err

/-- What a call returns: whether it rolled back, and its error. -/
structure Result where
  rolledBack : Bool
  failure : Option Failure
deriving DecidableEq, Repr

def Result.failed (f : Failure) : Result := ⟨false, some f⟩

/-- Nothing was swapped: the old version is brought back. -/
def restore (ops : Ops) (err : Failure) : Steps Result := do
  match ← call ops.start start with
  | some serr => return .failed (.notBack err serr)
  | none => return .failed err

/-- What is left of a call whose version started: smoke. -/
def smokeTest (ops : Ops) (failed : Err → Failure) : Steps Result := do
  match ← call ops.smoke smoke with
  | some err => return .failed (failed err)
  | none => return ⟨false, none⟩

/-- `Apply` once the new version is in place. -/
def startNew (ops : Ops) : Steps Result := do
  match ← call ops.start start with
  | some err =>
    match ← swapBack with
    | some rerr => return ⟨true, some (.notRolledBack err rerr)⟩
    | none =>
      match ← call ops.start start with
      | some serr => return ⟨true, some (.rolledBackNotBack err serr)⟩
      | none => return ⟨true, some (.rolledBack err)⟩
  | none => smokeTest ops .smokeFailed

/-- `Apply` once the gateway is down. What is swapped in is what was
verified. -/
def replaceBinary (sha256 : String) (ops : Ops) : Steps Result := do
  match ← fileSHA256 .candidate with
  | .error err => restore ops (.unreadable err)
  | .ok sum =>
    if sum ≠ sha256 then restore ops .tampered
    else
      match ← keepPrevious with
      | some err => restore ops (.notKept err)
      | none =>
        match ← rename .candidate .binary with
        | some err => restore ops (.notReplaced err)
        | none => startNew ops

def applyBody (sha256 : String) (ops : Ops) : Steps Result := do
  match ← call ops.stop stop with
  | some err =>
    -- It may be partly down.
    match ← call ops.start start with
    | some serr => return .failed (.notStoppedNorBack err serr)
    | none => return .failed (.notStopped err)
  | none => replaceBinary sha256 ops

/-- Replaces the installed binary, and removes the candidate's directory
whatever happened. -/
def apply (sha256 : String) (ops : Ops) : Steps Result := do
  let result ← applyBody sha256 ops
  let _ ← removeAll
  return result

/-- What is left of a rollback whose older version started. -/
def smokeOlder (ops : Ops) : Steps Result := do
  match ← call ops.onPrevious onPrevious with
  | some err => return .failed (.plain err)
  | none => smokeTest ops .plain

/-- `Rollback` once the older version is in place. -/
def startOlder (ops : Ops) : Steps Result := do
  match ← call ops.start start with
  | some err =>
    match ← swapBack with
    | some rerr => return .failed (.notForward err rerr)
    | none =>
      match ← call ops.start start with
      | some serr => return .failed (.neitherStarted err serr)
      | none => return .failed (.forwardAgain err)
  | none => smokeOlder ops

/-- `Rollback` once the gateway is down. -/
def goBack (ops : Ops) : Steps Result := do
  match ← swapBack with
  | some err => return .failed (.plain err)
  | none => startOlder ops

/-- Swaps the previous version back. -/
def rollback (ops : Ops) : Steps Result := do
  match ← stat .previous with
  | some _ => return .failed .noPrevious
  | none =>
    match ← call ops.stop stop with
    | some err =>
      match ← call ops.start start with
      | some serr => return .failed (.neitherStopped err serr)
      | none => return .failed (.notStopped err)
    | none => goBack ops

/-! ## The calls -/

/-- A call, with its hooks. An `Apply` has a candidate: the sum it was
verified by, and what its file holds by now, if it is there. -/
inductive Kind where
  | apply (sha256 : String) (candidate : Option Bytes) (ops : Ops)
  | rollback (ops : Ops)

def Kind.ops : Kind → Ops
  | .apply _ _ ops => ops
  | .rollback ops => ops

/-- The disk with the candidate of an `Apply` made ready, or gone again. -/
def place (d : Disk Name UInt8) : Option Bytes → Disk Name UInt8
  | some bytes => d.create .candidate bytes
  | none => d.remove .candidate

/-- What a call finds: the disk as it is, with the candidate of an `Apply`, and
nothing on the record. -/
def enter (sha256 : Bytes → String) (w : World) : Kind → World
  | .apply verified candidate _ =>
    { disk := place w.disk candidate
      log := []
      versions := w.versions ++ candidate.toList.filter fun bytes => sha256 bytes = verified }
  | .rollback _ => { w with log := [] }

def program : Kind → Steps Result
  | .apply verified _ ops => apply verified ops
  | .rollback ops => rollback ops

/-- The upgrade command, call after call. -/
def upgrades (sha256 : Bytes → String) : Shop Answer World (Option Err) Kind Result where
  sem := sem sha256
  enter w k := some (enter sha256 w k)
  call := program

/-- A program is installed, and the complete versions are that one and what is
kept of another. -/
def Installed (w : World) : Prop :=
  (∃ bytes, w.file .binary = some bytes) ∧
    w.versions = (w.file .binary).toList ++ (w.file .previous).toList

end LocalBase.Upgrade
