import LocalBase.Install.Artifact

/-!
# The calls

The files and the network step by step. The record of what was verified has
names of its own beside the models.

A file that is open is written through its handle, wherever its name has gone since;
a file that is verified or renamed is found by its name. That the two can be of
different files is what the installation has to guard against.
-/

namespace LocalBase.Install

open Program Files

/-! ## The files -/

/-- A call that has its model's lock, and the files it names. -/
structure Held where
  caller : Caller
  key : String
  files : List Path
deriving DecidableEq, Repr

/-- The lock of a model in a directory. -/
def lockKey (dir modelID : String) : String := dir ++ "/" ++ modelID

/-- The files and their times, the identities that were seen and of what bytes,
the records and who has them locked, and the locks of the models. `installed`
are the files that a call returned as an artifact, until they are renamed or
removed. -/
structure World where
  disk : Disk Path UInt8
  mtime : Nat → Nat
  ctime : Nat → Nat
  known : List (Identity × Bytes)
  cache : String → Cache
  cacheLock : String → Option Caller
  held : List Held
  installed : Path → Option Artifact

def World.identity (w : World) (i : Nat) : Identity :=
  ⟨(w.disk.bytes i).length, w.mtime i, w.ctime i, i⟩

/-- The file as it is now is known, unless its identity was of other bytes. -/
def World.noted (w : World) (i : Nat) : Option World :=
  if ∀ x ∈ w.known, x.1 = w.identity i → x.2 = w.disk.bytes i then
    some { w with known := (w.identity i, w.disk.bytes i) :: w.known }
  else none

/-- Bytes at the end of a file, and its times with it. -/
def World.written (w : World) (i : Nat) (piece : Bytes) (mtime ctime : Nat) : Option World :=
  World.noted { w with
    disk := w.disk.append i piece
    mtime := Function.update w.mtime i mtime
    ctime := Function.update w.ctime i ctime } i

def World.created (w : World) (p : Path) (mtime ctime : Nat) : Option World :=
  World.noted { w with
    disk := w.disk.create p []
    mtime := Function.update w.mtime w.disk.next mtime
    ctime := Function.update w.ctime w.disk.next ctime } w.disk.next

def World.touched (w : World) (i ctime : Nat) : Option World :=
  World.noted { w with ctime := Function.update w.ctime i ctime } i

/-- A file opened to be written at its end, made if there is none. -/
def World.opened (w : World) (p : Path) (mtime ctime : Nat) : Option (Nat × World) :=
  match w.disk.names p with
  | some i => (w.touched i ctime).map fun t => (i, t)
  | none => (w.created p mtime ctime).map fun t => (w.disk.next, t)

/-- Neither name is of an installed file any longer. -/
def World.moved (w : World) (old new : Path) (ctime : Nat) : Option World :=
  match w.disk.names old, w.disk.rename old new with
  | some i, some disk =>
    World.noted { w with
      disk := disk
      ctime := Function.update w.ctime i ctime
      installed := Function.update (Function.update w.installed old none) new none } i
  | _, _ => none

def World.removed (w : World) (p : Path) : World :=
  { w with disk := w.disk.remove p, installed := Function.update w.installed p none }

def World.lockFree (w : World) (key : String) : Bool := w.held.all fun h => h.key ≠ key

/-- A call that is gone has no lock. -/
def World.without (w : World) (p : Caller) : World :=
  { w with
    held := w.held.filter fun h => h.caller ≠ p
    cacheLock := fun dir => (w.cacheLock dir).filter fun q => q ≠ p }

/-! ## Operations -/

/-- `lock` is told whose files the call is about, and `returned` is the return
of a call for an artifact without an error. -/
inductive Op where
  | lock (s : Spec) (dir : String)
  | unlock (key : String)
  | mkdirAll (dir : String)
  | available (dir : String)
  | stat (p : Path)
  | rename (old new : Path)
  | remove (p : Path)
  | checkOwnedRegular (p : Path)
  | get (range : Option Nat)
  | openAppend (p : Path)
  | write (i : Nat) (piece : Bytes)
  | close (i : Nat)
  | fileIdentity (p : Path)
  | readCache (dir : String)
  | lockCache (dir : String)
  | writeCache (dir : String) (c : Cache)
  | unlockCache (dir : String)
  | openRead (p : Path)
  | read (i off k : Nat)
  | readEnd (i off : Nat)
  | returned (p : Path) (a : Artifact)

/-- What an operation answers: nothing, what it was asked for, or why it
failed. -/
abbrev Answer : Op → Type
  | .unlock _ | .remove _ | .unlockCache _ | .returned _ _ => Unit
  | .available _ => Option Int
  | .stat _ => Option Nat
  | .get _ => Except Err Response
  | .openAppend _ => Except Err Nat
  | .fileIdentity _ => Except Err Identity
  | .readCache _ => Cache
  | .openRead _ => Except Err (Nat × List Nat)
  | .read _ _ _ => Except Err Bytes
  | _ => Option Err

/-- What the world decides. `at`: the times a change is made at; `late`: an
opening that fails after the file was there; `short`: a write that ends after
some bytes; `reads`: how much each read of a file brings, until its end. -/
inductive Choice where
  | ok
  | fails (err : Err)
  | at (mtime ctime : Nat)
  | late (err : Err) (mtime ctime : Nat)
  | short (n : Nat) (err : Err) (mtime ctime : Nat)
  | space (free : Int)
  | serves (resp : Response)
  | reads (sizes : List Nat)

/-- What a call's operation does; `none` where the choice is not one of its. -/
def act (p : Caller) (w : World) (o : Op) (c : Choice) : Option (Answer o × World) :=
  match o, c with
  | .lock s dir, .ok =>
    if w.lockFree (lockKey dir s.modelID) then
      some (none, { w with held := ⟨p, lockKey dir s.modelID, s.files dir⟩ :: w.held })
    else none
  | .lock _ _, .fails err => some (some err, w)
  | .unlock key, .ok => some ((), { w with held := w.held.filter fun h => h.key ≠ key })
  | .mkdirAll _, .ok => some (none, w)
  | .mkdirAll _, .fails err => some (some err, w)
  | .available _, .space free => some (some free, w)
  | .available _, .fails _ => some (none, w)
  | .stat q, .ok => some ((w.disk.file q).map List.length, w)
  | .stat _, .fails _ => some (none, w)
  | .rename old new, .at _ ctime => (w.moved old new ctime).map fun t => (none, t)
  | .rename _ _, .fails err => some (some err, w)
  | .remove q, .ok => some ((), w.removed q)
  | .remove _, .fails _ => some ((), w)
  | .checkOwnedRegular _, .ok => some (none, w)
  | .checkOwnedRegular _, .fails err => some (some err, w)
  | .get _, .serves resp => some (.ok resp, w)
  | .get _, .fails err => some (.error err, w)
  | .openAppend q, .at mtime ctime => (w.opened q mtime ctime).map fun a => (.ok a.1, a.2)
  | .openAppend q, .late err mtime ctime =>
    (w.opened q mtime ctime).map fun a => (.error err, a.2)
  | .openAppend _, .fails err => some (.error err, w)
  | .write i piece, .at mtime ctime => (w.written i piece mtime ctime).map fun t => (none, t)
  | .write i piece, .short n err mtime ctime =>
    (w.written i (piece.take n) mtime ctime).map fun t => (some err, t)
  | .write _ _, .fails err => some (some err, w)
  | .close _, .ok => some (none, w)
  | .close _, .fails err => some (some err, w)
  | .fileIdentity q, .ok => (w.disk.names q).map fun i => (.ok (w.identity i), w)
  | .fileIdentity _, .fails err => some (.error err, w)
  | .readCache dir, .ok => some (w.cache dir, w)
  | .readCache _, .fails _ => some (Cache.empty, w)
  | .lockCache dir, .ok =>
    if w.cacheLock dir = none then
      some (none, { w with cacheLock := Function.update w.cacheLock dir (some p) })
    else none
  | .lockCache _, .fails err => some (some err, w)
  | .writeCache dir new, .ok => some (none, { w with cache := Function.update w.cache dir new })
  | .writeCache _ _, .fails err => some (some err, w)
  | .unlockCache dir, .ok =>
    some ((), { w with cacheLock := Function.update w.cacheLock dir none })
  | .openRead q, .reads sizes => (w.disk.names q).map fun i => (.ok (i, sizes), w)
  | .openRead _, .fails err => some (.error err, w)
  | .read i off k, .ok =>
    if off < (w.disk.bytes i).length then
      some (.ok (((w.disk.bytes i).drop off).take k), w)
    else none
  | .read _ _ _, .fails err => some (.error err, w)
  | .readEnd i off, .ok => if (w.disk.bytes i).length ≤ off then some (none, w) else none
  | .readEnd _ _, .fails err => some (some err, w)
  | .returned q a, .ok =>
    some ((), { w with installed := Function.update w.installed q (some a) })
  | _, _ => none

/-! ## The program -/

abbrev Steps (α : Type) : Type := Prog Answer α

def stat (p : Path) : Steps (Option Nat) := perform (Op.stat p)
def rename (old new : Path) : Steps (Option Err) := perform (Op.rename old new)
def remove (p : Path) : Steps Unit := perform (Op.remove p)
def checkOwnedRegular (p : Path) : Steps (Option Err) := perform (Op.checkOwnedRegular p)
def get (range : Option Nat) : Steps (Except Err Response) := perform (Op.get range)
def openAppend (p : Path) : Steps (Except Err Nat) := perform (Op.openAppend p)
def write (i : Nat) (piece : Bytes) : Steps (Option Err) := perform (Op.write i piece)
def close (i : Nat) : Steps (Option Err) := perform (Op.close i)
def fileIdentity (p : Path) : Steps (Except Err Identity) := perform (Op.fileIdentity p)
def readCache (dir : String) : Steps Cache := perform (Op.readCache dir)
def lockCache (dir : String) : Steps (Option Err) := perform (Op.lockCache dir)
def unlockCache (dir : String) : Steps Unit := perform (Op.unlockCache dir)
def writeCache (dir : String) (c : Cache) : Steps (Option Err) := perform (Op.writeCache dir c)
def openRead (p : Path) : Steps (Except Err (Nat × List Nat)) := perform (Op.openRead p)
def read (i off k : Nat) : Steps (Except Err Bytes) := perform (Op.read i off k)
def readEnd (i off : Nat) : Steps (Option Err) := perform (Op.readEnd i off)
def returned (p : Path) (a : Artifact) : Steps Unit := perform (Op.returned p a)
def lock (s : Spec) (dir : String) : Steps (Option Err) := perform (Op.lock s dir)
def unlock (key : String) : Steps Unit := perform (Op.unlock key)
def mkdirAll (dir : String) : Steps (Option Err) := perform (Op.mkdirAll dir)
def available (dir : String) : Steps (Option Int) := perform (Op.available dir)

/-! ### Verifying -/

/-- What is in an open file, a read after the other: the digest is of all they
brought. -/
def readAll (i : Nat) : Bytes → List Nat → Steps (Except Err Bytes)
  | got, [] => do
      match ← readEnd i got.length with
      | some err => return .error err
      | none => return .ok got
  | got, k :: sizes => do
      match ← read i got.length k with
      | .error err => return .error err
      | .ok piece => readAll i (got ++ piece) sizes

section
variable (sum : Bytes → String)

def sha256File (p : Path) : Steps (Except Err String) := do
  match ← openRead p with
  | .error err => return .error err
  | .ok (i, sizes) => do
      match ← readAll i [] sizes with
      | .error err => return .error err
      | .ok got => return .ok (sum got)

def withCacheLock (dir : String) (fn : Steps (Option Err)) : Steps (Option Err) := do
  match ← lockCache dir with
  | some err => return some err
  | none =>
    let r ← fn
    unlockCache dir
    return r

/-- Enter a file into the record. -/
def record (dir name : String) (e : CacheEntry) : Steps (Option Err) := do
  let c ← readCache dir
  writeCache dir (c.put name e)

inductive Verification where
  | cachedIdentity
  | sha256
deriving DecidableEq, Repr

def verify (p : Path) (a : Artifact) (dir : String) : Steps (Except Err Verification) := do
  match ← fileIdentity p with
  | .error err => return .error err
  | .ok id =>
    if (id.size : Int) ≠ a.expectedSizeBytes then
      return .error (.size a.filename a.expectedSizeBytes id.size)
    else do
      let c ← readCache dir
      if c.trusts a id then return .ok .cachedIdentity
      else do
        match ← sha256File sum p with
        | .error err => return .error err
        | .ok actual =>
          if actual ≠ lower a.sha256 then
            return .error (.checksum a.filename (lower a.sha256) actual)
          else do
            match ← withCacheLock dir
                (record dir a.filename ⟨lower a.sha256, a.expectedSizeBytes, id⟩) with
            | some err => return .error err
            | none => return .ok .sha256

/-! ### Publishing -/

/-- The file that was verified is entered under the identity it has now. -/
def rerecord (a : Artifact) (dir : String) : Steps (Option Err) := do
  let c ← readCache dir
  match ← fileIdentity (a.out dir) with
  | .error _ => return none
  | .ok now =>
    match c.renamed a now with
    | none => return none
    | some e => writeCache dir (c.put a.filename e)

def recordPublished (a : Artifact) (dir : String) : Steps Unit := do
  let _ ← withCacheLock dir (rerecord a dir)

def publish (a : Artifact) (dir : String) : Steps (Option Err) := do
  match ← rename (a.partialPath dir) (a.out dir) with
  | some err => return some err
  | none =>
    recordPublished a dir
    return none

/-! ### Downloading -/

def removeIfEmpty (p : Path) : Steps Unit := do
  match ← stat p with
  | some 0 => remove p
  | _ => pure ()

/-- Why a download is given up, after what is left to do. -/
def failed (p : Path) (err : Err) : Steps (Option Err) := do
  removeIfEmpty p
  return some err

/-- The pieces of a body to the end of the file, and how long it is then. -/
def copyBody (i : Nat) (expected : Int) (broken : Option Err) :
    Nat → List Bytes → Steps (Except Err Nat)
  | n, [] => pure (match broken with | some err => .error err | none => .ok n)
  | n, piece :: rest =>
    if piece = [] then copyBody i expected broken n rest
    else if (n + piece.length : Nat) > expected then pure (.error (.exceeds expected))
    else do
      match ← write i piece with
      | some err => return .error err
      | none => copyBody i expected broken (n + piece.length) rest

/-- The response is what was asked for: its body goes into the partial. -/
def receive (p : Path) (expected : Int) (offset : Nat) (resp : Response) : Steps (Option Err) := do
  match ← openAppend p with
  | .error err => return some err
  | .ok i => do
      match ← copyBody i expected resp.broken offset resp.body with
      | .error err =>
        let _ ← close i
        return some err
      | .ok n =>
        match ← close i with
        | some err => return some err
        | none => return if (n : Int) ≠ expected then some (.ended n expected) else none

def download (p : Path) (expected : Int) : Steps (Option Err) := do
  let offset := (← stat p).getD 0
  match ← get (if offset > 0 then some offset else none) with
  | .error err => failed p err
  | .ok resp =>
    if resp.status < 200 ∨ 299 < resp.status then failed p (.httpStatus resp.status)
    else match checkFraming resp offset expected with
      | some err => failed p err
      | none => receive p expected offset resp

/-! ### An artifact -/

/-- Download what is missing, verify it and publish it. -/
def fetch (a : Artifact) (dir : String) : Steps (Option Err) := do
  match ← download (a.partialPath dir) a.expectedSizeBytes with
  | some err => return some err
  | none =>
    match ← verify sum (a.partialPath dir) a dir with
    | .error err =>
      remove (a.partialPath dir)
      return some err
    | .ok _ => publish a dir

/-- There is no final file: what the partial is decides. -/
def complete (a : Artifact) (dir : String) : Steps (Option Err) := do
  match ← checkOwnedRegular (a.partialPath dir) with
  | some err => return some err
  | none =>
    match ← stat (a.partialPath dir) with
    | none => fetch sum a dir
    | some p =>
      if (p : Int) > a.expectedSizeBytes then
        remove (a.partialPath dir)
        fetch sum a dir
      else if (p : Int) = a.expectedSizeBytes then
        match ← verify sum (a.partialPath dir) a dir with
        | .ok _ => publish a dir
        | .error _ =>
          remove (a.partialPath dir)
          fetch sum a dir
      else fetch sum a dir

/-- A truncated final file becomes the partial, unless there is a longer one. -/
def demote (a : Artifact) (dir : String) (existing : Nat) : Steps (Option Err) := do
  match ← stat (a.partialPath dir) with
  | none => rename (a.out dir) (a.partialPath dir)
  | some p =>
    if (p : Int) > a.expectedSizeBytes ∨ existing > p then
      remove (a.partialPath dir)
      rename (a.out dir) (a.partialPath dir)
    else
      remove (a.out dir)
      return none

def artifact (a : Artifact) (dir : String) : Steps (Option Err) := do
  match ← stat (a.out dir) with
  | none => complete sum a dir
  | some existing =>
    if (existing : Int) < a.expectedSizeBytes then
      match ← demote a dir existing with
      | some err => return some err
      | none => complete sum a dir
    else
      match ← verify sum (a.out dir) a dir with
      | .ok _ => return none
      | .error _ =>
        remove (a.out dir)
        remove (a.partialPath dir)
        complete sum a dir

/-! ### A model -/

/-- What is still to come of an artifact. -/
def remaining (a : Artifact) (dir : String) : Steps Int := do
  let final ← stat (a.out dir)
  if final.map Nat.cast = some a.expectedSizeBytes then return 0
  else do
    let left := match ← stat (a.partialPath dir) with
      | some p => max 0 (a.expectedSizeBytes - p)
      | none => a.expectedSizeBytes
    match ← stat (a.out dir) with
    | some f =>
      return if (f : Int) < a.expectedSizeBytes then min left (a.expectedSizeBytes - f) else left
    | none => return left

def requiredBytes (dir : String) : List Artifact → Steps Int
  | [] => pure 0
  | a :: rest => do
      let n ← remaining a dir
      let m ← requiredBytes dir rest
      return n + m

/-- Whether there is room for the model, where that can be told. -/
def checkSpace (s : Spec) (dir : String) : Steps (Option Err) := do
  match ← available dir with
  | some free =>
    let need ← requiredBytes dir s.artifacts
    return if free < need then some (.diskSpace s.modelID need free dir) else none
  | none => return none

def artifacts (dir : String) : List Artifact → Steps (Option Err)
  | [] => pure none
  | a :: rest => do
      match ← artifact sum a dir with
      | some err => return some err
      | none =>
        returned (a.out dir) a
        artifacts dir rest

def install (s : Spec) (dir : String) : Steps (Except Err (Option Path)) := do
  if s.artifacts.any fun a => a.expectedSizeBytes ≤ 0 ∨ a.sha256 = "" then
    return .error (.metadata s.modelID)
  else
    match ← mkdirAll dir with
    | some err => return .error err
    | none =>
      match ← checkSpace s dir with
      | some err => return .error err
      | none =>
        match ← artifacts sum dir s.artifacts with
        | some err => return .error err
        | none => return .ok (s.primary.map (·.out dir))

def model (s : Spec) (dir : String) : Steps (Except Err (Option Path)) := do
  match ← lock s dir with
  | some err => return .error err
  | none =>
    let r ← install sum s dir
    unlock (lockKey dir s.modelID)
    return r

/-- Calls in one process, for any models and directories. A crash of the
process is the death of every call. -/
def calls :
    Crew Answer World Choice (Spec × String) (Except Err (Option Path)) Unit Caller Unit where
  sem := act
  start _ := ()
  call k m := (fun r => (r, m)) <$> model sum k.1 k.2
  die p w := w.without p

end

/-- Any files, as they are known, and nothing recorded, locked or installed
yet. Every file has one name. -/
structure Fresh (w : World) : Prop where
  noted : ∀ p i, w.disk.names p = some i → (w.identity i, w.disk.bytes i) ∈ w.known
  one : ∀ x ∈ w.known, ∀ y ∈ w.known, x.1 = y.1 → x.2 = y.2
  injective : ∀ p q i, w.disk.names p = some i → w.disk.names q = some i → p = q
  cache : ∀ dir, w.cache dir = Cache.empty
  cacheLock : ∀ dir, w.cacheLock dir = none
  held : w.held = []
  installed : ∀ p, w.installed p = none

end LocalBase.Install
