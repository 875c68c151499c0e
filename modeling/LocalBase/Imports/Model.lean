import LocalBase.Imports.Plan

/-!
# The calls

Imports, deletions and clearing out, step by step. Only publishing and deleting
hold the root; a download takes hours and holds nothing.

Each step is one call of the file system or the store, so another process may come
between any two. What a step answers is not decided by the state alone: it may fail,
and a server may send anything.
-/

namespace LocalBase.Imports

open Program Files

/-! ## The root -/

/-- What a call works on in a staging directory: an import fills its plan's,
and one that nothing has touched for a while is cleared out. -/
inductive Work where
  | importing (plan : Plan)
  | clearing (staging : Name)
deriving DecidableEq

def Work.staging (short : String → String) : Work → Name
  | .importing plan => plan.staging short
  | .clearing name => name

/-- The directories and the files, the models that are recorded, who holds the
root, and which calls work in which staging directories. -/
structure World where
  folders : Folders Dir Name UInt8
  recorded : List Model
  lease : Option Run
  under : List (Run × Work)

/-- The file under a name of a directory. -/
def World.file (w : World) (d : Dir) (x : Name) : Option Bytes :=
  (w.folders.file d x).map Prod.snd

/-- `ON CONFLICT (id) DO UPDATE`. -/
def World.saved (w : World) (m : Model) : World :=
  { w with recorded := m :: w.recorded.filter fun r => r.id ≠ m.id }

/-- A call that is gone holds nothing. -/
def World.without (w : World) (p : Run) : World :=
  { w with
    lease := w.lease.filter fun q => q ≠ p
    under := w.under.filter fun x => x.1 ≠ p }

/-- A partial opened to be written, made if there is none and emptied if it is
to be. -/
def World.opened (w : World) (d : Dir) (x : Name) (trunc : Bool) : Option (Nat × World) :=
  match h : w.folders.place d with
  | none => none
  | some n =>
    match w.folders.disk.names (n, x) with
    | none => some (w.folders.disk.next,
        { w with folders := w.folders.create n x [] (w.folders.given d n h) })
    | some i => some (i, if trunc then { w with folders := w.folders.put i [] } else w)

/-- A file written beside and renamed into place. -/
def World.replaced (w : World) (d : Dir) (x : Name) (bs : Bytes) : Option World :=
  match h : w.folders.place d with
  | none => none
  | some n => some { w with folders := w.folders.create n x bs (w.folders.given d n h) }

def World.renamed (w : World) (d : Dir) (x y : Name) : Option World :=
  (w.folders.place d).bind fun n =>
    (w.folders.rename n x y).map fun folders => { w with folders := folders }

def World.removed (w : World) (d : Dir) (x : Name) : Option World :=
  (w.folders.place d).map fun n => { w with folders := w.folders.remove n x }

/-- Bytes written at an offset: what is there is overwritten, and a gap is
filled with zeros. -/
def overwrite (bs : Bytes) (off : Nat) (piece : Bytes) : Bytes :=
  (bs ++ List.replicate (off - bs.length) 0).take off ++ piece ++ bs.drop (off + piece.length)

/-- Bytes written through a handle, at its offset or else at the end. -/
def World.written (w : World) (i : Nat) (off : Option Nat) (piece : Bytes) : World :=
  { w with folders := w.folders.put i (match off with
    | none => w.folders.disk.bytes i ++ piece
    | some off => overwrite (w.folders.disk.bytes i) off piece) }

/-! ## Operations -/

/-- `begins` and `ends` do nothing: they say from when to when a call works in
a staging directory. -/
inductive Op where
  | begins (work : Work)
  | ends (work : Work)
  | takeLease
  | releaseLease
  | statDir (d : Dir)
  | openDir (d : Dir)
  | removeIn (n : Nat) (x : Name)
  | removeDir (d : Dir)
  | mkdirAll (d : Dir)
  | renameDir (d e : Dir)
  | readStaging
  | untouched (name : Name)
  | availableBytes
  | importedModels
  | saveModel (m : Model)
  | deleteRecord (id : String)
  | select (id : String)
  | cancelled
  | stat (d : Dir) (x : Name)
  | rename (d : Dir) (x y : Name)
  | remove (d : Dir) (x : Name)
  | readValidator (d : Dir) (x : Name)
  | writeValidator (d : Dir) (x : Name) (v : String)
  | get (url : String) (offset : Nat) (validator : String)
  | openLocal (path : String)
  | contextErr
  | openPartial (d : Dir) (x : Name) (trunc : Bool)
  | write (i : Nat) (off : Option Nat) (piece : Bytes)
  | close (i : Nat)
  | openRead (d : Dir) (x : Name)
  | read (i off k : Nat)
  | readEnd (i off : Nat)
  | inspectFile (d : Dir) (x : Name)

/-- What an operation answers: nothing, what it was asked for, or why it
failed. -/
abbrev Answer : Op → Type
  | .begins _ | .ends _ | .releaseLease | .removeIn _ _ | .remove _ _
  | .writeValidator _ _ _ => Unit
  | .statDir _ | .untouched _ | .cancelled => Bool
  | .openDir _ => Except Err (Option (Nat × List Name))
  | .readStaging => List Name
  | .availableBytes => Option Int
  | .importedModels => Except Err (List Model)
  | .stat _ _ => Option Nat
  | .readValidator _ _ => String
  | .get _ _ _ => Except Err Response
  | .openLocal _ => Except Err (List Bytes × Option Err)
  | .openPartial _ _ _ => Except Err Nat
  | .openRead _ _ => Except Err (Nat × List Nat)
  | .read _ _ _ => Except Err Bytes
  | .inspectFile _ _ => FileFacts
  | _ => Option Err

/-- What the world decides. `late`: an operation that fails after it was done;
`short`: a write that ends after some bytes; `reads`: how much each read of a
file brings, until its end; `names`: what is found in a directory. -/
inductive Choice where
  | ok
  | fails (err : Err)
  | late (err : Err)
  | short (n : Nat) (err : Err)
  | space (free : Int)
  | names (xs : List Name)
  | text (s : String)
  | serves (resp : Response)
  | pieces (body : List Bytes) (broken : Option Err)
  | reads (sizes : List Nat)
  | facts (ff : FileFacts)

/-- What a call's operation does; `none` where the choice is not one of its. -/
def act (p : Run) (w : World) (o : Op) (c : Choice) : Option (Answer o × World) :=
  match o, c with
  | .begins work, .ok => some ((), { w with under := (p, work) :: w.under })
  | .ends work, .ok => some ((), { w with under := w.under.filter fun x => x ≠ (p, work) })
  | .takeLease, .ok => if w.lease = none then some (none, { w with lease := some p }) else none
  | .takeLease, .fails err => some (some err, w)
  | .releaseLease, .ok => some ((), { w with lease := none })
  | .statDir d, .ok => some ((w.folders.place d).isSome, w)
  | .statDir _, .fails _ => some (false, w)
  | .openDir d, .names xs => some (.ok ((w.folders.place d).map fun n => (n, xs)), w)
  | .openDir _, .fails err => some (.error err, w)
  | .removeIn n x, .ok => some ((), { w with folders := w.folders.remove n x })
  | .removeIn _ _, .fails _ => some ((), w)
  | .removeDir d, .ok => some (none, { w with folders := w.folders.drop d })
  | .removeDir _, .fails err => some (some err, w)
  | .mkdirAll d, .ok => some (none, { w with folders := w.folders.make d })
  | .mkdirAll _, .fails err => some (some err, w)
  | .renameDir d e, .ok => (w.folders.move d e).map fun f => (none, { w with folders := f })
  | .renameDir _ _, .fails err => some (some err, w)
  | .readStaging, .names xs => some (xs, w)
  | .readStaging, .fails _ => some ([], w)
  | .untouched _, .ok => some (true, w)
  | .untouched _, .fails _ => some (false, w)
  | .availableBytes, .space free => some (some free, w)
  | .availableBytes, .fails _ => some (none, w)
  | .importedModels, .ok => some (.ok w.recorded, w)
  | .importedModels, .fails err => some (.error err, w)
  | .saveModel m, .ok => some (none, w.saved m)
  | .saveModel m, .late err => some (some err, w.saved m)
  | .saveModel _, .fails err => some (some err, w)
  | .deleteRecord id, .ok =>
    some (none, { w with recorded := w.recorded.filter fun r => r.id ≠ id })
  | .deleteRecord id, .late err =>
    some (some err, { w with recorded := w.recorded.filter fun r => r.id ≠ id })
  | .deleteRecord _, .fails err => some (some err, w)
  | .select _, .ok => some (none, w)
  | .select _, .fails err => some (some err, w)
  | .cancelled, .ok => some (true, w)
  | .cancelled, .fails _ => some (false, w)
  | .stat d x, .ok => some ((w.file d x).map List.length, w)
  | .stat _ _, .fails _ => some (none, w)
  | .rename d x y, .ok => (w.renamed d x y).map fun t => (none, t)
  | .rename _ _ _, .fails err => some (some err, w)
  | .remove d x, .ok => (w.removed d x).map fun t => ((), t)
  | .remove _ _, .fails _ => some ((), w)
  | .readValidator _ _, .text s => some (s, w)
  | .writeValidator d x v, .ok =>
    (w.replaced d x (v.toList.flatMap String.utf8EncodeChar)).map fun t => ((), t)
  | .writeValidator _ _ _, .fails _ => some ((), w)
  | .get _ _ _, .serves resp => some (.ok resp, w)
  | .get _ _ _, .fails err => some (.error err, w)
  | .openLocal _, .pieces body broken => some (.ok (body, broken), w)
  | .openLocal _, .fails err => some (.error err, w)
  | .contextErr, .ok => some (none, w)
  | .contextErr, .fails err => some (some err, w)
  | .openPartial d x trunc, .ok => (w.opened d x trunc).map fun a => (.ok a.1, a.2)
  | .openPartial d x trunc, .late err => (w.opened d x trunc).map fun a => (.error err, a.2)
  | .openPartial _ _ _, .fails err => some (.error err, w)
  | .write i off piece, .ok => some (none, w.written i off piece)
  | .write i off piece, .short n err => some (some err, w.written i off (piece.take n))
  | .write _ _ _, .fails err => some (some err, w)
  | .close _, .ok => some (none, w)
  | .close _, .fails err => some (some err, w)
  | .openRead d x, .reads sizes =>
    (w.folders.file d x).map fun a => (.ok (a.1, sizes), w)
  | .openRead _ _, .fails err => some (.error err, w)
  | .read i off k, .ok =>
    if off < (w.folders.disk.bytes i).length then
      some (.ok (((w.folders.disk.bytes i).drop off).take k), w)
    else none
  | .read _ _ _, .fails err => some (.error err, w)
  | .readEnd i off, .ok =>
    if (w.folders.disk.bytes i).length ≤ off then some (none, w) else none
  | .readEnd _ _, .fails err => some (some err, w)
  | .inspectFile _ _, .facts ff => some (ff, w)
  | _, _ => none

/-! ## The program -/

abbrev Steps (α : Type) : Type := Prog Answer α

def begins (work : Work) : Steps Unit := perform (Op.begins work)
def ends (work : Work) : Steps Unit := perform (Op.ends work)
def takeLease : Steps (Option Err) := perform Op.takeLease
def releaseLease : Steps Unit := perform Op.releaseLease
def statDir (d : Dir) : Steps Bool := perform (Op.statDir d)
def openDir (d : Dir) : Steps (Except Err (Option (Nat × List Name))) := perform (Op.openDir d)
def removeIn (n : Nat) (x : Name) : Steps Unit := perform (Op.removeIn n x)
def removeDir (d : Dir) : Steps (Option Err) := perform (Op.removeDir d)
def mkdirAll (d : Dir) : Steps (Option Err) := perform (Op.mkdirAll d)
def renameDir (d e : Dir) : Steps (Option Err) := perform (Op.renameDir d e)
def readStaging : Steps (List Name) := perform Op.readStaging
def untouched (name : Name) : Steps Bool := perform (Op.untouched name)
def availableBytes : Steps (Option Int) := perform Op.availableBytes
def importedModels : Steps (Except Err (List Model)) := perform Op.importedModels
def saveModel (m : Model) : Steps (Option Err) := perform (Op.saveModel m)
def deleteRecord (id : String) : Steps (Option Err) := perform (Op.deleteRecord id)
def select (id : String) : Steps (Option Err) := perform (Op.select id)
def cancelled : Steps Bool := perform Op.cancelled
def stat (d : Dir) (x : Name) : Steps (Option Nat) := perform (Op.stat d x)
def rename (d : Dir) (x y : Name) : Steps (Option Err) := perform (Op.rename d x y)
def remove (d : Dir) (x : Name) : Steps Unit := perform (Op.remove d x)
def readValidator (d : Dir) (x : Name) : Steps String := perform (Op.readValidator d x)
def writeValidator (d : Dir) (x : Name) (v : String) : Steps Unit :=
  perform (Op.writeValidator d x v)
def get (url : String) (offset : Nat) (v : String) : Steps (Except Err Response) :=
  perform (Op.get url offset v)
def openLocal (path : String) : Steps (Except Err (List Bytes × Option Err)) :=
  perform (Op.openLocal path)
def contextErr : Steps (Option Err) := perform Op.contextErr
def openPartial (d : Dir) (x : Name) (trunc : Bool) : Steps (Except Err Nat) :=
  perform (Op.openPartial d x trunc)
def write (i : Nat) (off : Option Nat) (piece : Bytes) : Steps (Option Err) :=
  perform (Op.write i off piece)
def close (i : Nat) : Steps (Option Err) := perform (Op.close i)
def openRead (d : Dir) (x : Name) : Steps (Except Err (Nat × List Nat)) := perform (Op.openRead d x)
def read (i off k : Nat) : Steps (Except Err Bytes) := perform (Op.read i off k)
def readEnd (i off : Nat) : Steps (Option Err) := perform (Op.readEnd i off)
def inspectFile (d : Dir) (x : Name) : Steps FileFacts := perform (Op.inspectFile d x)

/-! ### Removing a directory -/

def removeNames (n : Nat) : List Name → Steps Unit
  | [] => pure ()
  | x :: xs => do
      removeIn n x
      removeNames n xs

/-- `os.RemoveAll`, of a directory without others in it: what is in it is
removed through a handle, and then the directory by its path. -/
def removeAll (d : Dir) : Steps (Option Err) := do
  match ← openDir d with
  | .error err => return some err
  | .ok none => return none
  | .ok (some (n, xs)) =>
    removeNames n xs
    removeDir d

/-! ### Downloading -/

/-- `budget.check`: the budget, and why it stops the download. -/
def Budget.check (b : Budget) (done : Nat) : Steps (Budget × Option Err) := do
  if b.unknown ∧ (done : Int) > b.limit then return (b, some (.tooLarge b.limit))
  else if (done : Int) < b.nextCheck then return (b, none)
  else
    let b := { b with nextCheck := done + freeSpaceEvery }
    match ← availableBytes with
    | some free =>
      return (b, if free < freeSpaceReserve then
        some (.noSpace done (free - freeSpaceReserve + done)) else none)
    | none => return (b, none)

/-- `clearValidator`, of a partial. -/
def clearValidator (d : Dir) (partialFile : Name) : Steps Unit :=
  remove d (validatorName partialFile)

/-- The pieces of a body to where it ends or breaks off. With `append` they go
to the end of the file. -/
def receive (i : Nat) (append : Bool) (expected : Int) (broken : Option Err) :
    Budget → Nat → List Bytes → Steps (Option Err)
  | _, _, [] => pure broken
  | b, done, piece :: rest =>
    if piece = [] then receive i append expected broken b done rest
    else do
      match ← write i (if append then none else some done) piece with
      | some err => return some err
      | none =>
        if expected > 0 ∧ ((done + piece.length : Nat) : Int) > expected then
          return some (.sentMore expected)
        else do
          let r ← b.check (done + piece.length)
          match r.2 with
          | some err => return some err
          | none => receive i append expected broken r.1 (done + piece.length) rest

/-- The body of a response goes into the partial, which is kept for another try
unless it cannot finish. -/
def save (d : Dir) (x : Name) (append : Bool) (offset : Nat) (expected : Int) (b : Budget)
    (resp : Response) : Steps (Option Err) := do
  match ← openPartial d x (!append) with
  | .error err => return some err
  | .ok i =>
    let werr ← receive i append expected resp.broken b offset resp.body
    let cerr ← close i
    match werr <|> cerr with
    | some err =>
      if err.refused then
        remove d x
        clearValidator d x
        return some err
      else return some err
    | none =>
      clearValidator d x
      return none

/-- What a new object is known by; the person is not told twice. -/
def noteValidator (d : Dir) (x : Name) (v : String) (resp : Response) : Steps Unit :=
  if usable resp.validator ∨ v ≠ validatorNoticed then
    writeValidator d (validatorName x) resp.validator
  else pure ()

/-- Where a download takes up, and what it knows the partial by. -/
def takesUp (d : Dir) (x : Name) (pinned : Bool) (offset : Nat) : Steps (Nat × String) := do
  let v ← readValidator d (validatorName x)
  if offset > 0 ∧ ¬usable v ∧ ¬pinned then
    -- Nothing says that the object is still the one the partial began as.
    remove d x
    writeValidator d (validatorName x) validatorNoticed
    return (0, validatorNoticed)
  else return (offset, v)

/-- How much of a partial there is, unless it is too much. -/
def partialSize (d : Dir) (x : Name) (expected : Int) : Steps Nat := do
  let offset := (← stat d x).getD 0
  if expected > 0 ∧ (offset : Int) > expected then
    remove d x
    return 0
  else return offset

/-- A download, at most so many times. -/
def download (url : String) (d : Dir) (x : Name) (expected : Int) (b : Budget) (pinned : Bool) :
    Nat → Steps (Option Err)
  | 0 => pure (some .inconsistent)
  | attempts + 1 => do
      let offset ← partialSize d x expected
      if expected > 0 ∧ (offset : Int) = expected then
        clearValidator d x
        return none
      else do
        let up ← takesUp d x pinned offset
        match ← get url up.1 up.2 with
        | .error err => return some err
        | .ok resp =>
          if resp.status = 206 ∧ up.1 > 0 then
            if ¬resp.resumesAt up.1 then do
              remove d x
              download url d x expected b pinned attempts
            else if usable up.2 ∧ usable resp.validator ∧ resp.validator ≠ up.2 then do
              remove d x
              clearValidator d x
              download url d x expected b pinned attempts
            else save d x true up.1 expected b resp
          else if resp.status = 200 then do
            noteValidator d x up.2 resp
            save d x false 0 expected b resp
          else if resp.status = 416 ∧ up.1 > 0 then do
            remove d x
            download url d x expected b pinned attempts
          else return some (.httpStatus resp.status)

/-- The pieces of a local file, as long as the call is wanted. -/
def copyPieces (d : Dir) (x : Name) (i : Nat) (broken : Option Err) :
    Budget → Nat → List Bytes → Steps (Option Err)
  | _, _, [] => do
      match ← contextErr with
      | some err =>
        let _ ← close i
        return some err
      | none =>
        let cerr ← close i
        return broken <|> cerr
  | b, done, piece :: rest => do
      match ← contextErr with
      | some err =>
        let _ ← close i
        return some err
      | none =>
        if piece = [] then copyPieces d x i broken b done rest
        else
          match ← write i (some done) piece with
          | some err =>
            let _ ← close i
            return some err
          | none =>
            let r ← b.check (done + piece.length)
            match r.2 with
            | some err =>
              let _ ← close i
              remove d x
              return some err
            | none => copyPieces d x i broken r.1 (done + piece.length) rest

def copyFile (path : String) (d : Dir) (x : Name) (b : Budget) : Steps (Option Err) := do
  match ← openLocal path with
  | .error err => return some err
  | .ok (body, broken) =>
    match ← openPartial d x true with
    | .error err => return some err
    | .ok i => copyPieces d x i broken b 0 body

/-! ### A file -/

/-- What is in an open file, a read after the other: the digest is of all they
brought. -/
def readAll (i : Nat) : Bytes → List Nat → Steps (Except Err Bytes)
  | got, [] => do
      match ← readEnd i got.length with
      | some err => return .error err
      | none => return .ok got
  | got, k :: sizes => do
      match ← read i got.length k with
      | .error err => return .error err
      | .ok piece => readAll i (got ++ piece) sizes

section
variable (sum : Bytes → String) (short : String → String)

def fileSHA256 (d : Dir) (x : Name) : Steps (Except Err String) := do
  match ← openRead d x with
  | .error err => return .error err
  | .ok (i, sizes) => do
      match ← readAll i [] sizes with
      | .error err => return .error err
      | .ok got => return .ok (sum got)

def bring (p : Plan) (d : Dir) (f : PlannedFile) : Steps (Option Err) :=
  if f.localPath ≠ "" then copyFile f.localPath d f.partialFile (p.budget f.sizeBytes)
  else download f.fetchURL d f.partialFile f.sizeBytes (p.budget f.sizeBytes) (f.sha256 ≠ "") 2

/-- A file that is not in staging yet is downloaded or copied, and renamed to
its name. -/
def secure (p : Plan) (d : Dir) (f : PlannedFile) : Steps (Option Err) := do
  match ← stat d f.filename with
  | some _ => return none
  | none =>
    match ← bring p d f with
    | some err => return some err
    | none => rename d f.partialFile f.filename

/-- What is recorded of a file that was checked. -/
def PlannedFile.artifact (f : PlannedFile) (size : Nat) (sha256 : String) : Artifact :=
  ⟨f.filename, f.role, f.required, some size, some sha256,
    if f.sha256 ≠ "" then f.hashTrust else hashObserved, f.sourceURL⟩

/-- A file in staging is checked against its plan. -/
def check (d : Dir) (f : PlannedFile) : Steps (Except Err Artifact) := do
  match ← stat d f.filename with
  | none => return .error (.system "stat")
  | some size =>
    if f.sizeBytes > 0 ∧ (size : Int) ≠ f.sizeBytes then
      remove d f.filename
      return .error (.wrongSize f.filename size f.sizeBytes)
    else
      match ← fileSHA256 sum d f.filename with
      | .error err => return .error err
      | .ok actual =>
        if f.sha256 ≠ "" ∧ f.sha256 ≠ actual then
          remove d f.filename
          return .error (.hashMismatch f.filename f.sha256 actual f.hashTrust)
        else return .ok (f.artifact size actual)

def fetchFiles (p : Plan) (d : Dir) : List PlannedFile → Steps (Except Err (List Artifact))
  | [] => pure (.ok [])
  | f :: rest => do
      match ← secure p d f with
      | some err => return .error err
      | none =>
        match ← check sum d f with
        | .error err => return .error err
        | .ok a =>
          match ← fetchFiles p d rest with
          | .error err => return .error err
          | .ok arts => return .ok (a :: arts)

/-! ### Inspecting -/

def inspectRoles (d : Dir) : List Artifact → Steps (Except Err (List Artifact))
  | [] => pure (.ok [])
  | a :: rest => do
      let ff ← inspectFile d a.filename
      if ff.refused then
        remove d a.filename
        return .error (.notPublished a.filename ff.problem)
      else
        match ← inspectRoles d rest with
        | .error err => return .error err
        | .ok arts => return .ok (a.withRole ff :: arts)

/-- What inspecting a variant came to. -/
structure Inspection where
  artifacts : List Artifact
  missing : List Name
  weights : List FileFacts

/-- The shards that a file says there are, from the `i`-th on: one that is not
listed joins the variant. -/
def addShards (d : Dir) (stem : String) (count : Nat) :
    Nat → Nat → Inspection → Steps Inspection
  | 0, _, acc => pure acc
  | left + 1, i, acc => do
      let name := shardName stem i count
      if acc.artifacts.any (·.filename = name) then addShards d stem count left (i + 1) acc
      else if acc.artifacts.length ≥ maxVariantArtifacts then return acc
      else
        let found ← stat d name
        addShards d stem count left (i + 1)
          { acc with
            artifacts := acc.artifacts ++ [unlisted name]
            missing := if found.isSome then acc.missing else acc.missing ++ [name] }

def inspectShards (d : Dir) (a : Artifact) (ff : FileFacts) (acc : Inspection) : Steps Inspection :=
  match shardStem a.filename with
  | some stem =>
    if ff.splitCount > 1 then addShards d stem ff.splitCount ff.splitCount 1 acc else pure acc
  | none => pure acc

/-- The files of a variant, one after the other. -/
def inspectArtifacts (d : Dir) : List Artifact → Inspection → Steps Inspection
  | [], acc => pure acc
  | a :: rest, acc => do
      match ← stat d a.filename with
      | none =>
        inspectArtifacts d rest
          (if a.required then { acc with missing := acc.missing ++ [a.filename] } else acc)
      | some size =>
        if ¬a.sized size then
          inspectArtifacts d rest
            (if a.required then { acc with missing := acc.missing ++ [a.filename] } else acc)
        else
          let ff ← inspectFile d a.filename
          let acc ← inspectShards d a ff acc
          inspectArtifacts d rest
            (if a.role = roleWeights ∧ ff.role ≠ roleProjector then
              { acc with weights := acc.weights ++ [ff] } else acc)

def inspectVariant (d : Dir) (arts : List Artifact) : Steps Inspection :=
  inspectArtifacts d arts ⟨arts, [], []⟩

/-- What `Fetch` returns a model for. -/
def Plan.model (p : Plan) (arts : List Artifact) (i : Inspection) : Model where
  id := p.id
  task := p.task
  capabilities := if p.task = "chat" ∧ arts.any (·.role = roleProjector) then ["vision"] else []
  variantID := variantIDOf (precisionOf i.weights)
  artifacts := i.artifacts

def inspect (p : Plan) (d : Dir) (arts : List Artifact) : Steps (Except Err Model) := do
  match ← inspectRoles d arts with
  | .error err => return .error err
  | .ok arts =>
    let i ← inspectVariant d arts
    if i.missing ≠ [] then return .error (.incomplete (i.missing.insertionSort (· ≤ ·)))
    else
      match (p.model arts i).validate with
      | some err => return .error err
      | none => return .ok (p.model arts i)

/-! ### Fetching -/

/-- `PruneStaging`, of what is in staging but the directory to keep. -/
def pruneEach (keep : Option Name) : List Name → Steps Unit
  | [] => pure ()
  | name :: rest => do
      if keep = some name then pruneEach keep rest
      else
        match ← untouched name with
        | true =>
          begins (.clearing name)
          let _ ← removeAll (.staging name)
          ends (.clearing name)
          pruneEach keep rest
        | false => pruneEach keep rest

def pruneStaging (keep : Option Name) : Steps Unit := do
  let names ← readStaging
  pruneEach keep names

/-- How much of a file is in staging. -/
def staged (d : Dir) (f : PlannedFile) : Steps Nat := do
  match ← stat d f.filename with
  | some n => return n
  | none =>
    let n ← stat d f.partialFile
    return n.getD 0

/-- What the files of a plan still need, by the sizes the source says. -/
def needed (d : Dir) : List PlannedFile → Steps Int
  | [] => pure 0
  | f :: rest => do
      if f.sizeBytes ≤ 0 then needed d rest
      else
        let n ← staged d f
        let more ← needed d rest
        return max (f.sizeBytes - n) 0 + more

def checkSpace (p : Plan) (d : Dir) : Steps (Option Err) := do
  match ← availableBytes with
  | some free =>
    let need ← needed d p.files
    return if need > free - freeSpaceReserve then some (.noSpace need (free - freeSpaceReserve))
      else none
  | none => return none

def fetchInto (p : Plan) (d : Dir) : Steps (Except Err Model) := do
  match ← checkSpace p d with
  | some err => return .error err
  | none =>
    match ← mkdirAll d with
    | some err => return .error err
    | none =>
      match ← fetchFiles sum p d p.files with
      | .error err => return .error err
      | .ok arts => inspect p d arts

/-- `Fetch`. -/
def fetch (p : Plan) : Steps (Except Err Model) := do
  if p.files = [] then return .error (.chooseFile p.choices)
  else if p.task = "" then return .error .noTask
  else if p.task ∉ tasks then return .error (.unknownTask p.task)
  else
    match ← statDir (.imported p.id) with
    | true => return .error (.alreadyImported p.id)
    | false =>
      pruneStaging (some (p.staging short))
      fetchInto sum p (.staging (p.staging short))

/-! ### Publishing -/

/-- Hold the root, waiting for it as long as the call is wanted. -/
def underLease {α : Type} (fn : Steps (Except Err α)) : Steps (Except Err α) := do
  match ← takeLease with
  | some err => return .error err
  | none =>
    let r ← fn
    releaseLease
    return r

/-- Remove what nothing records under an id. -/
def reclaim (id : String) : Steps (Except Err Unit) := do
  match ← statDir (.imported id) with
  | false => return .ok ()
  | true =>
    match ← importedModels with
    | .error err => return .error err
    | .ok recorded =>
      if recorded.any (·.id = id) then return .ok ()
      else
        match ← removeAll (.imported id) with
        | some err => return .error err
        | none => return .ok ()

def prepareImport (p : Plan) : Steps (Except Err Unit) := do
  match ← statDir (.imported p.id) with
  | false => return .ok ()
  | true => underLease (reclaim p.id)

/-- `Fetched.Publish`. -/
def publish (staging : Name) (m : Model) : Steps (Option Err) := do
  match ← statDir (.imported m.id) with
  | true => return some (.alreadyImported m.id)
  | false =>
    match ← mkdirAll .imports with
    | some err => return some err
    | none => renameDir (.staging staging) (.imported m.id)

/-- `SaveImport`: the record, and then the backend. -/
def saveImport (m : Model) : Steps (Option Err) := do
  match ← saveModel m with
  | some err => return some err
  | none => select m.id

/-- What publishing does with the root. -/
def publishHeld (p : Plan) (m : Model) : Steps (Except Err Unit) := do
  match ← reclaim p.id with
  | .error err => return .error err
  | .ok () =>
    match ← publish (p.staging short) m with
    | some err => return .error err
    | none =>
      match ← saveImport m with
      | some err => return .error err
      | none => return .ok ()

def publishImport (p : Plan) (m : Model) : Steps (Except Err Unit) :=
  underLease (publishHeld short p m)

/-! ### The calls -/

/-- An import up to where it is recorded or given up. -/
def importModel (p : Plan) : Steps (Except Err Unit) := do
  match ← prepareImport p with
  | .error err => return .error err
  | .ok () =>
    match ← fetch sum short p with
    | .error err => return .error err
    | .ok m => publishImport short p m

/-- An import that was cancelled removes what it downloaded. -/
def removeStaging (staging : Name) : Steps Unit := do
  match ← cancelled with
  | true =>
    let _ ← removeAll (.staging staging)
    return ()
  | false => return ()

def runImport (p : Plan) : Steps (Except Err Unit) := do
  begins (.importing p)
  let r ← importModel sum short p
  match r with
  | .ok () =>
    ends (.importing p)
    return .ok ()
  | .error err =>
    removeStaging (p.staging short)
    ends (.importing p)
    return .error err

def deleteHeld (id : String) : Steps (Except Err Unit) := do
  match ← deleteRecord id with
  | some err => return .error err
  | none =>
    match ← removeAll (.imported id) with
    | some err => return .error err
    | none => return .ok ()

/-- `models delete`. -/
def deleteModel (id : String) : Steps (Except Err Unit) := do
  match ← importedModels with
  | .error err => return .error err
  | .ok recorded =>
    if recorded.any (·.id = id) then underLease (deleteHeld id)
    else return .error (.notImported id)

/-- `Open` clears out staging. -/
def openLibrary : Steps (Except Err Unit) := do
  pruneStaging none
  return .ok ()

inductive Call where
  | runImport (p : Plan)
  | deleteModel (id : String)
  | openLibrary
deriving DecidableEq

def Call.steps : Call → Steps (Except Err Unit)
  | .runImport p => Imports.runImport sum short p
  | .deleteModel id => Imports.deleteModel id
  | .openLibrary => Imports.openLibrary

/-- Calls in any number of processes. A crash of a process is the death of each
of its calls. -/
def calls : Crew Answer World Choice Call (Except Err Unit) Unit Run Unit where
  sem := act
  start _ := ()
  call k m := (fun r => (r, m)) <$> k.steps sum short
  die p w := w.without p

end

/-- Any files, and nothing recorded, held or under way yet. -/
structure Fresh (w : World) : Prop where
  recorded : w.recorded = []
  lease : w.lease = none
  under : w.under = []

end LocalBase.Imports
