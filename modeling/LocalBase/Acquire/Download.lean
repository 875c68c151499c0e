import LocalBase.Lib.Program

/-!
# Downloading into a partial

`download` fetches an object into a partial file, and takes up where an
earlier call left it. Beside the partial it keeps a validator: what the server
said identifies the object the partial began as. The two are written in
separate steps, and each call trusts what it finds of both.

The server is what the source relies on: every version of the object has a
validator of its own, and it honours `Range` and `If-Range`. Which version it
has at a request, and whether it takes up a range, is not for the program to
choose; nor is where a connection, a write or the program itself ends.
-/

namespace LocalBase.Acquire

open Program

abbrev Bytes : Type := List UInt8

abbrev Err : Type := String

/-! ## Validators -/

/-- The server gave nothing to resume by. -/
def validatorNone : String := "none"

/-- And the person has been told. -/
def validatorNoticed : String := "noticed"

def usable (v : String) : Bool := v ≠ "" && v ≠ validatorNone && v ≠ validatorNoticed

/-- What a response offers. A weak ETag can't be used with If-Range. -/
def validatorOf (etag modified : String) : String :=
  if etag ≠ "" ∧ ¬ "W/".toList.isPrefixOf etag.toList then etag
  else if modified ≠ "" then modified
  else validatorNone

/-- An object and its versions, each with its bytes and the headers that name
it, and no two by the same validator. -/
structure Server (V : Type) where
  bytes : V → Bytes
  etag : V → String
  modified : V → String
  strong : ∀ v, usable (validatorOf (etag v) (modified v)) = true
  own : ∀ v v', validatorOf (etag v) (modified v) = validatorOf (etag v') (modified v') → v = v'

def Server.validator {V : Type} (server : Server V) (v : V) : String :=
  validatorOf (server.etag v) (server.modified v)

/-! ## Operations -/

/-- A response. `contentRange` is where its Content-Range says the bytes
start, `body` what the connection has to deliver. -/
structure Response where
  status : Nat
  contentRange : Option String
  etag : String
  modified : String
  body : Bytes
deriving DecidableEq, Repr

/-- What a read brings: a byte of a piece that goes on, the last of a piece, or
an error. At the end of the body both the others are the end of the file. -/
inductive Got where
  | more
  | ends
  | failed (err : Err)
deriving DecidableEq, Repr

inductive Op where
  | stat
  | remove
  | readValidator
  | writeValidator (text : String)
  | clearValidator
  | notice
  | get (range : Option Nat) (ifRange : Option String)
  | openPartial (truncate : Bool)
  | read
  | write (piece : Bytes)
  | freeSpace
  | close
deriving DecidableEq, Repr

/-- What an operation answers. `stat` gives the size, `freeSpace` how much
there is. -/
abbrev Answer : Op → Type
  | .stat | .freeSpace => Option Nat
  | .remove | .writeValidator _ | .clearValidator | .notice => Unit
  | .readValidator => String
  | .get _ _ => Except Err Response
  | .read => Got
  | .openPartial _ | .write _ | .close => Option Err

/-- What the world decides. `late`: an opening that is refused by its checks
after the file was truncated; `short`: a write that ends after some bytes. -/
inductive Choice (V : Type) where
  | ok
  | more
  | fails (err : Err)
  | late (err : Err)
  | short (n : Nat) (err : Err)
  | serves (v : V) (ranged : Bool)
  | status (code : Nat)
  | space (free : Nat)
deriving DecidableEq, Repr

/-- The partial and its validator. `serving` is the version of the last
response, `begun` the one that was last written into the partial. -/
structure World (V : Type) where
  file : Option Bytes
  validator : Option String
  serving : Option V
  begun : Option V
deriving DecidableEq, Repr

section
variable {V : Type} (server : Server V)

/-- A response with a version: a range of it that was asked for, if the
If-Range names it, and otherwise all of it. -/
def Server.respond (v : V) (ranged : Bool) (range : Option Nat) (ifRange : Option String) :
    Response :=
  let whole : Response := ⟨200, none, server.etag v, server.modified v, server.bytes v⟩
  match range with
  | none => whole
  | some start =>
    if ranged ∧ (ifRange = none ∨ ifRange = some (server.validator v)) then
      if start < (server.bytes v).length then
        { whole with
          status := 206
          contentRange := some (toString start)
          body := (server.bytes v).drop start }
      else { whole with status := 416, body := [] }
    else whole

/-- What an operation does; `none` where the choice is not one of its. -/
def act (w : World V) (o : Op) (c : Choice V) : Option (Answer o × World V) :=
  match o, c with
  | .stat, .ok => some (w.file.map List.length, w)
  | .stat, .fails _ => some (none, w)
  | .remove, .ok => some ((), { w with file := none })
  | .remove, .fails _ => some ((), w)
  | .readValidator, .ok => some (w.validator.getD "", w)
  | .readValidator, .fails _ => some ("", w)
  | .writeValidator text, .ok => some ((), { w with validator := some text })
  | .writeValidator _, .fails _ => some ((), w)
  | .clearValidator, .ok => some ((), { w with validator := none })
  | .clearValidator, .fails _ => some ((), w)
  | .notice, .ok => some ((), w)
  | .get range ifRange, .serves v ranged =>
    some (.ok (server.respond v ranged range ifRange), { w with serving := some v })
  | .get _ _, .status code =>
    if code = 200 ∨ code = 206 ∨ code = 416 then none
    else some (.ok ⟨code, none, "", "", []⟩, w)
  | .get _ _, .fails err => some (.error err, w)
  | .openPartial truncate, .ok =>
    some (none, { w with
      file := some (if truncate then [] else w.file.getD [])
      begun := w.serving })
  | .openPartial _, .fails err => some (some err, w)
  | .openPartial truncate, .late err =>
    some (some err, if truncate then { w with file := some [] } else w)
  | .read, .more => some (.more, w)
  | .read, .ok => some (.ends, w)
  | .read, .fails err => some (.failed err, w)
  | .write piece, .ok => some (none, { w with file := some (w.file.getD [] ++ piece) })
  | .write piece, .short n err =>
    some (some err, { w with file := some (w.file.getD [] ++ piece.take n) })
  | .freeSpace, .space free => some (some free, w)
  | .freeSpace, .fails _ => some (none, w)
  | .close, .ok => some (none, w)
  | .close, .fails err => some (some err, w)
  | _, _ => none

end

/-! ## The program -/

abbrev Steps (α : Type) : Type := Prog Answer α

def stat : Steps (Option Nat) := perform Op.stat
def remove : Steps Unit := perform Op.remove
def readValidator : Steps String := perform Op.readValidator
def writeValidator (text : String) : Steps Unit := perform (Op.writeValidator text)
def clearValidator : Steps Unit := perform Op.clearValidator
def notice : Steps Unit := perform Op.notice
def get (range : Option Nat) (ifRange : Option String) : Steps (Except Err Response) :=
  perform (Op.get range ifRange)
def openPartial (truncate : Bool) : Steps (Option Err) := perform (Op.openPartial truncate)
def read : Steps Got := perform Op.read
def write (piece : Bytes) : Steps (Option Err) := perform (Op.write piece)
def freeSpace : Steps (Option Nat) := perform Op.freeSpace
def close : Steps (Option Err) := perform Op.close

/-- Why a download is stopped: the source did not say how big the file is, and
it passed the limit for that; or the disk is filling up. -/
inductive Refused where
  | tooLarge (limit : Nat) (onHost : Bool)
  | noSpace (need : Nat) (usable : Int)
deriving DecidableEq, Repr

/-- The text of the refusal; `gib` shows a size. -/
def Refused.text (gib : Int → String) : Refused → String
  | .tooLarge limit onHost =>
    "This source did not say how big the file is, and it passed the " ++ gib limit ++
      " limit for that. Nothing was kept." ++
      if onHost then
        " To allow more, run: local-base configure --import-max-unknown-gib <GiB>"
      else " Whoever runs this LocalBase can raise the limit."
  | .noSpace need usable =>
    "There is not enough free disk space for this model: it needs " ++ gib need ++ ", and " ++
      gib (max usable 0) ++ " can be used."

inductive Failure where
  | network (err : Err)
  | status (code : Nat)
  | file (err : Err)
  | tooMuch (expected : Nat)
  | refused (why : Refused)
  | inconsistent
deriving DecidableEq, Repr

/-- The text of the error; `url` is where the response came from. -/
def Failure.text (gib : Int → String) (url : String) : Failure → String
  | .network err | .file err => err
  | .refused why => why.text gib
  | .status code => "download failed: HTTP " ++ toString code ++ " from " ++ url
  | .tooMuch expected =>
    "the server sent more than the expected " ++ toString expected ++ " bytes"
  | .inconsistent => "the server does not resume this download consistently"

/-- How often a running download looks at the free space. -/
def freeSpaceEvery : Nat := 67108864

/-- What stays free on the volume. -/
def freeSpaceReserve : Nat := 2147483648

/-- What stops a download that would cost too much. -/
structure Budget where
  unknown : Bool
  limit : Nat
  onHost : Bool
  nextCheck : Nat
deriving DecidableEq, Repr

def Budget.check (b : Budget) (done : Nat) : Steps (Option Refused × Budget) :=
  if b.unknown && b.limit < done then pure (some (.tooLarge b.limit b.onHost), b)
  else if done < b.nextCheck then pure (none, b)
  else do
    let free ← freeSpace
    let b := { b with nextCheck := done + freeSpaceEvery }
    match free with
    | some free =>
      if free < freeSpaceReserve then
        return (some (.noSpace done (free - freeSpaceReserve + done)), b)
      else return (none, b)
    | none => return (none, b)

/-- A call: the size the source is expected to have, 0 where it is not known,
whether a hash pins it, the limit of what it may cost, and whether the person
is at the host. -/
structure Kind where
  expected : Nat
  pinned : Bool
  limit : Nat
  onHost : Bool
deriving DecidableEq, Repr

section
variable (k : Kind)

/-- Write a piece, and look whether that is too much. -/
def keep (b : Budget) (done : Nat) (piece : Bytes) : Steps (Except Failure (Budget × Nat)) :=
  if piece = [] then pure (.ok (b, done))
  else do
    match ← write piece with
    | some err => return .error (.file err)
    | none =>
      let done := done + piece.length
      if 0 < k.expected ∧ k.expected < done then return .error (.tooMuch k.expected)
      else
        let (low, b) ← b.check done
        match low with
        | some why => return .error (.refused why)
        | none => return .ok (b, done)

/-- Read the body and write it, piece by piece; `piece` is what was read and is
not written yet. -/
def receive (b : Budget) (done : Nat) (piece : Bytes) : Bytes → Steps (Option Failure)
  | [] => do
      let got ← read
      match ← keep k b done piece with
      | .error failure => return some failure
      | .ok _ =>
        match got with
        | .failed err => return some (.network err)
        | _ => return none
  | byte :: rest => do
      match ← read with
      | .more => receive b done (piece ++ [byte]) rest
      | .ends =>
        match ← keep k b done (piece ++ [byte]) with
        | .error failure => return some failure
        | .ok (b, done) => receive b done [] rest
      | .failed err =>
        match ← keep k b done piece with
        | .error failure => return some failure
        | .ok _ => return some (.network err)

/-- What is left once the body is over: nothing to resume, or something that
cannot finish and is using the space, or a partial. -/
def settle (failure : Option Failure) : Steps (Option Failure) :=
  match failure with
  | some (.refused why) => do
      remove
      clearValidator
      return some (.refused why)
  | some other => pure (some other)
  | none => do
      clearValidator
      return none

/-- The body of a response, from the offset where it begins. -/
def receiveAll (truncate : Bool) (offset : Nat) (body : Bytes) : Steps (Option Failure) := do
  match ← openPartial truncate with
  | some err => return some (.file err)
  | none =>
    let failure ← receive k ⟨k.expected = 0, k.limit, k.onHost, 0⟩ offset [] body
    let closed ← close
    settle (failure.or (closed.map .file))

/-- How an attempt ended: it has to be made again, or this is the result. -/
inductive Attempt where
  | again
  | over (failure : Option Failure)
deriving DecidableEq, Repr

/-- Ask for the object from the offset on, and receive it. -/
def fetch (offset : Nat) (validator : String) : Steps Attempt := do
  let range := if 0 < offset then some offset else none
  let ifRange := if 0 < offset ∧ usable validator then some validator else none
  match ← get range ifRange with
  | .error err => return .over (some (.network err))
  | .ok resp =>
    let now := validatorOf resp.etag resp.modified
    if resp.status = 206 ∧ 0 < offset then
      if resp.contentRange ≠ some (toString offset) then do
        -- The server resumed from somewhere else.
        remove
        return .again
      else if usable validator ∧ usable now ∧ now ≠ validator then do
        -- It ignored If-Range: these bytes belong to another object.
        remove
        clearValidator
        return .again
      else
        let failure ← receiveAll k false offset resp.body
        return .over failure
    else if resp.status = 200 then do
      -- No resume support, or the object changed.
      if usable now ∨ validator ≠ validatorNoticed then writeValidator now
      let failure ← receiveAll k true 0 resp.body
      return .over failure
    else if resp.status = 416 ∧ 0 < offset then do
      remove
      return .again
    else return .over (some (.status resp.status))

/-- What says what the partial is, or that nothing does: then it is given up,
since two objects must not be joined. -/
def resumeFrom (offset : Nat) : Steps Attempt := do
  let validator ← readValidator
  if 0 < offset ∧ ¬ usable validator ∧ ¬ k.pinned then do
    if validator ≠ validatorNoticed then notice
    remove
    writeValidator validatorNoticed
    fetch k 0 validatorNoticed
  else fetch k offset validator

def attempt : Steps Attempt := do
  let size ← stat
  let offset := size.getD 0
  if 0 < k.expected ∧ k.expected < offset then do
    remove
    resumeFrom k 0
  else if 0 < k.expected ∧ offset = k.expected then do
    clearValidator
    return .over none
  else resumeFrom k offset

/-- Fetches the object into the partial, resuming from its current size. -/
def download : Steps (Option Failure) := do
  match ← attempt k with
  | .over failure => return failure
  | .again =>
    match ← attempt k with
    | .over failure => return failure
    | .again => return some .inconsistent

end

/-- The downloads of one partial, call after call. -/
def downloads {V : Type} (server : Server V) :
    Shop Answer (World V) (Choice V) Kind (Option Failure) where
  sem := act server
  enter w k := if k.pinned then none else some w
  call := download

def Fresh {V : Type} (w : World V) : Prop := w = ⟨none, none, none, none⟩

end LocalBase.Acquire
