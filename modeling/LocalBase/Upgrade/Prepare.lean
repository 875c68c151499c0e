import LocalBase.Lib.Bytes
import LocalBase.Lib.Program
import Mathlib.Algebra.Order.Ring.Nat
import Mathlib.Data.List.Basic

/-!
# Who vouches for a release, and which release it is

A release has a list of checksums and a file of signatures over it. `verifySignature` asks
for one signature by one listed key that is not revoked, and `findChecksum` reads a hash
off the list. Versions are compared as three numbers: `decideVersion` goes down only where
that is asked for.
-/

namespace LocalBase.Upgrade.Release

abbrev Bytes := List UInt8

def text (s : String) : Bytes := s.toList.map fun c => UInt8.ofNat c.toNat

/-! ## White space -/

/-- How many bytes the white space at the front takes, in UTF-8; none if there is none. -/
def spaceWidth : Bytes → Nat
  | 0xc2 :: 0x85 :: _ | 0xc2 :: 0xa0 :: _ => 2
  | 0xe1 :: 0x9a :: 0x80 :: _ => 3
  | 0xe2 :: 0x80 :: b :: _ =>
    if (0x80 ≤ b ∧ b ≤ 0x8a) ∨ b = 0xa8 ∨ b = 0xa9 ∨ b = 0xaf then 3 else 0
  | 0xe2 :: 0x81 :: 0x9f :: _ => 3
  | 0xe3 :: 0x80 :: 0x80 :: _ => 3
  | b :: _ => if (9 ≤ b ∧ b ≤ 13) ∨ b = 32 then 1 else 0
  | [] => 0

/-- `strings.Fields`, with the bytes of white space still to skip and the word so far. -/
def fieldsFrom (skip : Nat) (word : Bytes) : Bytes → List Bytes
  | [] => if word = [] then [] else [word]
  | b :: rest =>
    match skip with
    | n + 1 => fieldsFrom n word rest
    | 0 =>
      match spaceWidth (b :: rest) with
      | 0 => fieldsFrom 0 (word ++ [b]) rest
      | n + 1 => (if word = [] then [] else [word]) ++ fieldsFrom n [] rest

def fields (line : Bytes) : List Bytes := fieldsFrom 0 [] line

/-- `strings.TrimLeft`, of white space. -/
def trimLeft (skip : Nat) : Bytes → Bytes
  | [] => []
  | b :: rest =>
    match skip with
    | n + 1 => trimLeft n rest
    | 0 =>
      match spaceWidth (b :: rest) with
      | 0 => b :: rest
      | n + 1 => trimLeft n rest

def trimRight : Bytes → Bytes
  | [] => []
  | b :: rest => if trimLeft 0 (b :: rest) = [] then [] else b :: trimRight rest

def trimSpace (s : Bytes) : Bytes := trimRight (trimLeft 0 s)

/-! ## Signatures -/

/-- A character of base64, as six bits. -/
def sextet (b : UInt8) : Option Nat :=
  if 65 ≤ b ∧ b ≤ 90 then some (b.toNat - 65)
  else if 97 ≤ b ∧ b ≤ 122 then some (b.toNat - 71)
  else if 48 ≤ b ∧ b ≤ 57 then some (b.toNat + 4)
  else if b = 43 then some 62
  else if b = 47 then some 63
  else none

/-- What is left of `StdEncoding.DecodeString` without the line breaks. The bits to spare
before the padding are not looked at. -/
def quads : Bytes → Option Bytes
  | [] => some []
  | [a, b, 61, 61] => do
      let s ← sextet a
      let t ← sextet b
      some [UInt8.ofNat (s * 4 + t / 16)]
  | [a, b, c, 61] => do
      let s ← sextet a
      let t ← sextet b
      let u ← sextet c
      some [UInt8.ofNat (s * 4 + t / 16), UInt8.ofNat (t % 16 * 16 + u / 4)]
  | a :: b :: c :: d :: rest => do
      let s ← sextet a
      let t ← sextet b
      let u ← sextet c
      let v ← sextet d
      let bytes ← quads rest
      some (UInt8.ofNat (s * 4 + t / 16) :: UInt8.ofNat (t % 16 * 16 + u / 4) ::
        UInt8.ofNat (u % 4 * 64 + v) :: bytes)
  | _ => none

def decode64 (s : Bytes) : Option Bytes := quads (s.filter fun b => b ≠ 10 && b ≠ 13)

/-- A public key that can vouch for a release. -/
structure Key where
  id : Bytes
  pub : Bytes
  revoked : Bool
  deriving DecidableEq

/-- Whether any listed key can verify a release. -/
def ready (keys : List Key) : Bool := keys.any fun k => !k.revoked

section Signature

variable (ed25519 : Bytes → Bytes → Bytes → Bool)

/-- Whether `k` is named on a line and has signed `body` with `raw`. -/
def signs (k : Key) (id body raw : Bytes) : Bool :=
  k.id = id && !k.revoked &&
    match decode64 k.pub with
    | some pub => pub.length = 32 && ed25519 pub body raw
    | none => false

/-- The key of a line, if it verifies. -/
def verifyLine (body : Bytes) (keys : List Key) (line : Bytes) : Option Key :=
  match fields line with
  | [id, sig] =>
    match decode64 sig with
    | some raw => if raw.length = 64 then keys.find? (signs ed25519 · id body raw) else none
    | none => none
  | _ => none

def verifySignature (body sig : Bytes) (keys : List Key) : Option Key :=
  (sig.splitOn 10).findSome? (verifyLine ed25519 body keys)

/-- A key that counts has signed the bytes. -/
def Signed (k : Key) (body : Bytes) : Prop :=
  k.revoked = false ∧ ∃ pub raw, decode64 k.pub = some pub ∧ pub.length = 32 ∧
    raw.length = 64 ∧ ed25519 pub body raw = true

variable {ed25519} {body sig line : Bytes} {keys : List Key} {k : Key}

theorem signs_eq_true {id raw : Bytes} (h : signs ed25519 k id body raw = true) :
    k.id = id ∧ k.revoked = false ∧
      ∃ pub, decode64 k.pub = some pub ∧ pub.length = 32 ∧ ed25519 pub body raw = true := by
  unfold signs at h
  rw [Bool.and_eq_true, Bool.and_eq_true] at h
  obtain ⟨⟨hid, hrevoked⟩, hpub⟩ := h
  split at hpub
  · next pub hdec =>
    rw [Bool.and_eq_true] at hpub
    exact ⟨by simpa using hid, by simpa using hrevoked, pub, hdec, by simpa using hpub.1, hpub.2⟩
  · cases hpub

theorem verifyLine_spec (h : verifyLine ed25519 body keys line = some k) :
    k ∈ keys ∧ Signed ed25519 k body := by
  unfold verifyLine at h
  split at h
  · next id sig _ =>
    split at h
    · next raw hraw =>
      split at h
      · next hlen =>
        have hsigns : signs ed25519 k id body raw = true :=
          List.find?_some (p := (signs ed25519 · id body raw)) h
        obtain ⟨-, hrevoked, pub, hpub, hpublen, hok⟩ := signs_eq_true hsigns
        exact ⟨List.mem_of_find?_eq_some h, hrevoked, pub, raw, hpub, hpublen, hlen, hok⟩
      · cases h
    · cases h
  · cases h

theorem verifySignature_spec (h : verifySignature ed25519 body sig keys = some k) :
    k ∈ keys ∧ Signed ed25519 k body := by
  obtain ⟨line, -, hline⟩ := List.exists_of_findSome?_eq_some h
  exact verifyLine_spec hline

end Signature

/-! ## Checksums -/

/-- `^[0-9a-f]{64}$`. -/
def isHash (s : Bytes) : Bool :=
  s.length = 64 && s.all fun b => (48 ≤ b && b ≤ 57) || (97 ≤ b && b ≤ 102)

/-- A leading `*` marks a binary file. -/
def trimStar : Bytes → Bytes
  | 42 :: name => name
  | name => name

def checksumLine (name line : Bytes) : Option Bytes :=
  match fields line with
  | [hash, file] => if trimStar file = name ∧ isHash hash = true then some hash else none
  | _ => none

def findChecksum (checksums name : Bytes) : Option Bytes :=
  (checksums.splitOn 10).findSome? (checksumLine name)

/-! ## Versions -/

/-- `(\d+)\.(\d+)\.(\d+)`, and what `Atoi` makes of each. -/
def number (digits : Bytes) : Option Nat :=
  if digits ≠ [] ∧ digits.all (fun b => 48 ≤ b && b ≤ 57) = true then
    let n := digits.foldl (fun n b => n * 10 + (b.toNat - 48)) 0
    if n < 2 ^ 63 then some n else none
  else none

structure Version where
  major : Nat
  minor : Nat
  patch : Nat
  deriving DecidableEq

/-- `parts(versionRe, s)`. -/
def parseVersion (s : Bytes) : Option Version :=
  match s.splitOn 46 with
  | [a, b, c] => do
      let major ← number a
      let minor ← number b
      let patch ← number c
      some ⟨major, minor, patch⟩
  | _ => none

/-- `parts(tagRe, s)`. -/
def parseTag : Bytes → Option Version
  | 118 :: s => parseVersion s
  | _ => none

theorem parseTag_drop {tag : Bytes} (h : (parseTag tag).isSome = true) :
    parseTag tag = parseVersion (tag.drop 1) := by
  revert h
  unfold parseTag
  split
  · exact fun _ => rfl
  · intro h
    cases h

namespace Version

def less (a b : Version) : Bool :=
  if a.major ≠ b.major then a.major < b.major
  else if a.minor ≠ b.minor then a.minor < b.minor
  else if a.patch ≠ b.patch then a.patch < b.patch
  else false

variable {a b c : Version}

theorem less_iff : less a b = true ↔ a.major < b.major ∨ a.major = b.major ∧
    (a.minor < b.minor ∨ a.minor = b.minor ∧ a.patch < b.patch) := by
  unfold less
  split
  · simp only [decide_eq_true_eq]
    omega
  · split
    · simp only [decide_eq_true_eq]
      omega
    · split
      · simp only [decide_eq_true_eq]
        omega
      · simp only [Bool.false_eq_true, false_iff]
        omega

theorem less_total (hne : a ≠ b) (h : less b a = false) : less a b = true := by
  rw [less_iff]
  have hnot : ¬ less b a = true := by rw [h]; exact Bool.false_ne_true
  rw [less_iff] at hnot
  have hparts : ¬ (a.major = b.major ∧ a.minor = b.minor ∧ a.patch = b.patch) := by
    rintro ⟨h₁, h₂, h₃⟩
    obtain ⟨a₁, a₂, a₃⟩ := a
    obtain ⟨b₁, b₂, b₃⟩ := b
    simp only at h₁ h₂ h₃
    exact hne (by rw [h₁, h₂, h₃])
  omega

end Version

/-- What a tag means for the running version. -/
structure Comparison where
  newer : Bool := false
  known : Bool := false
  deriving DecidableEq

def compare (current tag : Bytes) : Comparison :=
  match parseVersion current, parseTag tag with
  | some cur, some got => ⟨cur.less got, true⟩
  | _, _ => {}

/-- Why a version is not gone to. -/
inductive Kept
  | unknown | same | downgrade
  deriving DecidableEq

/-- `DecideVersion`; nothing to hold against it is to proceed. -/
def decideVersion (current target : Bytes) (allowDowngrade : Bool) : Option Kept :=
  match parseVersion current, parseVersion target with
  | some cur, some got =>
    if cur = got then some .same
    else if got.less cur && !allowDowngrade then some .downgrade
    else none
  | _, _ => some .unknown

theorem newer_of_decided {current target : Bytes} (h : decideVersion current target false = none) :
    ∃ cur got, parseVersion current = some cur ∧ parseVersion target = some got ∧
      cur.less got = true := by
  unfold decideVersion at h
  split at h
  · next cur got hcur hgot =>
    split at h
    · cases h
    · next hne =>
      split at h
      · cases h
      · next hdown =>
        refine ⟨cur, got, hcur, hgot, Version.less_total hne ?_⟩
        simpa using hdown
  · cases h

/-! ## Assets -/

/-- `AssetBinary`; nothing where there is no such target. -/
def assetBinary (goos goarch : String) : Option String :=
  let osName := match goos with
    | "darwin" => some "macos"
    | "linux" => some "linux"
    | _ => none
  let archName := match goarch with
    | "arm64" => some "arm64"
    | "amd64" => some "x64"
    | _ => none
  match osName, archName with
  | some os, some arch => some ("local-base-" ++ os ++ "-" ++ arch)
  | _, _ => none

def assetArchive (goos goarch : String) : Option String :=
  (assetBinary goos goarch).map fun b => if goos = "darwin" then b ++ ".zip" else b ++ ".tar.gz"

/-!
## Preparing a release

`Prepare` downloads a release into a directory of its own and verifies it: the signature
over the checksums before anything in them is read, and the archive against its hash before
it is opened. Then the binary that is taken out of it is run once, for its version.

What a server answers and where an operation fails is open. `Vouched` is what may be run:
the binary of an archive whose hash is on a list that a key that counts has signed. The
program runs nothing else, leaves nothing behind where it refuses, and what it hands on is
of the version that was asked for.
-/

open Program

abbrev Err := String

def maxChecksumBytes : Nat := 65536

def maxSignatureBytes : Nat := 8192

def maxArchiveBytes : Nat := 536870912

def maxBinaryBytes : Nat := 536870912

/-- An entry of an archive; `broken` is an error that ends its bytes. -/
structure Entry where
  name : Bytes
  regular : Bool
  opens : Option Err := none
  body : Bytes
  broken : Option Err := none

/-- What an archive's reader makes of its bytes: the entries up to an error, if there is
one. -/
structure Archive where
  entries : List Entry
  broken : Option Err := none

inductive Op where
  | fetch (limit : Nat)
  | mkdirTemp
  | chmodDir
  | createArchive
  | download
  | closeArchive
  | readArchive
  | createNew
  | writeNew (bytes : Bytes)
  | closeNew
  | chmodNew
  | sumNew
  | runNew
  | removeArchive
  | removeAll

abbrev Answer : Op → Type
  | .fetch _ | .download | .readArchive | .sumNew | .runNew => Except Err Bytes
  | _ => Option Err

/-- What the world decides of an operation: whether it fails, what is served or said, and
how far a write gets. -/
structure Choice where
  err : Option Err := none
  body : Bytes := []
  short : Nat := 0

/-- The working directory, and every binary that was run, with what it said. -/
structure World where
  dir : Bool := false
  archive : Option Bytes := none
  new : Option Bytes := none
  ran : List (Bytes × Option Bytes) := []
  /-- `RemoveAll` failed. -/
  notRemoved : Bool := false

def tooLarge : Err := "over the size limit"

/-- A body that was read up to a limit. -/
def limited (limit : Nat) (c : Choice) : Except Err Bytes :=
  match c.err with
  | some err => .error err
  | none => if limit < c.body.length then .error tooLarge else .ok c.body

/-- An answer that is an error or a value. -/
def answered {α : Type} (c : Choice) (a : α) : Except Err α :=
  match c.err with
  | some err => .error err
  | none => .ok a

section
variable (sha256 : Bytes → Bytes)

/-- `hex.EncodeToString` of a sum. -/
def sumText (bytes : Bytes) : Bytes := (Hex.encode (sha256 bytes)).map fun c => UInt8.ofNat c.toNat

def act (w : World) (o : Op) (c : Choice) : Answer o × World :=
  match o with
  | .fetch limit => (limited limit c, w)
  | .mkdirTemp => (c.err, if c.err.isNone then { w with dir := true } else w)
  | .chmodDir | .closeArchive | .closeNew | .chmodNew => (c.err, w)
  | .createArchive => (c.err, if c.err.isNone then { w with archive := some [] } else w)
  | .download =>
    (limited maxArchiveBytes c, { w with archive := some (c.body.take (maxArchiveBytes + 1)) })
  | .readArchive => (answered c (w.archive.getD []), w)
  | .createNew => (c.err, if c.err.isNone then { w with new := some [] } else w)
  | .writeNew bytes =>
    let wrote := if c.err.isNone then bytes else bytes.take c.short
    (c.err, { w with new := some (w.new.getD [] ++ wrote) })
  | .sumNew => (answered c (sumText sha256 (w.new.getD [])), w)
  | .runNew =>
    let said := if c.err.isNone then some c.body else none
    (answered c c.body, { w with ran := (w.new.getD [], said) :: w.ran })
  | .removeArchive => (c.err, if c.err.isNone then { w with archive := none } else w)
  | .removeAll =>
    (c.err, if c.err.isNone then { w with dir := false, archive := none, new := none }
      else { w with notRemoved := true })

def sem : Sem Answer World Choice := fun w o c => some (act sha256 w o c)

end

/-! ### The program -/

abbrev Steps (α : Type) : Type := Prog Answer α

inductive Failure where
  | gate
  | noRelease (goos goarch : String)
  | notAVersion (tag : Bytes)
  | noChecksums (err : Err)
  | noSignature (err : Err)
  | unverified
  | noChecksum (name : String)
  | noDir (err : Err)
  | plain (err : Err)
  | mismatch (name : String)
  | unreadable (err : Err)
  | notHeld (name : String)
  | notRegular (name : String)
  | tooLarge
  | didNotRun (err : Err)
  | reports (said tag : Bytes)
deriving DecidableEq

/-- The text of the error; `quote` is a text as `%q` writes it, `plainly` as `%s` does. -/
def Failure.text (quote plainly : Bytes → String) : Failure → String
  | .gate =>
    "signature verification required: this build has no release signing key, so it cannot " ++
      "verify a release and will not install one. `local-base upgrade --check` still works. " ++
      "To update now, use the installer: scripts/install.sh"
  | .noRelease goos goarch => "there is no release for " ++ goos ++ "/" ++ goarch
  | .notAVersion tag => quote tag ++ " is not a release version"
  | .noChecksums err | .plain err => err
  | .noSignature err => "the release has no signature to verify: " ++ err
  | .unverified => "the release's signature did not verify against any trusted key"
  | .noChecksum name => "checksums.txt has no checksum for " ++ name
  | .noDir err => "could not write beside the binary: " ++ err
  | .mismatch name => name ++ " does not match its checksum"
  | .unreadable err => "the archive could not be read: " ++ err
  | .notHeld name => "the archive does not hold " ++ name
  | .notRegular name => name ++ " in the archive is not a regular file"
  | .tooLarge => "the binary is over the size limit"
  | .didNotRun err => "the downloaded binary did not run: " ++ err
  | .reports said tag => "the downloaded binary reports " ++ quote said ++ ", not " ++ plainly tag

/-- A verified binary, ready to swap in. -/
structure Candidate where
  version : Bytes
  sum : Bytes
  keyID : Bytes

structure Options where
  tag : Bytes
  goos : String
  goarch : String
  keys : List Key

/-- An entry's plain name; a name with a directory in it is none. -/
def archiveName (name : Bytes) : Bytes :=
  let plain := if (text "./").isPrefixOf name then name.drop 2 else name
  if 47 ∈ plain ∨ 92 ∈ plain then [] else plain

def findEntry (a : Archive) (name : String) : Option Entry :=
  a.entries.find? fun e => archiveName e.name = text name

/-- What is copied, until the limit or an error of the archive. -/
def writeBinary (e : Entry) : Steps (Option Failure) := do
  match ← perform Op.createNew with
  | some err => return some (.plain err)
  | none =>
    let wrote ← perform (Op.writeNew (e.body.take (maxBinaryBytes + 1)))
    let copied := wrote.or (if e.body.length ≤ maxBinaryBytes then e.broken else none)
    let closed ← perform Op.closeNew
    match copied.or closed with
    | some err => return some (.plain err)
    | none =>
      if maxBinaryBytes < e.body.length then return some .tooLarge
      else
        let kept ← perform Op.chmodNew
        return kept.map .plain

/-- `extractTarGz` and `extractZip`. -/
def extract (a : Archive) (name : String) : Steps (Option Failure) :=
  match findEntry a name with
  | some e =>
    if ¬ e.regular then pure (some (.notRegular name))
    else match e.opens with
      | some err => pure (some (.plain err))
      | none => writeBinary e
  | none => match a.broken with
      | some err => pure (some (.unreadable err))
      | none => pure (some (.notHeld name))

section
variable (sha256 : Bytes → Bytes) (read : Bytes → Archive) (ed25519 : Bytes → Bytes → Bytes → Bool)

/-- Once the binary is there: it is run for its version. -/
def tryRun (o : Options) (want : Version) (key : Key) : Steps (Except Failure Candidate) := do
  match ← perform Op.sumNew with
  | .error err => return .error (.plain err)
  | .ok sum =>
    match ← perform Op.runNew with
    | .error err => return .error (.didNotRun err)
    | .ok out =>
      let said := trimSpace out
      if parseVersion (trimSpace said) = some want then
        let _ ← perform Op.removeArchive
        return .ok ⟨o.tag.drop 1, sum, key.id⟩
      else return .error (.reports said o.tag)

/-- What is done in the working directory. -/
def build (o : Options) (want : Version) (archive binary : String) (wantSum : Bytes) (key : Key) :
    Steps (Except Failure Candidate) := do
  match ← perform Op.createArchive with
  | some err => return .error (.plain err)
  | none =>
    let got ← perform Op.download
    let closed ← perform Op.closeArchive
    match got, closed with
    | .error err, _ => return .error (.plain err)
    | .ok _, some err => return .error (.plain err)
    | .ok bytes, none =>
      if sumText sha256 bytes ≠ wantSum then return .error (.mismatch archive)
      else
        match ← perform Op.readArchive with
        | .error err => return .error (.unreadable err)
        | .ok bytes =>
          match ← extract (read bytes) binary with
          | some failure => return .error failure
          | none => tryRun o want key

/-- Nothing is left behind by what refuses. -/
def orRemove (c : Except Failure Candidate) : Steps (Except Failure Candidate) :=
  match c with
  | .ok c => pure (.ok c)
  | .error failure => do
      let _ ← perform Op.removeAll
      return .error failure

/-- What is done once the checksums are verified. -/
def prepareIn (o : Options) (want : Version) (archive binary : String) (wantSum : Bytes)
    (key : Key) : Steps (Except Failure Candidate) := do
  match ← perform Op.mkdirTemp with
  | some err => return .error (.noDir err)
  | none =>
    match ← perform Op.chmodDir with
    | some err => orRemove (.error (.plain err))
    | none =>
      let c ← build sha256 read o want archive binary wantSum key
      orRemove c

def prepare (o : Options) : Steps (Except Failure Candidate) :=
  if ¬ ready o.keys then pure (.error .gate)
  else match assetArchive o.goos o.goarch, assetBinary o.goos o.goarch, parseTag o.tag with
    | some archive, some binary, some want => do
        match ← perform (Op.fetch maxChecksumBytes) with
        | .error err => return .error (.noChecksums err)
        | .ok checksums =>
          match ← perform (Op.fetch maxSignatureBytes) with
          | .error err => return .error (.noSignature err)
          | .ok sig =>
            match verifySignature ed25519 checksums sig o.keys with
            | none => return .error .unverified
            | some key =>
              match findChecksum checksums (text archive) with
              | none => return .error (.noChecksum archive)
              | some wantSum => prepareIn sha256 read o want archive binary wantSum key
    | some _, some _, none => pure (.error (.notAVersion o.tag))
    | _, _, _ => pure (.error (.noRelease o.goos o.goarch))

/-- How `local-base upgrade` comes to prepare a release, or does not. -/
inductive Refusal where
  | notARelease
  | kept (why : Kept)
  | failed (failure : Failure)
deriving DecidableEq

/-- From the tag on, up to what is to be swapped in. -/
def upgrade (current : Bytes) (allowDowngrade : Bool) (o : Options) :
    Steps (Except Refusal Candidate) :=
  if ¬ (compare (text "0.0.0") o.tag).known then pure (.error .notARelease)
  else match decideVersion current (o.tag.drop 1) allowDowngrade with
    | some why => pure (.error (.kept why))
    | none => do
        match ← prepare sha256 read ed25519 o with
        | .error failure => return .error (.failed failure)
        | .ok c => return .ok c

end

end LocalBase.Upgrade.Release
