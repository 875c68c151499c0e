import LocalBase.Lib.Shell
import Mathlib.Algebra.Order.Ring.Nat

/-!
# Putting secrets back

A backup without its secrets names the commands that put them back. They are built from
fields of the file, which is input from someone else: each has to pass the rule of the
command it goes into, and is quoted for a shell.
-/

namespace LocalBase.Backup

open Shell (Text quoted)

/-! ## The rules -/

def isLowerAlnum (c : Char) : Bool := ('a' ≤ c && c ≤ 'z') || ('0' ≤ c && c ≤ '9')

def isAlnum (c : Char) : Bool := isLowerAlnum c || ('A' ≤ c && c ≤ 'Z')

/-- `registrationIDRe`. -/
def registrationID : Text → Bool
  | [] => false
  | c :: rest =>
    isLowerAlnum c && (rest = [] ||
      rest.length ≤ 63 && rest.dropLast.all (fun c => isLowerAlnum c || c = '-') &&
        (rest.getLast?.any isLowerAlnum))

/-- `profileIDRe`. -/
def profileID : Text → Bool
  | [] => false
  | c :: rest =>
    isLowerAlnum c && rest.length ≤ 63 &&
      rest.all fun c => isLowerAlnum c || "._-".toList.contains c

def isHeaderChar (c : Char) : Bool :=
  isAlnum c || "!#$%&*+.^_\x60|~-".toList.contains c || c = Shell.quoteMark

/-- `headerNameRe`. -/
def headerName (s : Text) : Bool := s ≠ [] && s.length ≤ 128 && s.all isHeaderChar

def isShellPlain (c : Char) : Bool := isAlnum c || "._:/@%+=,-".toList.contains c

/-- `shellPlain`: what needs no quoting. -/
def shellPlain (s : Text) : Bool := s ≠ [] && s.all isShellPlain

def byteLength (s : Text) : Nat := (s.map Char.utf8Size).sum

/-- `plainText`: printable ASCII, and not too long. -/
def plainText (s : Text) (max : Nat) : Bool :=
  byteLength s ≤ max && s.all fun c => 0x20 ≤ c.toNat && c.toNat ≤ 0x7e

/-- A control character of ASCII. -/
def isControl (c : Char) : Bool := c.toNat < 0x20 || c.toNat = 0x7f

/-- The parts of a URL that are looked at. -/
structure ParsedURL where
  scheme : Text
  host : Text
  hasUser : Bool
  rawQuery : Text
  fragment : Text

/-- `url.Parse`: it takes no control character in what is before the first `#`, and finds
the host there. -/
structure URLs where
  parse : Text → Option ParsedURL
  noControl : ∀ s u, parse s = some u → (s.takeWhile (· ≠ '#')).all (! isControl ·)
  host_before : ∀ s u, parse s = some u → '#' ∉ u.host

def httpsScheme : Text := "https".toList

def URLs.validOrigin (urls : URLs) (o : Text) : Bool :=
  match urls.parse o with
  | none => false
  | some u =>
    u.scheme = httpsScheme && u.host ≠ [] && !u.hasUser && "https://".toList ++ u.host = o

def URLs.validIssuer (urls : URLs) (v : Text) : Bool :=
  match urls.parse v with
  | none => false
  | some u =>
    u.scheme = httpsScheme && u.host ≠ [] && !u.hasUser && u.rawQuery = [] &&
      u.fragment = [] && !v.contains '?' && !v.contains '#'

/-! ## The command -/

/-- `shellArg`. -/
def shellArg (s : Text) : Text := if shellPlain s then s else quoted s

def option (name : String) (value : Text) : Text :=
  "--".toList ++ name.toList ++ "=".toList ++ shellArg value

/-- A part of a command: text, or a placeholder that a person replaces. -/
inductive Piece where
  | text (s : Text)
  | placeholder (name : String)

abbrev Template := List Piece

def lit (s : String) : Piece := .text s.toList

/-- The command as it is printed. -/
def printed : Template → Text
  | [] => []
  | .text s :: t => s ++ printed t
  | .placeholder name :: t => "<".toList ++ name.toList ++ ">".toList ++ printed t

/-- The command with its placeholders replaced. -/
def filled : Template → (Nat → Text) → Text
  | [], _ => []
  | .text s :: t, fill => s ++ filled t fill
  | .placeholder _ :: t, fill => fill 0 ++ filled t fun n => fill (n + 1)

structure RemovedSecret where
  kind : String
  id : Text
  label : Text
  issuer : Text
  clientID : Text
  origins : List Text
  headers : List Text

def kindHFToken : String := "hf-token"
def kindOTLPHeaders : String := "otel-headers"
def kindOIDC : String := "oidc"
def kindGitHub : String := "github"
def kindSMTP : String := "smtp"
def kindDownload : String := "download"

def originOption (o : Text) : Template := [.text (option "origin" o)]

def headerOption (h : Text) : Template :=
  [.text (option "header-env" h ++ "=".toList), .placeholder "ENVIRONMENT_VARIABLE"]

/-- `putBackCommand`. With `check` every field has to pass its rule. -/
def putBackCommand (urls : URLs) (r : RemovedSecret) (check : Bool) : Option Template :=
  let ok := fun valid : Bool => valid || !check
  if r.kind = kindHFToken then
    some [lit "local-base configure --hf-token ", .placeholder "token"]
  else if r.kind = kindOTLPHeaders then
    some [lit "local-base configure --otel-headers ", .placeholder "key=value,..."]
  else if r.kind = kindSMTP then some [lit "local-base access email configure"]
  else if r.kind = kindGitHub then
    if !ok (registrationID r.id) then none
    else some [lit "local-base access github-oauth add ", .text (option "id" r.id)]
  else if r.kind = kindOIDC then
    if !ok (registrationID r.id && plainText r.label 100 && urls.validIssuer r.issuer &&
        plainText r.clientID 256 && r.clientID ≠ [] &&
        !r.clientID.any fun c => c = ' ' || c = '\t') then none
    else
      some [lit "local-base access oidc add ", .text (option "id" r.id), lit " ",
        .text (option "name" r.label), lit " ", .text (option "issuer" r.issuer), lit " ",
        .text (option "client-id" r.clientID), lit " --client-secret-env ",
        .placeholder "ENVIRONMENT_VARIABLE"]
  else if r.kind = kindDownload then
    if !ok (profileID r.id) then none
    else if !r.origins.all fun o => ok (urls.validOrigin o) then none
    else if !r.headers.all fun h => ok (headerName h) then none
    else
      some ([lit " "].intercalate
        ([lit "local-base auth-profiles add ", .text (option "id" r.id)] ::
          (r.origins.map originOption ++ r.headers.map headerOption)))
  else none

end LocalBase.Backup
