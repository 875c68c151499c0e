import Mathlib.Algebra.Order.Ring.Nat
import Mathlib.Tactic.Common

/-!
# Auth profiles

A profile is a set of request headers, scoped to origins. The file is read as
it is written, and a profile is used only if it passes its checks, which put its
origins into the form that a request's is compared in. The huggingface profile
names origins that the Hugging Face token may reach as well, so it can only name
Hugging Face's own.
-/

namespace LocalBase.Credentials

/-! ## Text -/

/-- A character of a string, or a byte that is part of none. -/
inductive Rune where
  | char (c : Char)
  | invalid (b : UInt8)
deriving DecidableEq

abbrev Text : Type := List Rune

instance textLawful : LawfulBEq Text := inferInstance

def text (s : String) : Text := s.toList.map .char

def asciiLowerChar (c : Char) : Char :=
  if 'A' ≤ c ∧ c ≤ 'Z' then Char.ofNat (c.toNat + 32) else c

def asciiLower : Rune → Rune
  | .char c => .char (asciiLowerChar c)
  | .invalid b => .invalid b

/-- The parts of a URL that are looked at: its scheme, and its host and port. -/
structure Parsed where
  scheme : Text
  host : Text

/-- What is used of Go's library and not embedded: the table of lower-case
letters, and `url.Parse`. -/
structure Go where
  lower : Char → Char
  lower_ascii : ∀ c, c.toNat < 128 → lower c = asciiLowerChar c
  lower_lower : ∀ c, lower (lower c) = lower c
  lower_replacement : lower (Char.ofNat 0xFFFD) = Char.ofNat 0xFFFD
  parse : Text → Option Parsed

def Go.lowerRune (go : Go) : Rune → Rune
  | .char c => .char (go.lower c)
  | .invalid _ => .char (Char.ofNat 0xFFFD)

/-- `strings.ToLower`. -/
def Go.toLower (go : Go) (t : Text) : Text := t.map go.lowerRune

def trimSuffix (t tail : Text) : Text :=
  if tail.isSuffixOf t then t.take (t.length - tail.length) else t

def trimRight (t : Text) (r : Rune) : Text := (t.reverse.dropWhile (· = r)).reverse

def byteLength (t : Text) : Nat :=
  (t.map fun
    | .char c => c.utf8Size
    | .invalid _ => 1).sum

def isChar (p : Char → Bool) : Rune → Bool
  | .char c => p c
  | .invalid _ => false

def isLowerAlnum (c : Char) : Bool := ('a' ≤ c && c ≤ 'z') || c.isDigit

/-! ## Headers -/

def isHeaderChar (c : Char) : Bool := c.isAlphanum || c ∈ "!#$%&'*+.^_`|~-".toList

def upperChar (c : Char) : Char :=
  if 'a' ≤ c ∧ c ≤ 'z' then Char.ofNat (c.toNat - 32) else c

/-- Upper case at the front of each word, and lower case in it. -/
def titleCase : Bool → Text → Text
  | _, [] => []
  | front, .char c :: rest =>
    .char (if front then upperChar c else asciiLowerChar c) :: titleCase (c = '-') rest
  | _, r :: rest => r :: titleCase false rest

/-- `http.CanonicalHeaderKey`. -/
def canonicalKey (name : Text) : Text :=
  if name.all (isChar isHeaderChar) then titleCase true name else name

/-- Headers that frame the transfer, and belong to the downloader. -/
def reserved : List Text :=
  ["Range", "If-Range", "Host", "Content-Length", "Transfer-Encoding", "Connection",
    "Accept-Encoding", "Te", "Trailer", "Upgrade", "Proxy-Authorization", "Proxy-Connection",
    "Keep-Alive"].map text

/-! ## Origins -/

structure Profile where
  id : Text
  origins : List Text
  headers : List (Text × Text)

def hfProfileID : Text := text "huggingface"

/-- `HFEndpoint`, from `HF_ENDPOINT`. -/
def hfEndpoint (env : Text) : Text :=
  if trimRight env (.char '/') ≠ [] then trimRight env (.char '/')
  else text "https://huggingface.co"

/-- The `scheme://host[:port]` of an http(s) URL. -/
def Go.origin (go : Go) (raw : Text) : Option Text :=
  (go.parse raw).bind fun u =>
    if (u.scheme = text "https" ∨ u.scheme = text "http") ∧ u.host ≠ [] then
      some (u.scheme ++ text "://" ++ go.toLower u.host)
    else none

/-- The origin `HF_ENDPOINT` names. -/
def Go.hfEndpointOrigin (go : Go) (env : Text) : Text := (go.origin (hfEndpoint env)).getD []

/-- A label of a host: lower-case ASCII, and a hyphen only inside it. -/
def lowerASCIILabel (label : Text) : Bool :=
  label.all (isChar fun c => isLowerAlnum c || c = '-') &&
    label.head?.any (isChar isLowerAlnum) && label.getLast?.any (isChar isLowerAlnum)

def lowerASCIIHost (host : Text) : Bool := (host.splitOn (.char '.')).all lowerASCIILabel

def hfOwnHosts : List Text := [text "huggingface.co", text "hf.co"]

/-- One of Hugging Face's own hosts. -/
def hfOwnHost (host : Text) : Bool :=
  lowerASCIIHost host &&
    hfOwnHosts.any fun own => host = own || (text "." ++ own).isSuffixOf host

/-- Whether the huggingface profile may name an origin. -/
def Go.hfOwnOrigin (go : Go) (origin endpoint : Text) : Bool :=
  let origin := trimSuffix origin (text "/")
  if endpoint ≠ [] ∧ origin = endpoint then true
  else
    match go.parse origin with
    | none => false
    | some u => origin = text "https://" ++ u.host && hfOwnHost u.host

/-! ## Checks -/

inductive Problem where
  | id (id : Text)
  | noOrigins
  | notOwn (origin : Text)
  | origin (origin : Text)
  | noHeaders
  | headerName (name : Text)
  | reservedHeader (canon : Text)
  | headerValue (canon : Text)
deriving DecidableEq

def profileID (id : Text) : Bool :=
  id.head?.any (isChar isLowerAlnum) && id.length ≤ 64 &&
    id.all (isChar fun c => isLowerAlnum c || c = '.' || c = '_' || c = '-')

def headerName (name : Text) : Bool :=
  name ≠ [] && name.length ≤ 128 && name.all (isChar isHeaderChar)

/-- The origins of a profile, in the form that they are compared in. -/
def Go.checkOrigins (go : Go) (own : Bool) (endpoint : Text) :
    List Text → Except Problem (List Text)
  | [] => .ok []
  | o :: rest =>
    if own && !go.hfOwnOrigin o endpoint then .error (.notOwn o)
    else
      match go.origin o with
      | none => .error (.origin o)
      | some norm =>
        if trimSuffix (go.toLower o) (text "/") ≠ norm then .error (.origin o)
        else (go.checkOrigins own endpoint rest).map fun norms => norm :: norms

def checkHeaders : List (Text × Text) → Except Problem Unit
  | [] => .ok ()
  | (name, value) :: rest =>
    if !headerName name then .error (.headerName name)
    else if canonicalKey name ∈ reserved then .error (.reservedHeader (canonicalKey name))
    else if value = [] ∨ value.any (isChar fun c => c = '\r' || c = '\n' || c.toNat = 0) ∨
        byteLength value > 16384 then
      .error (.headerValue (canonicalKey name))
    else checkHeaders rest

/-- `validate`, and what it leaves of the profile. -/
def Go.validate (go : Go) (p : Profile) (endpoint : Text) : Except Problem Profile :=
  if !profileID p.id then .error (.id p.id)
  else if p.origins = [] then .error .noOrigins
  else
    (go.checkOrigins (p.id = hfProfileID) endpoint p.origins).bind fun norms =>
      if p.headers = [] ∧ p.id ≠ hfProfileID then .error .noHeaders
      else (checkHeaders p.headers).map fun _ => { p with origins := norms }

/-! ## The file -/

/-- What is in use of the file, what of the huggingface profile was left out,
and what was kept out of use. -/
structure Profiles where
  profiles : List Profile := []
  warnings : List Text := []
  invalid : List (Text × Problem) := []

/-- Only the origins the profile can name. -/
def Go.keepOwn (go : Go) (endpoint : Text) (p : Profile) : Profile :=
  if p.id = hfProfileID then
    { p with origins := p.origins.filter fun o => go.hfOwnOrigin o endpoint }
  else p

def Go.leftOut (go : Go) (endpoint : Text) (p : Profile) : List Text :=
  if p.id = hfProfileID then p.origins.filter fun o => !go.hfOwnOrigin o endpoint else []

def Go.loadProfile (go : Go) (endpoint : Text) (ps : Profiles) (p : Profile) : Profiles :=
  let ps := { ps with warnings := ps.warnings ++ go.leftOut endpoint p }
  let p := go.keepOwn endpoint p
  if p.id = hfProfileID ∧ p.origins = [] then ps
  else
    match go.validate p endpoint with
    | .error why => { ps with invalid := ps.invalid ++ [(p.id, why)] }
    | .ok p => { ps with profiles := ps.profiles ++ [p] }

/-- `LoadProfiles`, of what the file has. -/
def Go.loadProfiles (go : Go) (env : Text) (file : List Profile) : Profiles :=
  file.foldl (go.loadProfile (go.hfEndpointOrigin env)) {}

def Profiles.get (ps : Profiles) (id : Text) : Option Profile :=
  ps.profiles.find? fun p => p.id = id

/-- The origins the huggingface profile adds for the token. -/
def Go.hfTokenOrigins (go : Go) (env : Text) (file : List Profile) : List Text :=
  (((go.loadProfiles env file).get hfProfileID).map (·.origins)).getD []

end LocalBase.Credentials
