import LocalBase.Auth.Keys
import LocalBase.Auth.Users

/-!
# The lockout guard

A snapshot of the policy and the people, which the rules against locking everyone
out of access management read. Keys that may manage access count beside people.
-/

namespace LocalBase.Auth

open Records

/-! ## The configuration -/

inductive Registration
  | oidc (issuer : String)
  | magicLink
  | github

inductive Provider
  | cloudflareAccess (teamDomain : String)
  | direct (registrations : List Registration)

/-- What `Validate` says of an issuer. -/
def Registration.valid (t : Texts) : Registration → Bool
  | .oidc issuer => t.isIssuer issuer
  | _ => true

def Provider.valid (t : Texts) : Provider → Bool
  | .cloudflareAccess _ => true
  | .direct registrations => registrations.all (Registration.valid t)

/-- A configuration that has been validated. -/
structure BrowserAccess (t : Texts) where
  provider : Provider
  origin : String
  permissions : List String
  valid : provider.valid t = true
  known : ∀ p ∈ permissions, p ∈ Auth.permissions

/-- `MagicIssuer`. -/
def magicIssuer (origin : String) : String := origin ++ "/magic-link"

/-- `Issuers`. No configuration has none. -/
def BrowserAccess.issuers {t : Texts} : Option (BrowserAccess t) → List String
  | none => []
  | some b =>
    let out : List String :=
      match b.provider with
      | .cloudflareAccess teamDomain => ["https://" ++ teamDomain]
      | .direct registrations =>
        registrations.filterMap fun
          | .oidc issuer => some issuer
          | .magicLink => some (magicIssuer b.origin)
          | .github => none
    (out.insertionSort (· ≤ ·)).destutter (· ≠ ·)

/-- What a provider gives where there is no policy. -/
def BrowserAccess.wide {t : Texts} (cfg : Option (BrowserAccess t)) : List String :=
  (cfg.map BrowserAccess.permissions).getD []

/-! ## The snapshot -/

structure GuardUser where
  id : String
  email : String
  status : UserStatus
  /-- Names. -/
  roles : List String
  /-- The provider that can claim this record, or "". -/
  issuer : String
  identities : List (String × String)
deriving DecidableEq

structure Guard where
  policy : Option Policy
  users : List GuardUser
  providerPerms : List String
  issuers : List String
  /-- The active keys that may manage access. -/
  keyManagers : List String
deriving DecidableEq

/-- Neither revoked nor expired at `now`. -/
def activeKey (now : Int) (k : ApiKey) : Bool :=
  k.revokedAt.isNone &&
    k.expiresAt.all fun e => e.reads.any fun expires => now < expires

namespace AuthDb

def guardUser (t : Texts) (db : AuthDb) (u : AuthUser) : GuardUser where
  id := u.id
  email := t.toLower u.email
  status := u.status
  roles := (u.roles.filterMap fun id => (db.role id).map AuthRole.name).insertionSort (· ≤ ·)
  issuer := u.invitedBy.getD ""
  identities := u.identities

/-- `LoadGuard`. Removed people too: a sign-in stays refused for them. -/
def loadGuard {t : Texts} (cfg : Option (BrowserAccess t)) (keys : List ApiKey) (now : Int)
    (db : AuthDb) : Guard where
  policy := db.loadPolicy
  users := db.users.map (db.guardUser t)
  providerPerms := BrowserAccess.wide cfg
  issuers := BrowserAccess.issuers cfg
  keyManagers :=
    (keys.filter fun k => activeKey now k && "access:manage" ∈ k.scopes).map ApiKey.id

end AuthDb

def Policy.rolePerms (p : Policy) (name : String) : List String :=
  ((p.roles.find? fun r => r.name = name).map Role.permissions).getD []

def Policy.roleManages (p : Policy) (name : String) : Bool := "access:manage" ∈ p.rolePerms name

/-- A binding that names this identity. -/
def Binding.matches (t : Texts) (id : Identity) (b : Binding) : Bool :=
  let email := t.toLower id.verifiedEmail
  match b.kind with
  | .subject => b.issuer = id.issuer && b.subject = id.subject
  | .email => email ≠ "" && b.email = email && b.issuer = id.issuer
  | .emailDomain => domainOf email = some b.domain && b.issuer = id.issuer
  | .other _ => false

namespace Guard

variable (t : Texts)

def user (g : Guard) (email : String) : Option GuardUser :=
  g.users.find? fun u => u.email = t.toLower email

/-- The person an identity signs in as: the one it is linked to, else an invitation
for its address from the provider it was made for. A refused address counts whichever
provider vouches for it. -/
def linked (g : Guard) (id : Identity) : Option GuardUser :=
  match g.users.find? fun u => (id.issuer, id.subject) ∈ u.identities with
  | some u => some u
  | none =>
    if id.verifiedEmail ≠ "" then
      (g.user t id.verifiedEmail).filter fun u => u.status.refused || u.issuer = id.issuer
    else none

/-- `CanManage`. -/
def canManage (g : Guard) (id : Identity) : Bool :=
  if id.issuer ∉ g.issuers then false
  else
    match g.policy with
    | none => "access:manage" ∈ g.providerPerms
    | some p =>
      let u := g.linked t id
      if u.any fun u => u.status.refused then false
      else
        p.defaultRole.any p.roleManages ||
          (p.bindings.any fun b => p.roleManages b.role && b.matches t id) ||
          u.any fun u => u.roles.any p.roleManages

/-- `canSignIn`: a configured provider can reach this person. -/
def canSignIn (g : Guard) (u : GuardUser) : Bool :=
  u.issuer ∈ g.issuers || u.identities.any fun l => l.1 ∈ g.issuers

/-- `HasManager`. -/
def hasManager (g : Guard) : Bool :=
  if g.keyManagers ≠ [] then true
  else if g.issuers = [] then false
  else
    match g.policy with
    | none => "access:manage" ∈ g.providerPerms
    | some p =>
      let blocked (u : Option GuardUser) : Bool := u.any fun u => u.status.refused
      p.defaultRole.any p.roleManages ||
        (p.bindings.any fun b => p.roleManages b.role && b.issuer ∈ g.issuers &&
          match b.kind with
          | .emailDomain => true
          | .email => !blocked (g.user t b.email)
          | .subject => !blocked (g.linked t { issuer := b.issuer, subject := b.subject })
          | .other _ => false) ||
        g.users.any fun u => !blocked (some u) && g.canSignIn u && u.roles.any p.roleManages

end Guard

end LocalBase.Auth
