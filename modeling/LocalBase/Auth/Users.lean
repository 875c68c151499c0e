import LocalBase.Auth.Decision

/-!
# The stored policy, and managed people

Applying a policy keeps the id of each role that has a name it had, so who holds it
keeps it, and writes everything else anew. A role that somebody holds cannot go. An
address or a domain is one row, and each provider that vouches for it adds a name.

Rows come back in no particular order: the order in which they are shown is left out.

Somebody is invited by address with roles, through a provider, and is pending until
their first sign-in. A removed record keeps its address and what it is linked to, and
is pending again when it is invited again. Each of these is one transaction.
-/

namespace LocalBase.Auth

open Fuel Records

inductive AuthError
  | access (e : AccessError)
  | invalid (text : String)
  /-- The statement failed. -/
  | statement

namespace AuthDb

/-! ## Loading -/

def nameOf (db : AuthDb) (id : String) : String := ((db.role id).map AuthRole.name).getD ""

/-- `LEFT JOIN go_binding_issuers`, with "" where there is none. -/
def issuersOf (db : AuthDb) (kind : BindingKind) (b : AddressRow) : List String :=
  match (db.bindingIssuers.filter fun i =>
      i.kind = kind && i.role = b.role && i.value = b.value).map IssuerRow.issuer with
  | [] => [""]
  | issuers => issuers

def loadSubject (db : AuthDb) (b : SubjectRow) : Binding where
  kind := .subject
  role := db.nameOf b.role
  issuer := b.issuer
  subject := b.subject

def loadEmail (db : AuthDb) (b : AddressRow) (issuer : String) : Binding where
  kind := .email
  role := db.nameOf b.role
  issuer := issuer
  email := b.value

def loadDomain (db : AuthDb) (b : AddressRow) (issuer : String) : Binding where
  kind := .emailDomain
  role := db.nameOf b.role
  issuer := issuer
  domain := b.value

def loadBindings (db : AuthDb) : List Binding :=
  db.subjectBindings.map db.loadSubject ++
  db.emailBindings.flatMap (fun b => (db.issuersOf .email b).map (db.loadEmail b)) ++
  db.domainBindings.flatMap fun b => (db.issuersOf .emailDomain b).map (db.loadDomain b)

/-- `LoadPolicy`: none where no policy is configured. -/
def loadPolicy (db : AuthDb) : Option Policy :=
  db.settings.map fun defaultId =>
    { roles := db.roles.map fun r =>
        { name := r.name, description := r.description, permissions := canonical r.permissions }
      bindings := db.loadBindings
      defaultRole := defaultId.bind fun id => (db.role id).map AuthRole.name }

/-! ## Writing -/

/-- The id a role of the policy has, or gets. -/
def roleId (db : AuthDb) (uuid : String → String) (name : String) : String :=
  match db.roles.find? fun r => r.name = name with
  | some r => r.id
  | none => uuid name

def isNew (db : AuthDb) (r : Role) : Bool := db.roles.all fun q => q.name ≠ r.name

/-- An id that is drawn for a new role is in use: the insert fails. -/
def uuidTaken (db : AuthDb) (uuid : String → String) (p : Policy) : Bool :=
  (p.roles.any fun r => db.isNew r && db.roles.any fun q => q.id = uuid r.name) ||
    ¬ ((p.roles.filter db.isNew).map fun r => uuid r.name).Nodup

/-- A role that the policy drops, and somebody holds. Where there are more, any. -/
def heldElsewhere (db : AuthDb) (p : Policy) : Option AuthRole :=
  db.roles.find? fun r =>
    (p.roles.all fun q => q.name ≠ r.name) && db.users.any fun u => r.id ∈ u.roles

/-- What is left of who holds which role when the others are deleted. -/
def cascade (users : List AuthUser) (roles : List AuthRole) : List AuthUser :=
  users.map fun u => { u with roles := u.roles.filter fun id => roles.any fun r => r.id = id }

/-- A row of `auth_roles` of the policy, with its permissions. -/
def roleRow (db : AuthDb) (uuid : String → String) (r : Role) : AuthRole where
  id := db.roleId uuid r.name
  name := r.name
  description := r.description
  permissions := r.permissions

/-- The binding's row, if it is of the kind. -/
def subjectRow (db : AuthDb) (uuid : String → String) (b : Binding) : Option SubjectRow :=
  if b.kind = .subject then
    some { role := db.roleId uuid b.role, issuer := b.issuer, subject := b.subject }
  else none

def emailRow (db : AuthDb) (uuid : String → String) (b : Binding) : Option AddressRow :=
  if b.kind = .email then some { role := db.roleId uuid b.role, value := b.email } else none

def domainRow (db : AuthDb) (uuid : String → String) (b : Binding) : Option AddressRow :=
  if b.kind = .emailDomain then some { role := db.roleId uuid b.role, value := b.domain } else none

/-- `nameBindingIssuer`. -/
def issuerRow (db : AuthDb) (uuid : String → String) (b : Binding) : Option IssuerRow :=
  if b.issuer = "" then none
  else
    match b.kind with
    | .email =>
      some { kind := b.kind, role := db.roleId uuid b.role, value := b.email, issuer := b.issuer }
    | .emailDomain =>
      some { kind := b.kind, role := db.roleId uuid b.role, value := b.domain, issuer := b.issuer }
    | _ => none

/-- What `ApplyPolicy` leaves, of a normal policy. -/
def writePolicy (db : AuthDb) (uuid : String → String) (p : Policy) : AuthDb where
  settings := some (p.defaultRole.map (db.roleId uuid))
  roles := p.roles.map (db.roleRow uuid)
  subjectBindings := p.bindings.filterMap (db.subjectRow uuid)
  emailBindings := (p.bindings.filterMap (db.emailRow uuid)).dedup
  domainBindings := (p.bindings.filterMap (db.domainRow uuid)).dedup
  bindingIssuers := p.bindings.filterMap (db.issuerRow uuid)
  users := cascade db.users (p.roles.map (db.roleRow uuid))

/-- `ApplyPolicy`, with the ids it draws for new roles. -/
def applyPolicy (t : Texts) (uuid : String → String) (db : AuthDb) (p : Policy) :
    Except AuthError AuthDb :=
  match p.normalize t with
  | .error text => .error (.invalid text)
  | .ok p =>
    if db.uuidTaken uuid p then .error .statement
    else
      match db.heldElsewhere p with
      | some r =>
        .error (.access
          { code := "policy-conflict"
            message := "Cannot remove browser access role " ++ r.name ++
              " while it is assigned to a managed user." })
      | none => .ok (db.writePolicy uuid p)

/-- What `ClearPolicy` leaves. -/
def deletePolicy (db : AuthDb) : AuthDb where
  users := cascade db.users []

/-- `ClearPolicy`: whether there was one, and what it leaves. -/
def clearPolicy (db : AuthDb) : Except AuthError (Bool × AuthDb) :=
  match db.settings with
  | none => .ok (false, db)
  | some _ =>
    if db.users.any fun u => u.status ≠ .removed then
      .error (.access
        { code := "policy-conflict"
          message := "Cannot clear the browser access policy while managed users exist." })
    else .ok (true, db.deletePolicy)

end AuthDb

/-! ## Managed people -/

def managedUserNotFound (email : String) : AuthError :=
  .access
    { code := "managed-user-not-found"
      message := "Managed user " ++ email ++ " was not found." }

/-- `validRoles`, over the names seen so far. -/
def validRoleNames : List String → List String → Bool
  | _, [] => true
  | seen, r :: rs =>
    isRoleName r && r.utf8ByteSize ≤ 64 && r ∉ seen && validRoleNames (r :: seen) rs

def validRoles (roles : List String) : Bool :=
  roles.length ≤ 64 && validRoleNames [] roles

namespace AuthDb

def requirePolicy (db : AuthDb) : Except AuthError Unit :=
  match db.settings with
  | some _ => .ok ()
  | none =>
    .error (.access
      { code := "policy-not-configured"
        message := "Configure a browser access policy first." })

def roleByName (db : AuthDb) (name : String) : Option AuthRole := get AuthRole.name db.roles name

/-- `roleIDs`, in the order of the names. -/
def roleIds (db : AuthDb) (names : List String) : Except AuthError (List String) :=
  match names.filter fun n => (db.roleByName n).isNone with
  | [] => .ok (names.filterMap fun n => (db.roleByName n).map AuthRole.id)
  | missing =>
    .error (.access
      { code := "role-not-found"
        message := "Unknown browser access role: " ++ joinComma missing ++ "." })

/-- Names the provider of an invitation, where there is one. -/
def invitation (issuer : String) : Option String := if issuer = "" then none else some issuer

/-- `InviteUser`, with the id it draws for a new person. -/
def inviteUser (t : Texts) (uuid : String) (db : AuthDb) (email : String) (roles : List String)
    (issuer : String) : Except AuthError AuthDb :=
  let email := t.validEmail email
  if email = "" ∨ roles.length = 0 ∨ ¬ validRoles roles then .error (.invalid "validation_failed")
  else do
    db.requirePolicy
    let ids ← db.roleIds roles
    match db.userByEmail email with
    | some u =>
      if u.status ≠ .removed then
        .error (.access
          { code := "managed-user-exists"
            message := "Managed user " ++ email ++ " already exists." })
      else
        .ok (db.updateUser u.id fun u =>
          { u with status := .pending, roles := ids, invitedBy := invitation issuer })
    | none =>
      if db.users.any fun u => u.id = uuid then .error .statement
      else
        .ok { db with
          users := db.users ++ [
            { id := uuid
              email := email
              status := .pending
              roles := ids
              invitedBy := invitation issuer }] }

/-- The record of an address, unless it is removed. -/
def managedUser (db : AuthDb) (email : String) : Except AuthError AuthUser :=
  match db.userByEmail email with
  | none => .error (managedUserNotFound email)
  | some u => if u.status = .removed then .error (managedUserNotFound email) else .ok u

/-- `ReplaceUserRoles`. -/
def replaceUserRoles (t : Texts) (db : AuthDb) (email : String) (roles : List String) :
    Except AuthError AuthDb :=
  let email := t.validEmail email
  if email = "" ∨ ¬ validRoles roles then .error (.invalid "validation_failed")
  else do
    db.requirePolicy
    let u ← db.managedUser email
    let ids ← db.roleIds roles
    return db.updateUser u.id fun u => { u with roles := ids }

/-- `SetUserStatus`. -/
def setUserStatus (t : Texts) (db : AuthDb) (email : String) (status : UserStatus) :
    Except AuthError AuthDb :=
  let email := t.validEmail email
  if email = "" then .error (.invalid "validation_failed")
  else do
    let u ← db.managedUser email
    return db.setStatus u.id status

/-- `RemoveUser`. -/
def removeUser (t : Texts) (db : AuthDb) (email : String) : Except AuthError AuthDb :=
  let email := t.validEmail email
  if email = "" then .error (.invalid "validation_failed")
  else do
    let u ← db.managedUser email
    return db.updateUser u.id fun u =>
      { u with status := .removed, roles := [], invitedBy := none }

end AuthDb

end LocalBase.Auth
