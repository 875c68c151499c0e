import LocalBase.Auth.Policy

/-!
# The access tables, and what a sign-in resolves to

The rows about one role are a record, and so are those about one person: every one
of these tables has the role's or the person's id as its key. What a person is
linked to is unique among all people. The bindings keep their own tables, and what
vouches for them another.

`ResolvePolicy` looks first without writing. Only a sign-in with something to
claim goes round again, and then links the identity to the record it was invited
to, or makes a pending record active. With no policy it answers nothing, and the
permissions of the provider apply.
-/

namespace LocalBase.Auth

open Records

inductive UserStatus
  | pending
  | active
  | disabled
  | removed
deriving DecidableEq

/-- A person no sign-in may act as. -/
def UserStatus.refused (s : UserStatus) : Bool := s ≠ .active && s ≠ .pending

/-- `auth_roles`, `auth_role_permissions`. -/
structure AuthRole where
  id : String
  name : String
  description : String
  permissions : List String
deriving DecidableEq

/-- Links are told apart as pairs. -/
instance linkLawful : LawfulBEq (String × String) := inferInstance

/-- `auth_users`, `auth_user_emails`, `auth_user_roles`, `auth_identities` and
`go_invitation_issuers`. -/
structure AuthUser where
  id : String
  email : String
  status : UserStatus
  /-- Ids. -/
  roles : List String
  /-- Issuer, subject. -/
  identities : List (String × String) := []
  invitedBy : Option String := none
deriving DecidableEq

/-- `auth_subject_role_bindings`. -/
structure SubjectRow where
  role : String
  issuer : String
  subject : String
deriving DecidableEq

/-- `auth_email_role_bindings`, `auth_domain_role_bindings`. -/
structure AddressRow where
  role : String
  value : String
deriving DecidableEq

/-- `go_binding_issuers`. -/
structure IssuerRow where
  kind : BindingKind
  role : String
  value : String
  issuer : String
deriving DecidableEq

structure AuthDb where
  /-- The default role, where there is a row of `auth_settings`. -/
  settings : Option (Option String) := none
  roles : List AuthRole := []
  subjectBindings : List SubjectRow := []
  emailBindings : List AddressRow := []
  domainBindings : List AddressRow := []
  bindingIssuers : List IssuerRow := []
  users : List AuthUser := []
deriving DecidableEq

namespace AuthDb

def role (db : AuthDb) (id : String) : Option AuthRole := get AuthRole.id db.roles id

def userByEmail (db : AuthDb) (email : String) : Option AuthUser :=
  get AuthUser.email db.users email

/-- `UPDATE` on the rows about one person. -/
def updateUser (db : AuthDb) (id : String) (f : AuthUser → AuthUser) : AuthDb :=
  { db with users := modify AuthUser.id db.users id f }

def HasRole (db : AuthDb) (id : String) : Prop := ∃ r ∈ db.roles, r.id = id

/-- The keys of the policy's tables, and what is written to them. -/
structure PolicyFormed (t : Texts) (db : AuthDb) : Prop where
  roleId : Keyed AuthRole.id db.roles
  roleName : Keyed AuthRole.name db.roles
  named : ∀ r ∈ db.roles, r.name ≠ ""
  default : ∀ id, db.settings = some (some id) → db.HasRole id
  subject : ∀ b ∈ db.subjectBindings, db.HasRole b.role ∧ b.issuer ≠ "" ∧ b.subject ≠ ""
  email : ∀ b ∈ db.emailBindings, db.HasRole b.role ∧ t.Lowered b.value ∧ b.value ≠ ""
  domain : ∀ b ∈ db.domainBindings,
    db.HasRole b.role ∧ t.Lowered b.value ∧ isDomain b.value = true
  issuer : ∀ i ∈ db.bindingIssuers, i.issuer ≠ ""

end AuthDb

/-- The keys of the people's tables, and what is written to them. -/
structure PeopleFormed (t : Texts) (users : List AuthUser) : Prop where
  id : Keyed AuthUser.id users
  email : Keyed AuthUser.email users
  identity : ∀ u ∈ users, ∀ v ∈ users, ∀ l ∈ u.identities, l ∈ v.identities → u = v
  address : ∀ u ∈ users, t.Lowered u.email ∧ u.email ≠ ""
  invited : ∀ u ∈ users, u.invitedBy ≠ some ""

/-- What the schema and every writer of these tables keep. -/
structure AuthDb.WellFormed (t : Texts) (db : AuthDb) : Prop where
  policy : db.PolicyFormed t
  people : PeopleFormed t db.users
  held : ∀ u ∈ db.users, ∀ id ∈ u.roles, db.HasRole id

variable {t : Texts} {db : AuthDb}

theorem AuthDb.role_eq_some (h : db.PolicyFormed t) {id : String} {r : AuthRole} :
    db.role id = some r ↔ r ∈ db.roles ∧ r.id = id := get_eq_some h.roleId

theorem AuthDb.userByEmail_eq_some (h : PeopleFormed t db.users) {email : String}
    {u : AuthUser} : db.userByEmail email = some u ↔ u ∈ db.users ∧ u.email = email :=
  get_eq_some h.email

theorem AuthDb.PolicyFormed.withUsers (h : db.PolicyFormed t) (users : List AuthUser) :
    { db with users := users }.PolicyFormed t where
  roleId := h.roleId
  roleName := h.roleName
  named := h.named
  default := h.default
  subject := h.subject
  email := h.email
  domain := h.domain
  issuer := h.issuer

/-! ## What a sign-in resolves to -/

/-- A verified browser identity. No address is "". -/
structure Identity where
  issuer : String
  subject : String
  verifiedEmail : String := ""
deriving DecidableEq

structure Decision where
  matchedRoles : List String
  permissions : List String
deriving DecidableEq

/-- What an identity is: kept out, nobody known, or a person. -/
inductive Standing (α : Type)
  | refused
  | guest
  | person (u : α)
deriving DecidableEq

/-- `auth_user_roles` of a person. -/
def Standing.held : Standing AuthUser → List String
  | .person u => u.roles
  | _ => []

namespace AuthDb

/-- The person an identity is linked to. -/
def lookup (db : AuthDb) (id : Identity) : Option AuthUser :=
  db.users.find? fun u => (id.issuer, id.subject) ∈ u.identities

/-- `INSERT INTO auth_identities … ON CONFLICT DO NOTHING`. -/
def insertIdentity (db : AuthDb) (userId : String) (id : Identity) : AuthDb :=
  if (db.lookup id).isSome then db
  else db.updateUser userId fun u =>
    { u with identities := u.identities ++ [(id.issuer, id.subject)] }

def setStatus (db : AuthDb) (userId : String) (status : UserStatus) : AuthDb :=
  db.updateUser userId fun u => { u with status := status }

/-- Links an identity that is linked to nobody. Nothing, where it would have to
write and may not. -/
def claimInvitation (db : AuthDb) (id : Identity) (email : String) (claim readOnly : Bool) :
    Option (AuthDb × Standing AuthUser) :=
  match db.userByEmail email with
  | none => some (db, .guest)
  | some invited =>
    -- A disabled or removed address stays out, whichever provider vouches for it.
    if invited.status ≠ .active ∧ invited.status ≠ .pending then some (db, .refused)
    else if claim = true ∧ invited.invitedBy = some id.issuer then
      if readOnly then none
      else
        let db := db.insertIdentity invited.id id
        match db.lookup id with
        | none => some (db, .refused)
        | some si =>
          if si.id ≠ invited.id then some (db, .refused)
          else if si.status = .pending then
            some (db.setStatus invited.id .active, .person { si with status := .active })
          else some (db, .person si)
    else some (db, .guest)

/-- A pending person who brings the address of their record is active. -/
def activate (db : AuthDb) (email : String) (claim readOnly : Bool) :
    Standing AuthUser → Option (AuthDb × Standing AuthUser)
  | .person si =>
    if si.status = .pending ∧ claim = true ∧ email = si.email then
      if readOnly then none
      else some (db.setStatus si.id .active, .person { si with status := .active })
    else if si.status ≠ .active then some (db, .refused)
    else some (db, .person si)
  | standing => some (db, standing)

/-- Who an identity is linked to, if need be by its claim. -/
def identify (db : AuthDb) (id : Identity) (email : String) (claim readOnly : Bool) :
    Option (AuthDb × Standing AuthUser) :=
  match db.lookup id with
  | some si => some (db, .person si)
  | none => if email = "" then some (db, .guest) else db.claimInvitation id email claim readOnly

/-- Who an identity is, and the tables after its claim. -/
def admission (db : AuthDb) (id : Identity) (email : String) (claim readOnly : Bool) :
    Option (AuthDb × Standing AuthUser) :=
  (db.identify id email claim readOnly).bind fun r => r.1.activate email claim readOnly r.2

/-- `JOIN go_binding_issuers`: the identity's provider vouches for the binding. -/
def vouches (db : AuthDb) (id : Identity) (kind : BindingKind) (b : AddressRow) : Bool :=
  db.bindingIssuers.any fun i =>
    i.kind = kind && i.role = b.role && i.value = b.value && i.issuer = id.issuer

def subjectRoles (db : AuthDb) (id : Identity) : List String :=
  (db.subjectBindings.filter fun b => b.issuer = id.issuer && b.subject = id.subject).map
    SubjectRow.role

def emailRoles (db : AuthDb) (id : Identity) (email : String) : List String :=
  (db.emailBindings.filter fun b => b.value = email && db.vouches id .email b).map AddressRow.role

def domainRoles (db : AuthDb) (id : Identity) (email : String) : List String :=
  (db.domainBindings.filter fun b =>
    domainOf email = some b.value && db.vouches id .emailDomain b).map AddressRow.role

/-- The ids of the roles that are due to an identity. -/
def dueRoles (db : AuthDb) (id : Identity) (email : String) (defaultId : Option String)
    (standing : Standing AuthUser) : List String :=
  defaultId.toList ++ db.subjectRoles id ++
    (if email = "" then [] else db.emailRoles id email ++ db.domainRoles id email) ++
    standing.held

/-- What some roles give. One that does not exist grants nothing, whatever rows
still name it. -/
def grant (db : AuthDb) (roleIds : List String) : Decision where
  matchedRoles := (roleIds.dedup.filterMap fun id => (db.role id).map AuthRole.name).insertionSort
    (· ≤ ·)
  permissions :=
    canonical (roleIds.flatMap fun id => ((db.role id).map AuthRole.permissions).getD [])

def decision (db : AuthDb) (id : Identity) (email : String) (defaultId : Option String) :
    Standing AuthUser → Decision
  | .refused => { matchedRoles := [], permissions := [] }
  | standing => db.grant (db.dueRoles id email defaultId standing)

/-- `evaluatePolicy`. Nothing, where it has something to write and may not. -/
def evaluatePolicy (t : Texts) (db : AuthDb) (id : Identity) (claim readOnly : Bool) :
    Option (Option Decision × AuthDb) :=
  match db.settings with
  | none => some (none, db)
  | some defaultId =>
    let email := t.toLower id.verifiedEmail
    (db.admission id email claim readOnly).map fun r =>
      (some (r.1.decision id email defaultId r.2), r.1)

/-- `ResolvePolicy`: the decision, and the tables after it. -/
def resolvePolicy (t : Texts) (db : AuthDb) (id : Identity) (claim : Bool) :
    Option Decision × AuthDb :=
  match db.evaluatePolicy t id claim true with
  | some r => r
  | none => (db.evaluatePolicy t id claim false).getD (none, db)

/-- What a sign-in can do: `Authorize`, where the provider gives `wide`. -/
def authorize (t : Texts) (wide : List String) (db : AuthDb) (id : Identity) : List String :=
  match (db.resolvePolicy t id true).1 with
  | none => wide
  | some d => d.permissions

end AuthDb

end LocalBase.Auth
