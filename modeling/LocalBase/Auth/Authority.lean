import LocalBase.Auth.Guard

/-!
# Nobody hands out more than they hold

Who changes access may grant only roles within what they hold, act only on people
within it, and change of the policy only what is within it. Each check reads the
snapshot; what it allows is then carried out on the tables.
-/

namespace LocalBase.Auth

/-- Refuses, unless `holds` has all of `want`. -/
def needs (holds want : List String) (refusal : List String → AccessError) :
    Except AccessError Unit :=
  if missing holds want ≠ [] then .error (refusal (missing holds want)) else .ok ()

def refusedSignIn (missing : List String) : AccessError where
  code := "exceeds-caller-permissions"
  message := "Changing how people sign in can decide who holds any role, so it needs every " ++
    "permission a sign-in can grant. You don't hold: " ++ joinComma missing ++ ". Ask someone " ++
    "who holds them, or use `local-base access` on the host."

def refusedPolicy (missing : List String) : AccessError where
  code := "exceeds-caller-permissions"
  message := "You can only change roles and bindings within the permissions you hold. This " ++
    "change also touches: " ++ joinComma missing ++ ". Ask someone who holds them, or use " ++
    "`local-base access` on the host."

def errWiderUser : AccessError where
  code := "exceeds-caller-permissions"
  message := "This person has permissions you don't hold, so you can't change them. Ask " ++
    "someone who holds them, or use `local-base access` on the host."

/-! ## Providers -/

def issuerRequired (what : String) (issuers : List String) : AccessError where
  code := "issuer-required"
  message := what ++ " must name the sign-in provider that vouches for it, because several are " ++
    "configured. Add \"issuer\" with one of: " ++ joinComma issuers ++ "."

def issuerUnknown (issuer : String) (issuers : List String) : AccessError where
  code := "issuer-unknown"
  message := issuer ++ " is not a configured sign-in provider; " ++
    (if issuers = [] then "no provider is" else "these are: " ++ joinComma issuers) ++ "."

section

variable (t : Texts)

/-- Who vouches for an address when nobody said. -/
def chooseIssuer (what email : String) (issuers : List String) (caller : Option Identity) :
    Except AccessError String :=
  match caller.filter fun c =>
      email ≠ "" && t.equalFold c.verifiedEmail email && c.issuer ∈ issuers with
  | some c => .ok c.issuer
  | none =>
    match issuers with
    | [] => .ok ""
    | [issuer] => .ok issuer
    | _ => .error (issuerRequired what issuers)

def bindIssuer (issuers : List String) (caller : Option Identity) (b : Binding) :
    Except AccessError Binding :=
  if b.issuer ≠ "" then .ok b
  else do
    let issuer ← chooseIssuer t ("A binding for " ++ b.email ++ b.domain) b.email issuers caller
    return { b with issuer := issuer }

/-- Names the provider on each binding that has none. -/
def Policy.bindIssuers (p : Policy) (issuers : List String) (caller : Option Identity) :
    Except AccessError Policy := do
  let bindings ← p.bindings.mapM (bindIssuer t issuers caller)
  return { p with bindings := bindings }

/-- The provider an invitation is for. -/
def inviteIssuer (named email : String) (issuers : List String) (caller : Option Identity) :
    Except AccessError String :=
  if named = "" then chooseIssuer t "An invitation" email issuers caller
  else if issuers ≠ [] ∧ named ∉ issuers then .error (issuerUnknown named issuers)
  else .ok named

end

def bindingSet (p : Option Policy) : List Binding := (p.map Policy.bindings).getD []

/-- Each role by name, with its permissions. -/
def rolesByName (p : Option Policy) (name : String) : Option (List String) :=
  p.bind fun p => (p.roles.reverse.find? fun r => r.name = name).map Role.permissions

def roleNames (p : Option Policy) : List String := ((p.map Policy.roles).getD []).map Role.name

def defaultRole (p : Option Policy) : String := (p.bind Policy.defaultRole).getD ""

/-! ## What a change of the policy touches -/

section

variable (current next : Option Policy)

/-- Roles with other permissions, and roles that go. -/
def changedRoles : List String :=
  (roleNames current).flatMap fun name =>
    let old := (rolesByName current name).getD []
    match rolesByName next name with
    | some now => if canonical old ≠ canonical now then old ++ now else []
    | none => old

def newRoles : List String :=
  (roleNames next).flatMap fun name =>
    if (rolesByName current name).isNone then (rolesByName next name).getD [] else []

def goneBindings : List String :=
  (bindingSet current).flatMap fun b =>
    if b ∉ bindingSet next then (rolesByName current b.role).getD [] else []

def newBindings : List String :=
  (bindingSet next).flatMap fun b =>
    if b ∉ bindingSet current then (rolesByName next b.role).getD [] else []

def changedDefault : List String :=
  if defaultRole current ≠ defaultRole next then
    (rolesByName current (defaultRole current)).getD [] ++
      (rolesByName next (defaultRole next)).getD []
  else []

/-- All of it. Moving between no policy and a policy replaces the permissions of the
provider. -/
def touched (wide : List String) : List String :=
  (if current.isNone ≠ next.isNone then wide else []) ++ changedRoles current next ++
    newRoles current next ++ goneBindings current next ++ newBindings current next ++
    changedDefault current next

end

namespace Guard

variable (t : Texts)

/-- Refuses a new binding on a provider that is not configured. -/
def checkBindingIssuers (g : Guard) (next : Policy) : Except AccessError Unit :=
  match next.bindings.find? fun b =>
      b.kind ≠ .subject && b.issuer ≠ "" && b ∉ bindingSet g.policy && b.issuer ∉ g.issuers with
  | some b => .error (issuerUnknown b.issuer g.issuers)
  | none => .ok ()

/-- A role's permissions, if the policy has it. -/
def role (g : Guard) (name : String) : Option (List String) :=
  g.policy.bind fun p => (p.roles.find? fun r => r.name = name).map Role.permissions

/-- Everything a sign-in could resolve to. -/
def signInReach (g : Guard) : List String :=
  g.providerPerms ++ ((g.policy.map Policy.roles).getD []).flatMap Role.permissions

/-- What a managed person resolves to. -/
def userReach (g : Guard) (u : GuardUser) : List String :=
  match g.policy with
  | none => g.providerPerms
  | some p =>
    let names := u.roles ++ p.defaultRole.toList ++
      (p.bindings.filter fun b =>
        match b.kind with
        | .email => b.email = u.email
        | .emailDomain => b.domain = afterAt u.email
        | .subject => (b.issuer, b.subject) ∈ u.identities
        | .other _ => false).map Binding.role
    names.flatMap fun name => (g.role name).getD []

/-- Judges a change to providers or email delivery. -/
def checkSignInChange (g : Guard) (holds permissions : List String) : Except AccessError Unit :=
  needs holds (g.signInReach ++ permissions) refusedSignIn

/-- Judges giving someone these roles. -/
def checkGrantRoles (g : Guard) (holds roles : List String) : Except AccessError Unit :=
  needs holds (roles.flatMap fun name => (g.role name).getD []) grantRefused

/-- Judges acting on a managed person. -/
def checkUser (g : Guard) (holds : List String) (email : String) : Except AccessError Unit :=
  match g.user t email with
  | none => .ok ()
  | some u =>
    if u.status ≠ .removed ∧ missing holds (g.userReach u) ≠ [] then .error errWiderUser
    else .ok ()

/-- Judges replacing the policy with `next`: none clears it. -/
def checkPolicyChange (g : Guard) (holds : List String) (next : Option Policy) :
    Except AccessError Unit :=
  needs holds (touched g.policy next g.providerPerms) refusedPolicy

end Guard

/-! ## Requests -/

inductive AccessChange
  | inviteUser (email : String) (roles : List String) (issuer : String)
  | replaceUserRoles (email : String) (roles : List String)
  | enableUser (email : String)
  | disableUser (email : String)
  | removeUser (email : String)
  | applyPolicy (policy : Policy)
  | clearPolicy

inductive AccessRequest
  /-- Providers, registrations and email delivery, with the permissions a provider
  would give. -/
  | signIn (permissions : List String)
  | change (c : AccessChange)

/-- `prepareAccessChange`: names the provider on what needs one, and refuses what
reaches past `holds`. -/
def prepareAccessChange (t : Texts) (g : Guard) (holds : List String) (caller : Option Identity) :
    AccessRequest → Except AccessError AccessRequest
  | .signIn permissions => do
      g.checkSignInChange holds permissions
      return .signIn permissions
  | .change (.inviteUser email roles issuer) => do
      let issuer ← inviteIssuer t issuer email g.issuers caller
      g.checkGrantRoles holds roles
      return .change (.inviteUser email roles issuer)
  | .change (.replaceUserRoles email roles) => do
      g.checkUser t holds email
      g.checkGrantRoles holds roles
      return .change (.replaceUserRoles email roles)
  | .change (.enableUser email) => do
      g.checkUser t holds email
      return .change (.enableUser email)
  | .change (.disableUser email) => do
      g.checkUser t holds email
      return .change (.disableUser email)
  | .change (.removeUser email) => do
      g.checkUser t holds email
      return .change (.removeUser email)
  | .change (.applyPolicy policy) => do
      let policy ← policy.bindIssuers t g.issuers caller
      if g.issuers ≠ [] then g.checkBindingIssuers policy
      g.checkPolicyChange holds (some policy)
      return .change (.applyPolicy policy)
  | .change .clearPolicy => do
      g.checkPolicyChange holds none
      return .change .clearPolicy

/-- What is drawn for the rows of a change. -/
structure Drawn where
  user : String
  role : String → String

/-- The function that carries a change out. -/
def AuthDb.carryOut (t : Texts) (drawn : Drawn) (db : AuthDb) :
    AccessChange → Except AuthError AuthDb
  | .inviteUser email roles issuer => db.inviteUser t drawn.user email roles issuer
  | .replaceUserRoles email roles => db.replaceUserRoles t email roles
  | .enableUser email => db.setUserStatus t email .active
  | .disableUser email => db.setUserStatus t email .disabled
  | .removeUser email => db.removeUser t email
  | .applyPolicy policy => db.applyPolicy t drawn.role policy
  | .clearPolicy => db.clearPolicy.map Prod.snd

end LocalBase.Auth
