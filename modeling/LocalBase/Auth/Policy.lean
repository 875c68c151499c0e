import LocalBase.Auth.Permissions
import LocalBase.Lib.Fuel
import LocalBase.Lib.Records
import Mathlib.Data.List.Sort

/-!
# The browser access policy

Roles with permissions, and bindings that give a role to a subject, an address or
the addresses of a domain. A binding of an address names the provider that vouches
for it; one that names none matches nobody.

What the library decides about a text (how a letter is lowered, which texts are
addresses and issuers, and which are the same but for case) is a parameter.
-/

namespace LocalBase.Auth

open Fuel Records

structure Texts where
  lower : Char → Char
  lower_lower : ∀ c, lower (lower c) = lower c
  lower_at : lower '@' = '@'
  isAddress : String → Bool
  isIssuer : String → Bool
  /-- An issuer is an https URL. -/
  isIssuer_empty : isIssuer "" = false
  equalFold : String → String → Bool

def Texts.toLower (t : Texts) (s : String) : String := String.ofList (s.toList.map t.lower)

def Texts.Lowered (t : Texts) (s : String) : Prop := t.toLower s = s

theorem Texts.lowered_toLower (t : Texts) (s : String) : t.Lowered (t.toLower s) := by
  unfold Lowered toLower
  rw [String.toList_ofList, List.map_map]
  congr 1
  exact List.map_congr_left fun c _ => t.lower_lower c

/-- What follows the last `@`, or all of it. -/
def afterAt (email : String) : String :=
  String.ofList (email.toList.reverse.takeWhile fun c => c ≠ '@').reverse

def domainOf (email : String) : Option String :=
  if '@' ∈ email.toList then some (afterAt email) else none

theorem afterAt_append {a : List Char} {domain : String} (h : '@' ∉ domain.toList) :
    afterAt (String.ofList (a ++ '@' :: domain.toList)) = domain := by
  unfold afterAt
  rw [String.toList_ofList, List.reverse_append, List.reverse_cons, List.append_assoc]
  rw [List.takeWhile_append_of_pos, List.singleton_append, List.takeWhile_cons_of_neg (by simp)]
  · rw [List.append_nil, List.reverse_reverse, String.ofList_toList]
  · intro c hc
    have hne : c ≠ '@' := fun he => h (he ▸ List.mem_reverse.1 hc)
    exact decide_eq_true hne

theorem domainOf_append {a : List Char} {domain : String} (h : '@' ∉ domain.toList) :
    domainOf (String.ofList (a ++ '@' :: domain.toList)) = some domain := by
  unfold domainOf
  rw [if_pos (by rw [String.toList_ofList]; simp), afterAt_append h]

theorem domainOf_eq_some {email domain : String} (h : domainOf email = some domain) :
    afterAt email = domain := by
  unfold domainOf at h
  split at h
  · exact Option.some.inj h
  · exact absurd h (by simp)

def Texts.validEmail (t : Texts) (s : String) : String :=
  if 320 < s.utf8ByteSize then ""
  else if ¬ t.isAddress s ∨ '@' ∉ s.toList then ""
  else t.toLower s

theorem Texts.lowered_empty (t : Texts) : t.Lowered "" := by
  unfold Lowered toLower
  rfl

theorem Texts.lowered_validEmail (t : Texts) (s : String) : t.Lowered (t.validEmail s) := by
  unfold validEmail
  split
  · exact t.lowered_empty
  · split
    · exact t.lowered_empty
    · exact t.lowered_toLower s

theorem Texts.validEmail_eq {t : Texts} {s : String} (h : t.validEmail s ≠ "") :
    t.validEmail s = t.toLower s := by
  unfold validEmail at h ⊢
  split at h
  · exact absurd rfl h
  · next hlen =>
    split at h
    · exact absurd rfl h
    · next hok => rw [if_neg hlen, if_neg hok]

theorem Texts.validEmail_lowered {t : Texts} {s : String} (hs : t.Lowered s)
    (h : t.validEmail s ≠ "") : t.validEmail s = s :=
  (validEmail_eq h).trans hs

/-! ## Policies -/

structure Role where
  name : String
  description : String
  permissions : List String
deriving DecidableEq

inductive BindingKind
  | subject
  | email
  | emailDomain
  /-- What a request may also say. -/
  | other (kind : String)
deriving DecidableEq

structure Binding where
  kind : BindingKind
  role : String
  issuer : String := ""
  subject : String := ""
  email : String := ""
  domain : String := ""
deriving DecidableEq

structure Policy where
  roles : List Role
  bindings : List Binding
  defaultRole : Option String
deriving DecidableEq

/-- The fields that the JSON of a binding has. -/
def Binding.shown (b : Binding) : Binding :=
  match b.kind with
  | .subject => { kind := b.kind, role := b.role, issuer := b.issuer, subject := b.subject }
  | .email => { kind := b.kind, role := b.role, issuer := b.issuer, email := b.email }
  | _ => { kind := b.kind, role := b.role, issuer := b.issuer, domain := b.domain }

def isLetter (c : Char) : Bool := 'a' ≤ c && c ≤ 'z'

def isDigit (c : Char) : Bool := '0' ≤ c && c ≤ '9'

/-- `roleNameRe`. -/
def isRoleName (s : String) : Bool :=
  match s.toList with
  | [] => false
  | c :: cs => isLetter c && cs.all fun c => isLetter c || isDigit c || c == '-'

/-- `domainRe`. -/
def isDomain (s : String) : Bool :=
  let ends (c : Char) : Bool := isLetter c || isDigit c
  s.toList.all (fun c => ends c || c == '.' || c == '-') &&
    s.toList.head?.any ends && s.toList.getLast?.any ends

def policyLockoutMessage : String :=
  "This policy would lock everyone out: at least one person it names must be able to " ++
    "manage access."

def Role.canonical (r : Role) : Role := { r with permissions := Auth.canonical r.permissions }

/-- The loop over the roles: `i` and `seen` are the index and the names so far. -/
def normalizeRoles : Nat → List String → List Role → Except String (List Role)
  | _, _, [] => .ok []
  | i, seen, r :: rs =>
    if 64 < r.name.utf8ByteSize ∨ ¬ isRoleName r.name ∨ 256 < r.description.utf8ByteSize then
      .error ("roles." ++ toString i ++ ": invalid role")
    else
      match r.permissions.find? fun p => p ∉ permissions with
      | some p => .error ("roles." ++ toString i ++ ".permissions: unknown permission " ++ p)
      | none =>
        if r.name ∈ seen then .error "Role names must be unique."
        else do
          let rest ← normalizeRoles (i + 1) (r.name :: seen) rs
          return r.canonical :: rest

section

variable (t : Texts)

def validBoundIssuer (issuer : String) : Bool :=
  issuer = "" || (issuer.utf8ByteSize ≤ 2048 && t.isIssuer issuer)

def normalizeBinding (i : Nat) (b : Binding) : Except String Binding :=
  match b.kind with
  | .subject =>
    if b.issuer = "" ∨ 2048 < b.issuer.utf8ByteSize ∨ b.subject = "" ∨
        512 < b.subject.utf8ByteSize ∨ b.email ≠ "" ∨ b.domain ≠ "" then
      .error ("bindings." ++ toString i ++ ": invalid subject binding")
    else .ok b
  | .email =>
    if t.validEmail b.email = "" ∨ b.domain ≠ "" ∨ ¬ validBoundIssuer t b.issuer then
      .error ("bindings." ++ toString i ++ ": invalid email binding")
    else .ok { b with email := t.validEmail b.email }
  | .emailDomain =>
    if ¬ isDomain (t.toLower b.domain) ∨ 253 < (t.toLower b.domain).utf8ByteSize ∨
        b.email ≠ "" ∨ ¬ validBoundIssuer t b.issuer then
      .error ("bindings." ++ toString i ++ ": invalid domain binding")
    else .ok { b with domain := t.toLower b.domain }
  | .other _ => .error ("bindings." ++ toString i ++ ".kind: invalid")

def normalizeBindings (roles : List Role) :
    Nat → List Binding → List Binding → Except String (List Binding)
  | _, _, [] => .ok []
  | i, seen, b :: bs =>
    if roles.all fun r => r.name ≠ b.role then .error ("Unknown role: " ++ b.role)
    else do
      let b ← normalizeBinding t i b
      if b.shown ∈ seen then .error "Bindings must be unique."
      else do
        let rest ← normalizeBindings roles (i + 1) (b.shown :: seen) bs
        return b :: rest

/-- A role that someone can come to have gives `access:manage`. -/
def reachesManage (roles : List Role) (reachable : List String) : Bool :=
  roles.any fun r => r.name ∈ reachable && "access:manage" ∈ r.permissions

/-- `Normalize`. -/
def Policy.normalize (p : Policy) : Except String Policy :=
  if p.roles.length < 1 ∨ 64 < p.roles.length then .error "roles: must list 1 to 64 roles"
  else if 256 < p.bindings.length then .error "bindings: at most 256"
  else do
    let roles ← normalizeRoles 0 [] p.roles
    if p.defaultRole.any fun d => roles.all fun r => r.name ≠ d then
      .error "Default role must exist."
    else do
      let bindings ← normalizeBindings t roles 0 [] p.bindings
      if reachesManage roles (p.defaultRole.toList ++ bindings.map Binding.role) then
        return { roles := roles, bindings := bindings, defaultRole := p.defaultRole }
      else .error policyLockoutMessage

end

/-! ## What is normal -/

def Binding.Proper (t : Texts) (b : Binding) : Prop :=
  match b.kind with
  | .subject => b.issuer ≠ "" ∧ b.subject ≠ "" ∧ b.email = "" ∧ b.domain = ""
  | .email => t.Lowered b.email ∧ b.email ≠ "" ∧ b.domain = ""
  | .emailDomain => t.Lowered b.domain ∧ isDomain b.domain = true ∧ b.email = ""
  | .other _ => False

/-- What a normal policy comes from, and what it is. -/
structure Policy.Normal (t : Texts) (p n : Policy) : Prop where
  roles : n.roles = p.roles.map Role.canonical
  defaultRole : n.defaultRole = p.defaultRole
  bindings : List.Forall₂ (fun b b' => ∃ i, normalizeBinding t i b = .ok b') p.bindings n.bindings
  names : Keyed Role.name n.roles
  isRoleName : ∀ r ∈ n.roles, isRoleName r.name = true
  default : ∀ d, n.defaultRole = some d → ∃ r ∈ n.roles, r.name = d
  bound : ∀ b ∈ n.bindings, ∃ r ∈ n.roles, r.name = b.role

variable {t : Texts}

theorem normalizeBinding_ok {i : Nat} {b b' : Binding} (h : normalizeBinding t i b = .ok b') :
    b'.Proper t ∧ b' = { b with email := b'.email, domain := b'.domain } := by
  unfold normalizeBinding at h
  split at h
  · next hk =>
    split at h
    · exact absurd h (by simp)
    · next hno =>
      obtain rfl := Except.ok.inj h
      simp only [not_or, not_not] at hno
      exact ⟨by simp [Binding.Proper, hk, hno], rfl⟩
  · next hk =>
    split at h
    · exact absurd h (by simp)
    · next hno =>
      obtain rfl := Except.ok.inj h
      simp only [not_or, not_not] at hno
      exact ⟨by simp [Binding.Proper, hk, hno, t.lowered_validEmail], rfl⟩
  · next hk =>
    split at h
    · exact absurd h (by simp)
    · next hno =>
      obtain rfl := Except.ok.inj h
      simp only [not_or, not_not] at hno
      exact ⟨by simp [Binding.Proper, hk, hno, t.lowered_toLower], rfl⟩
  · exact absurd h (by simp)

theorem normalizeBinding_proper {i : Nat} {b b' : Binding} (hb : b.Proper t)
    (h : normalizeBinding t i b = .ok b') : b' = b := by
  unfold normalizeBinding at h
  unfold Binding.Proper at hb
  split at h
  · split at h
    · exact absurd h (by simp)
    · exact (Except.ok.inj h).symm
  · next hk =>
    rw [hk] at hb
    split at h
    · exact absurd h (by simp)
    · next hno =>
      simp only [not_or, not_not] at hno
      rw [Texts.validEmail_lowered hb.1 hno.1] at h
      exact (Except.ok.inj h).symm
  · next hk =>
    rw [hk] at hb
    split at h
    · exact absurd h (by simp)
    · rw [show t.toLower b.domain = b.domain from hb.1] at h
      exact (Except.ok.inj h).symm
  · exact absurd h (by simp)

theorem normalizeRoles_ok {rs rs' : List Role} {i : Nat} {seen : List String}
    (h : normalizeRoles i seen rs = .ok rs') :
    rs' = rs.map Role.canonical ∧ (∀ r ∈ rs', r.name ∉ seen ∧ isRoleName r.name = true) ∧
      Keyed Role.name rs' := by
  induction rs generalizing i seen rs' with
  | nil =>
    obtain rfl := Except.ok.inj h
    exact ⟨rfl, fun r hr => absurd hr (by simp), fun a ha => absurd ha (by simp)⟩
  | cons r rs ih =>
    rw [normalizeRoles] at h
    split at h
    · exact absurd h (by simp)
    · next hno =>
      split at h
      · exact absurd h (by simp)
      · split at h
        · exact absurd h (by simp)
        · next hseen =>
          obtain ⟨rest, hrest, h⟩ := bind_eq_ok.1 h
          obtain rfl := Except.ok.inj h
          obtain ⟨hmap, hnew, hkeyed⟩ := ih hrest
          have hname : isRoleName r.name = true := by
            by_contra hbad
            exact hno (.inr (.inl hbad))
          refine ⟨by rw [List.map_cons, hmap], fun q hq => ?_, fun a ha b hb hab => ?_⟩
          · obtain rfl | hq := List.mem_cons.1 hq
            · exact ⟨hseen, hname⟩
            · have hq := hnew q hq
              exact ⟨fun hs => hq.1 (List.mem_cons_of_mem _ hs), hq.2⟩
          · obtain rfl | ha := List.mem_cons.1 ha
            · obtain rfl | hb := List.mem_cons.1 hb
              · rfl
              · exact absurd (hab ▸ List.mem_cons_self) (hnew b hb).1
            · obtain rfl | hb := List.mem_cons.1 hb
              · exact absurd (hab ▸ List.mem_cons_self) (hnew a ha).1
              · exact hkeyed a ha b hb hab

theorem normalizeBindings_ok {roles : List Role} {bs bs' : List Binding} {i : Nat}
    {seen : List Binding} (h : normalizeBindings t roles i seen bs = .ok bs') :
    List.Forall₂ (fun b b' => ∃ i, normalizeBinding t i b = .ok b') bs bs' ∧
      ∀ b ∈ bs', ∃ r ∈ roles, r.name = b.role := by
  induction bs generalizing i seen bs' with
  | nil =>
    obtain rfl := Except.ok.inj h
    exact ⟨.nil, fun b hb => absurd hb (by simp)⟩
  | cons b bs ih =>
    rw [normalizeBindings] at h
    split at h
    · exact absurd h (by simp)
    · next hrole =>
      obtain ⟨b', hb', h⟩ := bind_eq_ok.1 h
      split at h
      · exact absurd h (by simp)
      · obtain ⟨rest, hrest, h⟩ := bind_eq_ok.1 h
        obtain rfl := Except.ok.inj h
        obtain ⟨hall, hroles⟩ := ih hrest
        refine ⟨.cons ⟨i, hb'⟩ hall, fun c hc => ?_⟩
        obtain rfl | hc := List.mem_cons.1 hc
        · rw [(normalizeBinding_ok hb').2]
          simpa using hrole
        · exact hroles c hc

theorem Policy.normalize_ok {p n : Policy} (h : p.normalize t = .ok n) : p.Normal t n := by
  unfold Policy.normalize at h
  split at h
  · exact absurd h (by simp)
  · split at h
    · exact absurd h (by simp)
    · obtain ⟨roles, hroles, h⟩ := bind_eq_ok.1 h
      split at h
      · exact absurd h (by simp)
      · next hdefault =>
        obtain ⟨bindings, hbindings, h⟩ := bind_eq_ok.1 h
        obtain ⟨hmap, hnames, hkeyed⟩ := normalizeRoles_ok hroles
        obtain ⟨hall, hbound⟩ := normalizeBindings_ok hbindings
        split at h
        · obtain rfl := Except.ok.inj h
          refine ⟨hmap, rfl, hall, hkeyed, fun r hr => (hnames r hr).2, fun d hd => ?_, hbound⟩
          replace hd : p.defaultRole = some d := hd
          rw [hd] at hdefault
          simpa using hdefault
        · exact absurd h (by simp)

end LocalBase.Auth
