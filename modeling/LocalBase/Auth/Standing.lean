import LocalBase.Auth.Guard
import Mathlib.Data.List.Find

/-!
# Who may do what

What a sign-in resolves to, said of the policy and the people alone: an identity is
kept out, a guest or a person; roles are due to it by default, by a binding that
names it, or because the person holds them; and each gives its permissions. The
decision over the tables, with what it claims on the way, is exactly this.
-/

namespace LocalBase.Auth

open Records

def Standing.map {α β : Type} (f : α → β) : Standing α → Standing β
  | .refused => .refused
  | .guest => .guest
  | .person u => .person (f u)

/-- Who an identity is among these people. -/
def standing (t : Texts) (users : List GuardUser) (id : Identity) : Standing GuardUser :=
  let email := t.toLower id.verifiedEmail
  match users.find? fun u => (id.issuer, id.subject) ∈ u.identities with
  | some u =>
    if u.status = .active ∨ (u.status = .pending ∧ email = u.email) then .person u else .refused
  | none =>
    match users.find? fun u => u.email = email with
    | none => .guest
    | some u =>
      if u.status.refused then .refused
      else if id.issuer ≠ "" ∧ u.issuer = id.issuer then .person u
      else .guest

namespace Policy

/-- A binding that names this identity gives it the role. -/
def Binds (t : Texts) (p : Policy) (id : Identity) (name : String) : Prop :=
  ∃ b ∈ p.bindings, b.issuer ≠ "" ∧ b.role = name ∧ b.matches t id = true

def Due (t : Texts) (p : Policy) (id : Identity) (s : Standing GuardUser) (name : String) : Prop :=
  s ≠ .refused ∧
    (p.defaultRole = some name ∨ p.Binds t id name ∨ ∃ u, s = .person u ∧ name ∈ u.roles)

def Grants (t : Texts) (p : Policy) (id : Identity) (s : Standing GuardUser) (perm : String) :
    Prop :=
  ∃ name, p.Due t id s name ∧ perm ∈ p.rolePerms name

end Policy

/-- What an identity may do, under a policy or none. -/
def May (t : Texts) (wide : List String) (policy : Option Policy) (users : List GuardUser)
    (id : Identity) (perm : String) : Prop :=
  match policy with
  | none => perm ∈ wide
  | some p => p.Grants t id (standing t users id) perm

namespace Binding

variable {t : Texts} {id : Identity} {b : Binding}

theorem matches_subject (hk : b.kind = .subject) :
    b.matches t id = true ↔ (b.issuer, b.subject) = (id.issuer, id.subject) := by
  unfold Binding.matches
  simp [hk]

theorem matches_email (hk : b.kind = .email) : b.matches t id = true ↔
    t.toLower id.verifiedEmail ≠ "" ∧ b.email = t.toLower id.verifiedEmail ∧
      b.issuer = id.issuer := by
  unfold Binding.matches
  simp [hk, and_assoc]

theorem matches_domain (hk : b.kind = .emailDomain) : b.matches t id = true ↔
    domainOf (t.toLower id.verifiedEmail) = some b.domain ∧ b.issuer = id.issuer := by
  unfold Binding.matches
  simp [hk]

theorem not_matches_other {k : String} (hk : b.kind = .other k) : b.matches t id = false := by
  unfold Binding.matches
  simp [hk]

theorem issuer_of_matches (h : b.matches t id = true) : b.issuer = id.issuer := by
  cases hk : b.kind with
  | subject => exact (Prod.mk.inj ((matches_subject hk).1 h)).1
  | email => exact ((matches_email hk).1 h).2.2
  | emailDomain => exact ((matches_domain hk).1 h).2
  | other k => exact absurd ((not_matches_other hk).symm.trans h) (by simp)

end Binding

namespace AuthDb

/-- The people, as the guard has them. -/
def people (t : Texts) (db : AuthDb) : List GuardUser := db.users.map (db.guardUser t)

variable {t : Texts} {db : AuthDb} {perm : String} {readOnly : Bool} {id : Identity}
  {s : Standing AuthUser} {u : AuthUser} {r : AuthRole} {kind : BindingKind} {d : Option String}
  {p : Policy} {db' : AuthDb}

/-! ## Admission -/

theorem lookup_mem (h : db.lookup id = some u) :
    u ∈ db.users ∧ (id.issuer, id.subject) ∈ u.identities := by
  have hp := List.find?_some h
  exact ⟨List.mem_of_find?_eq_some h, of_decide_eq_true hp⟩

theorem lookup_eq_none :
    db.lookup id = none ↔ ∀ u ∈ db.users, (id.issuer, id.subject) ∉ u.identities := by
  unfold lookup
  simp [List.find?_eq_none]

theorem lookup_of_link (h : PeopleFormed t db.users) (hu : u ∈ db.users)
    (hl : (id.issuer, id.subject) ∈ u.identities) : db.lookup id = some u := by
  refine find?_of_unique hu (decide_eq_true hl) fun v hv hvl => ?_
  exact h.identity v hv u hu _ (of_decide_eq_true hvl) hl

/-- What a link to a person leaves. -/
def link (id : Identity) (u : AuthUser) : AuthUser :=
  { u with identities := u.identities ++ [(id.issuer, id.subject)] }

theorem insertIdentity_of_free (hfree : db.lookup id = none) (userId : String) :
    db.insertIdentity userId id = db.updateUser userId (link id) := by
  unfold insertIdentity
  rw [hfree]
  rfl

theorem lookup_link (h : PeopleFormed t db.users) (hu : u ∈ db.users)
    (hfree : db.lookup id = none) :
    (db.updateUser u.id (link id)).lookup id = some (link id u) := by
  refine find?_of_unique ?_ ?_ fun v hv hl => ?_
  · exact (mem_modify_of_mem h.id hu rfl).2 (.inl rfl)
  · simp [link]
  · obtain rfl | ⟨hv, -⟩ := (mem_modify_of_mem h.id hu rfl).1 hv
    · rfl
    · exact absurd (of_decide_eq_true hl) (lookup_eq_none.1 hfree v hv)

/-- What a claim can do to the people: nothing, make one active, or link one. -/
inductive Claimed (db : AuthDb) (id : Identity) : AuthDb → Prop
  | same : Claimed db id db
  | activated (u : AuthUser) (hu : u ∈ db.users) (hs : u.status = .pending) :
      Claimed db id (db.setStatus u.id .active)
  | linked (u : AuthUser) (hu : u ∈ db.users) (hfree : db.lookup id = none) :
      Claimed db id (db.updateUser u.id (link id))
  | linkedActive (u : AuthUser) (hu : u ∈ db.users) (hfree : db.lookup id = none)
      (hs : u.status = .pending) :
      Claimed db id ((db.updateUser u.id (link id)).setStatus u.id .active)

theorem Claimed.withUsers (h : Claimed db id db') :
    ∃ users, db' = { db with users := users } := by
  cases h with
  | same => exact ⟨db.users, rfl⟩
  | activated | linked | linkedActive => exact ⟨_, rfl⟩

/-- The names of the roles a person holds. -/
def rolesOf (t : Texts) (db : AuthDb) (u : AuthUser) : List String := (db.guardUser t u).roles

theorem find?_people (p : GuardUser → Bool) :
    (db.people t).find? p = (db.users.find? fun u => p (db.guardUser t u)).map (db.guardUser t) :=
  List.find?_map

theorem standing_linked (h : PeopleFormed t db.users) (hl : db.lookup id = some u) :
    standing t (db.people t) id =
      if u.status = .active ∨ (u.status = .pending ∧ t.toLower id.verifiedEmail = u.email) then
        .person (db.guardUser t u)
      else .refused := by
  have hfind : (db.people t).find? (fun u => (id.issuer, id.subject) ∈ u.identities) =
      some (db.guardUser t u) := by
    rw [find?_people]
    exact congrArg (Option.map (db.guardUser t)) hl
  have hemail : (db.guardUser t u).email = u.email := (h.address u (lookup_mem hl).1).1
  unfold standing
  simp only [hfind, hemail]
  rfl

theorem standing_free (h : PeopleFormed t db.users) (hl : db.lookup id = none) :
    standing t (db.people t) id =
      match db.userByEmail (t.toLower id.verifiedEmail) with
      | none => .guest
      | some u =>
        if u.status.refused then .refused
        else if u.invitedBy = some id.issuer then .person (db.guardUser t u)
        else .guest := by
  have hfind : (db.people t).find? (fun u => (id.issuer, id.subject) ∈ u.identities) = none := by
    rw [find?_people]
    exact congrArg (Option.map (db.guardUser t)) hl
  have hemail : (db.people t).find? (fun u => u.email = t.toLower id.verifiedEmail) =
      (db.userByEmail (t.toLower id.verifiedEmail)).map (db.guardUser t) := by
    rw [find?_people]
    refine congrArg (Option.map (db.guardUser t)) (List.find?_congr fun u hu => ?_)
    rw [show (db.guardUser t u).email = u.email from (h.address u hu).1]
  unfold standing
  simp only [hfind, hemail]
  cases hu : db.userByEmail (t.toLower id.verifiedEmail) with
  | none => rfl
  | some u =>
    have hinvited : (id.issuer ≠ "" ∧ (db.guardUser t u).issuer = id.issuer) ↔
        u.invitedBy = some id.issuer := by
      have hno := h.invited u (get_mem hu).1
      show (id.issuer ≠ "" ∧ u.invitedBy.getD "" = id.issuer) ↔ _
      cases hi : u.invitedBy with
      | none =>
        constructor
        · rintro ⟨hne, he⟩
          exact absurd he.symm hne
        · intro he
          exact absurd he (by simp)
      | some i =>
        rw [hi] at hno
        constructor
        · rintro ⟨-, he⟩
          exact congrArg some he
        · intro he
          obtain rfl := Option.some.inj he
          exact ⟨fun h0 => hno (congrArg some h0), rfl⟩
    simp only [Option.map_some, hinvited]
    rfl

/-- The same roles, whatever became of the record. -/
def SameRoles (t : Texts) (db : AuthDb) (s : Standing AuthUser) (s' : Standing GuardUser) : Prop :=
  s.map (db.rolesOf t) = s'.map GuardUser.roles

theorem activate_spec {email : String} {db₁ : AuthDb}
    (ha : db₁.activate email true readOnly (.person u) = some (db', s)) :
    (u.status = .active ∧ db' = db₁ ∧ s = .person u) ∨
      (u.status = .pending ∧ email = u.email ∧ db' = db₁.setStatus u.id .active ∧
        s = .person { u with status := .active }) ∨
      (¬ (u.status = .active ∨ (u.status = .pending ∧ email = u.email)) ∧ db' = db₁ ∧
        s = .refused) := by
  rw [activate] at ha
  split at ha
  · next hp =>
    split at ha
    · exact absurd ha (by simp)
    · obtain ⟨rfl, rfl⟩ := Prod.mk.inj (Option.some.inj ha)
      exact .inr (.inl ⟨hp.1, hp.2.2, rfl, rfl⟩)
  · next hp =>
    split at ha
    · next hs =>
      obtain ⟨rfl, rfl⟩ := Prod.mk.inj (Option.some.inj ha)
      refine .inr (.inr ⟨?_, rfl, rfl⟩)
      rintro (hactive | ⟨hpending, he⟩)
      · exact hs hactive
      · exact hp ⟨hpending, rfl, he⟩
    · next hs =>
      obtain ⟨rfl, rfl⟩ := Prod.mk.inj (Option.some.inj ha)
      exact .inl ⟨not_not.1 hs, rfl, rfl⟩

theorem claimInvitation_spec (h : PeopleFormed t db.users) (hl : db.lookup id = none)
    (ha : db.claimInvitation id (t.toLower id.verifiedEmail) true readOnly = some (db', s)) :
    db.Claimed id db' ∧ SameRoles t db s (standing t (db.people t) id) ∧
      ∀ u, s = .person u → u.status = .active := by
  rw [SameRoles, standing_free h hl]
  unfold claimInvitation at ha
  cases hfound : db.userByEmail (t.toLower id.verifiedEmail) with
  | none =>
    rw [hfound] at ha
    obtain ⟨rfl, rfl⟩ := Prod.mk.inj (Option.some.inj ha)
    exact ⟨.same, rfl, fun u hu => absurd hu (by simp)⟩
  | some u =>
    have hu := (userByEmail_eq_some h).1 hfound
    rw [hfound] at ha
    dsimp only at ha ⊢
    split at ha
    · next hs =>
      obtain ⟨rfl, rfl⟩ := Prod.mk.inj (Option.some.inj ha)
      have hr : u.status.refused = true := by simpa [UserStatus.refused] using hs
      simp only [hr]
      exact ⟨.same, rfl, fun u hu => absurd hu (by simp)⟩
    · next hs =>
      have hr : u.status.refused = false := by
        simpa [UserStatus.refused, Decidable.or_iff_not_imp_left] using hs
      simp only [hr]
      split at ha
      · next hinvited =>
        split at ha
        · exact absurd ha (by simp)
        · simp only [insertIdentity_of_free hl, lookup_link h hu.1 hl] at ha
          rw [if_neg (by simp [link])] at ha
          simp only [hinvited.2]
          split at ha
          · next hp =>
            obtain ⟨rfl, rfl⟩ := Prod.mk.inj (Option.some.inj ha)
            refine ⟨.linkedActive u hu.1 hl hp, rfl, fun v hv => ?_⟩
            obtain rfl := Standing.person.inj hv
            rfl
          · next hp =>
            obtain ⟨rfl, rfl⟩ := Prod.mk.inj (Option.some.inj ha)
            refine ⟨.linked u hu.1 hl, rfl, fun v hv => ?_⟩
            obtain rfl := Standing.person.inj hv
            exact Decidable.of_not_not fun hna => hs ⟨hna, hp⟩
      · next hinvited =>
        obtain ⟨rfl, rfl⟩ := Prod.mk.inj (Option.some.inj ha)
        have hno : u.invitedBy ≠ some id.issuer := fun he => hinvited ⟨rfl, he⟩
        simp only [hno]
        exact ⟨.same, rfl, fun u hu => absurd hu (by simp)⟩

theorem admission_spec (h : PeopleFormed t db.users)
    (ha : db.admission id (t.toLower id.verifiedEmail) true readOnly = some (db', s)) :
    db.Claimed id db' ∧ SameRoles t db s (standing t (db.people t) id) := by
  unfold admission at ha
  obtain ⟨⟨db₁, s₁⟩, hfound, hactivate⟩ := Option.bind_eq_some_iff.1 ha
  unfold identify at hfound
  split at hfound
  · next u hl =>
    obtain ⟨rfl, rfl⟩ := Prod.mk.inj (Option.some.inj hfound)
    have hu := (lookup_mem hl).1
    rw [SameRoles, standing_linked h hl]
    obtain ⟨hs, rfl, rfl⟩ | ⟨hs, he, rfl, rfl⟩ | ⟨hno, rfl, rfl⟩ := activate_spec hactivate
    · rw [if_pos (.inl hs)]
      exact ⟨.same, rfl⟩
    · rw [if_pos (.inr ⟨hs, he⟩)]
      exact ⟨.activated u hu hs, rfl⟩
    · rw [if_neg hno]
      exact ⟨.same, rfl⟩
  · next hl =>
    split at hfound
    · next hempty =>
      obtain ⟨rfl, rfl⟩ := Prod.mk.inj (Option.some.inj hfound)
      obtain ⟨rfl, rfl⟩ := Prod.mk.inj (Option.some.inj hactivate)
      have hnobody : db.userByEmail (t.toLower id.verifiedEmail) = none := by
        refine get_eq_none.2 fun u hu he => ?_
        exact (h.address u hu).2 (he.trans hempty)
      rw [SameRoles, standing_free h hl, hnobody]
      exact ⟨.same, rfl⟩
    · obtain ⟨hclaimed, hsame, hactive⟩ := claimInvitation_spec h hl hfound
      cases s₁ with
      | refused | guest =>
        obtain ⟨rfl, rfl⟩ := Prod.mk.inj (Option.some.inj hactivate)
        exact ⟨hclaimed, hsame⟩
      | person u =>
        have hs := hactive u rfl
        obtain ⟨-, rfl, rfl⟩ | ⟨hp, -⟩ | ⟨hno, -⟩ := activate_spec hactivate
        · exact ⟨hclaimed, hsame⟩
        · exact absurd (hs.symm.trans hp) (by decide)
        · exact absurd (.inl hs) hno

theorem admission_writes (id : Identity) (email : String) (claim : Bool) :
    (db.admission id email claim false).isSome = true := by
  have hactivate : ∀ db₁ s, (activate db₁ email claim false s).isSome = true := by
    intro db₁ s
    unfold activate
    split
    · simp only [Bool.false_eq_true, if_false]
      split
      · rfl
      · split <;> rfl
    · rfl
  have hidentify : (db.identify id email claim false).isSome = true := by
    unfold identify claimInvitation
    simp only [Bool.false_eq_true, if_false]
    grind
  obtain ⟨r, hr⟩ := Option.isSome_iff_exists.1 hidentify
  rw [admission, hr]
  exact hactivate r.1 r.2

/-! ## Roles that are due -/

theorem mem_grant (h : db.PolicyFormed t) {ids : List String} :
    perm ∈ (db.grant ids).permissions ↔
      perm ∈ permissions ∧ ∃ r ∈ db.roles, r.id ∈ ids ∧ perm ∈ r.permissions := by
  unfold grant
  rw [mem_canonical, List.mem_flatMap]
  refine and_congr_right fun _ => ⟨?_, ?_⟩
  · rintro ⟨id, hid, hperm⟩
    cases hr : db.role id with
    | none => exact absurd hperm (by simp [hr])
    | some r =>
      obtain ⟨hmem, rfl⟩ := (role_eq_some h).1 hr
      rw [hr] at hperm
      exact ⟨r, hmem, hid, hperm⟩
  · rintro ⟨r, hmem, hid, hperm⟩
    refine ⟨r.id, hid, ?_⟩
    rw [(role_eq_some h).2 ⟨hmem, rfl⟩]
    exact hperm

theorem nameOf_eq (h : db.PolicyFormed t) {id : String} (hid : db.HasRole id)
    (hr : r ∈ db.roles) : db.nameOf id = r.name ↔ id = r.id := by
  obtain ⟨q, hq, rfl⟩ := hid
  have hname : db.nameOf q.id = q.name := by
    rw [nameOf, (role_eq_some h).2 ⟨hq, rfl⟩]
    rfl
  rw [hname]
  exact ⟨fun he => congrArg AuthRole.id (h.roleName q hq r hr he),
    fun he => congrArg AuthRole.name (h.roleId q hq r hr he)⟩

theorem mem_rolesOf (h : db.PolicyFormed t) (hr : r ∈ db.roles) :
    r.name ∈ db.rolesOf t u ↔ r.id ∈ u.roles := by
  unfold rolesOf guardUser
  rw [List.mem_insertionSort, List.mem_filterMap]
  constructor
  · rintro ⟨id, hid, hname⟩
    obtain ⟨q, hrole, hn⟩ := Option.map_eq_some_iff.1 hname
    obtain ⟨hq, rfl⟩ := (role_eq_some h).1 hrole
    rw [← h.roleName q hq r hr hn]
    exact hid
  · intro hid
    exact ⟨r.id, hid, by rw [(role_eq_some h).2 ⟨hr, rfl⟩]; rfl⟩

theorem mem_issuersOf (h : db.PolicyFormed t) {b : AddressRow} {issuer : String} :
    issuer ∈ db.issuersOf kind b ∧ issuer ≠ "" ↔
      ∃ i ∈ db.bindingIssuers, i.kind = kind ∧ i.role = b.role ∧ i.value = b.value ∧
        i.issuer = issuer := by
  have hmem : issuer ∈ (db.bindingIssuers.filter fun i =>
        i.kind = kind && i.role = b.role && i.value = b.value).map IssuerRow.issuer ↔
      ∃ i ∈ db.bindingIssuers, i.kind = kind ∧ i.role = b.role ∧ i.value = b.value ∧
        i.issuer = issuer := by
    simp [and_assoc]
  rw [← hmem]
  unfold issuersOf
  split
  · next hnil =>
    rw [hnil]
    simp
  · next hcons =>
    refine and_iff_left_of_imp fun hissuer => ?_
    obtain ⟨i, hi, -, -, -, rfl⟩ := hmem.1 hissuer
    exact h.issuer i hi

/-- The identity's provider vouches for the binding. -/
def Vouched (db : AuthDb) (id : Identity) (kind : BindingKind) (b : AddressRow) : Prop :=
  ∃ i ∈ db.bindingIssuers, i.kind = kind ∧ i.role = b.role ∧ i.value = b.value ∧
    i.issuer = id.issuer

/-- The rows of the bindings name this identity, and the role. -/
def RowBinds (t : Texts) (db : AuthDb) (id : Identity) (rid : String) : Prop :=
  (∃ b ∈ db.subjectBindings, b.issuer = id.issuer ∧ b.subject = id.subject ∧ b.role = rid) ∨
    (t.toLower id.verifiedEmail ≠ "" ∧ ∃ b ∈ db.emailBindings,
      b.value = t.toLower id.verifiedEmail ∧ db.Vouched id .email b ∧ b.role = rid) ∨
    ∃ b ∈ db.domainBindings, domainOf (t.toLower id.verifiedEmail) = some b.value ∧
      db.Vouched id .emailDomain b ∧ b.role = rid

theorem vouches_iff {b : AddressRow} :
    db.vouches id kind b = true ↔ db.Vouched id kind b := by
  simp [vouches, Vouched, and_assoc]

theorem mem_held {rid : String} :
    rid ∈ s.held ↔ ∃ u, s = .person u ∧ rid ∈ u.roles := by
  cases s with
  | refused | guest => simp [Standing.held]
  | person u => simp [Standing.held]

theorem domainOf_empty : domainOf "" = none := by
  unfold domainOf
  exact if_neg (by simp)

theorem mem_dueRoles {rid : String} :
    rid ∈ db.dueRoles id (t.toLower id.verifiedEmail) d s ↔
      d = some rid ∨ db.RowBinds t id rid ∨ ∃ u, s = .person u ∧ rid ∈ u.roles := by
  have hrows : (rid ∈ db.subjectRoles id ∨ rid ∈ if t.toLower id.verifiedEmail = "" then [] else
        db.emailRoles id (t.toLower id.verifiedEmail) ++
          db.domainRoles id (t.toLower id.verifiedEmail)) ↔ db.RowBinds t id rid := by
    refine or_congr ?_ ?_
    · simp [subjectRoles, and_assoc]
    · by_cases hempty : t.toLower id.verifiedEmail = ""
      · rw [if_pos hempty, hempty, domainOf_empty]
        simp
      · rw [if_neg hempty, List.mem_append]
        refine or_congr ?_ ?_
        · simp [emailRoles, hempty, vouches_iff, and_assoc]
        · simp [domainRoles, vouches_iff, and_assoc]
  unfold dueRoles
  rw [List.mem_append, List.mem_append, List.mem_append, mem_held, Option.mem_toList, ← hrows]
  simp only [or_assoc]

theorem addressBinds_iff (h : db.PolicyFormed t) {rows : List AddressRow}
    {load : AddressRow → String → Binding} (names : AddressRow → Prop) (hr : r ∈ db.roles)
    (hrole : ∀ b ∈ rows, db.HasRole b.role)
    (hload : ∀ b i, (load b i).issuer = i ∧ (load b i).role = db.nameOf b.role ∧
      ((load b i).matches t id = true ↔ names b ∧ i = id.issuer)) :
    (∃ c ∈ rows.flatMap (fun b => (db.issuersOf kind b).map (load b)),
      c.issuer ≠ "" ∧ c.role = r.name ∧ c.matches t id = true) ↔
    ∃ b ∈ rows, names b ∧ db.Vouched id kind b ∧ b.role = r.id := by
  constructor
  · rintro ⟨c, hc, hissuer, hname, hm⟩
    obtain ⟨b, hb, hc⟩ := List.mem_flatMap.1 hc
    obtain ⟨i, hi, rfl⟩ := List.mem_map.1 hc
    obtain ⟨hli, hlr, hlm⟩ := hload b i
    obtain ⟨hnames, rfl⟩ := hlm.1 hm
    rw [hli] at hissuer
    refine ⟨b, hb, hnames, (mem_issuersOf h).1 ⟨hi, hissuer⟩, ?_⟩
    exact (nameOf_eq h (hrole b hb) hr).1 (hlr.symm.trans hname)
  · rintro ⟨b, hb, hnames, hv, hbr⟩
    obtain ⟨hi, hissuer⟩ := (mem_issuersOf h).2 hv
    obtain ⟨hli, hlr, hlm⟩ := hload b id.issuer
    refine ⟨load b id.issuer, ?_, ?_, ?_, hlm.2 ⟨hnames, rfl⟩⟩
    · exact List.mem_flatMap.2 ⟨b, hb, List.mem_map.2 ⟨_, hi, rfl⟩⟩
    · rw [hli]
      exact hissuer
    · rw [hlr]
      exact (nameOf_eq h (hrole b hb) hr).2 hbr

theorem binds_iff (h : db.PolicyFormed t) (hp : db.loadPolicy = some p) (hr : r ∈ db.roles) :
    p.Binds t id r.name ↔ db.RowBinds t id r.id := by
  obtain ⟨d, -, rfl⟩ := Option.map_eq_some_iff.1 hp
  unfold Policy.Binds loadBindings
  simp only [List.mem_append, or_and_right, exists_or, or_assoc]
  refine or_congr ?_ (or_congr ?_ ?_)
  · constructor
    · rintro ⟨c, hc, -, hname, hm⟩
      obtain ⟨b, hb, rfl⟩ := List.mem_map.1 hc
      obtain ⟨hissuer, hsubject⟩ := Prod.mk.inj ((Binding.matches_subject rfl).1 hm)
      exact ⟨b, hb, hissuer, hsubject, (nameOf_eq h (h.subject b hb).1 hr).1 hname⟩
    · rintro ⟨b, hb, hissuer, hsubject, hrole⟩
      refine ⟨_, List.mem_map.2 ⟨b, hb, rfl⟩, (h.subject b hb).2.1, ?_, ?_⟩
      · exact (nameOf_eq h (h.subject b hb).1 hr).2 hrole
      · exact (Binding.matches_subject rfl).2 (congrArg₂ Prod.mk hissuer hsubject)
  · rw [addressBinds_iff h (fun b => t.toLower id.verifiedEmail ≠ "" ∧
      b.value = t.toLower id.verifiedEmail) hr (fun b hb => (h.email b hb).1)]
    · constructor
      · rintro ⟨b, hb, ⟨hempty, hvalue⟩, hrest⟩
        exact ⟨hempty, b, hb, hvalue, hrest⟩
      · rintro ⟨hempty, b, hb, hvalue, hrest⟩
        exact ⟨b, hb, ⟨hempty, hvalue⟩, hrest⟩
    · intro b i
      exact ⟨rfl, rfl, (Binding.matches_email rfl).trans and_assoc.symm⟩
  · rw [addressBinds_iff h (fun b => domainOf (t.toLower id.verifiedEmail) = some b.value) hr
      (fun b hb => (h.domain b hb).1)]
    intro b i
    exact ⟨rfl, rfl, Binding.matches_domain rfl⟩

theorem mem_rolePerms (h : db.PolicyFormed t) (hp : db.loadPolicy = some p)
    {name : String} : perm ∈ p.rolePerms name ↔
      perm ∈ permissions ∧ ∃ r ∈ db.roles, r.name = name ∧ perm ∈ r.permissions := by
  obtain ⟨d, -, rfl⟩ := Option.map_eq_some_iff.1 hp
  unfold Policy.rolePerms
  simp only [List.find?_map]
  constructor
  · intro hperm
    cases hr : db.roles.find? fun r => r.name = name with
    | none => exact absurd hperm (by simp [hr])
    | some r =>
      have hname := List.find?_some hr
      rw [show db.roles.find? ((fun r : Role => decide (r.name = name)) ∘ fun r : AuthRole =>
        ⟨r.name, r.description, canonical r.permissions⟩) = some r from hr] at hperm
      obtain ⟨hknown, hperm⟩ := mem_canonical.1 hperm
      exact ⟨hknown, r, List.mem_of_find?_eq_some hr, of_decide_eq_true hname, hperm⟩
  · rintro ⟨hknown, r, hr, rfl, hperm⟩
    have hfind : db.roles.find? (fun q => q.name = r.name) = some r :=
      (get_eq_some h.roleName).2 ⟨hr, rfl⟩
    rw [show db.roles.find? ((fun q : Role => decide (q.name = r.name)) ∘ fun q : AuthRole =>
      ⟨q.name, q.description, canonical q.permissions⟩) = some r from hfind]
    exact mem_canonical.2 ⟨hknown, hperm⟩

theorem due_iff (h : db.PolicyFormed t) (hp : db.loadPolicy = some p) (hd : db.settings = some d)
    {s' : Standing GuardUser} (hs : SameRoles t db s s') (hno : s ≠ .refused)
    (hr : r ∈ db.roles) :
    r.id ∈ db.dueRoles id (t.toLower id.verifiedEmail) d s ↔ p.Due t id s' r.name := by
  have hno' : s' ≠ .refused := by
    rintro rfl
    cases s with
    | refused => exact hno rfl
    | guest | person u => exact absurd hs (by simp [SameRoles, Standing.map])
  have hdefault : d = some r.id ↔ p.defaultRole = some r.name := by
    have hload : p.defaultRole = d.bind fun id => (db.role id).map AuthRole.name := by
      obtain ⟨d', hd', rfl⟩ := Option.map_eq_some_iff.1 hp
      rw [hd] at hd'
      rw [Option.some.inj hd']
    rw [hload]
    cases d with
    | none => simp
    | some rid =>
      obtain ⟨q, hq, rfl⟩ := h.default rid hd
      rw [Option.bind_some, (role_eq_some h).2 ⟨hq, rfl⟩, Option.map_some, Option.some_inj,
        Option.some_inj]
      exact ⟨fun he => congrArg AuthRole.name (h.roleId q hq r hr he),
        fun he => congrArg AuthRole.id (h.roleName q hq r hr he)⟩
  have hheld : (∃ u, s = .person u ∧ r.id ∈ u.roles) ↔
      ∃ u, s' = .person u ∧ r.name ∈ u.roles := by
    cases s with
    | refused => exact absurd rfl hno
    | guest =>
      cases s' with
      | person u => exact absurd hs (by simp [SameRoles, Standing.map])
      | refused | guest => simp
    | person u =>
      cases s' with
      | person u' =>
        have hroles : db.rolesOf t u = u'.roles := Standing.person.inj hs
        simp only [Standing.person.injEq, exists_eq_left', ← hroles, mem_rolesOf h hr]
      | refused | guest => exact absurd hs (by simp [SameRoles, Standing.map])
  rw [mem_dueRoles, hdefault, ← binds_iff h hp hr, hheld]
  exact (and_iff_right hno').symm

theorem mem_decision (h : db.PolicyFormed t) (hp : db.loadPolicy = some p)
    (hd : db.settings = some d) {s' : Standing GuardUser} (hs : SameRoles t db s s') :
    perm ∈ (db.decision id (t.toLower id.verifiedEmail) d s).permissions ↔
      p.Grants t id s' perm := by
  by_cases hno : s = .refused
  · subst hno
    have hs' : s' = .refused := by
      cases s' with
      | refused => rfl
      | guest | person u => exact absurd hs (by simp [SameRoles, Standing.map])
    constructor
    · intro hperm
      exact absurd hperm (by simp [decision])
    · rintro ⟨name, ⟨hne, -⟩, -⟩
      exact absurd hs' hne
  · have hgrant : db.decision id (t.toLower id.verifiedEmail) d s =
        db.grant (db.dueRoles id (t.toLower id.verifiedEmail) d s) := by
      cases s with
      | refused => exact absurd rfl hno
      | guest | person u => rfl
    rw [hgrant, mem_grant h]
    constructor
    · rintro ⟨hknown, r, hr, hdue, hperm⟩
      exact ⟨r.name, (due_iff h hp hd hs hno hr).1 hdue,
        (mem_rolePerms h hp).2 ⟨hknown, r, hr, rfl, hperm⟩⟩
    · rintro ⟨name, hdue, hrole⟩
      obtain ⟨hknown, r, hr, rfl, hperm⟩ := (mem_rolePerms h hp).1 hrole
      exact ⟨hknown, r, hr, (due_iff h hp hd hs hno hr).2 hdue, hperm⟩

theorem resolvePolicy_spec (h : PeopleFormed t db.users) (id : Identity) :
    (db.settings = none ∧ db.resolvePolicy t id true = (none, db)) ∨
      ∃ d s db', db.settings = some d ∧ db.Claimed id db' ∧
        SameRoles t db s (standing t (db.people t) id) ∧
        db.resolvePolicy t id true =
          (some (db.decision id (t.toLower id.verifiedEmail) d s), db') := by
  have hpass : ∀ readOnly d r, db.settings = some d →
      db.evaluatePolicy t id true readOnly = some r →
      ∃ s db', db.Claimed id db' ∧ SameRoles t db s (standing t (db.people t) id) ∧
        r = (some (db.decision id (t.toLower id.verifiedEmail) d s), db') := by
    intro readOnly d r hd hr
    unfold evaluatePolicy at hr
    rw [hd] at hr
    obtain ⟨⟨db', s⟩, ha, rfl⟩ := Option.map_eq_some_iff.1 hr
    obtain ⟨hclaimed, hsame⟩ := admission_spec h ha
    refine ⟨s, db', hclaimed, hsame, ?_⟩
    obtain ⟨users, rfl⟩ := hclaimed.withUsers
    rfl
  cases hd : db.settings with
  | none =>
    refine .inl ⟨rfl, ?_⟩
    unfold resolvePolicy evaluatePolicy
    rw [hd]
  | some d =>
    refine .inr ?_
    unfold resolvePolicy
    cases hread : db.evaluatePolicy t id true true with
    | some r =>
      obtain ⟨s, db', hclaimed, hsame, rfl⟩ := hpass true d r hd hread
      exact ⟨d, s, db', rfl, hclaimed, hsame, rfl⟩
    | none =>
      have hsome : (db.evaluatePolicy t id true false).isSome = true := by
        unfold evaluatePolicy
        rw [hd]
        simp only [Option.isSome_map]
        exact admission_writes id _ true
      obtain ⟨r, hr⟩ := Option.isSome_iff_exists.1 hsome
      obtain ⟨s, db', hclaimed, hsame, rfl⟩ := hpass false d r hd hr
      exact ⟨d, s, db', rfl, hclaimed, hsame, by rw [hr]; rfl⟩

theorem mem_authorize (h : db.WellFormed t) {wide : List String} : perm ∈ db.authorize t wide id ↔
      May t wide db.loadPolicy (db.people t) id perm := by
  unfold authorize
  obtain ⟨hnone, hr⟩ | ⟨d, s, db', hd, -, hsame, hr⟩ := resolvePolicy_spec h.people id
  · rw [hr]
    unfold May loadPolicy
    rw [hnone]
    rfl
  · have hp : ∃ p, db.loadPolicy = some p := by
      unfold loadPolicy
      rw [hd]
      exact ⟨_, rfl⟩
    obtain ⟨p, hp⟩ := hp
    rw [hr]
    unfold May
    rw [hp]
    exact mem_decision h.policy hp hd hsame

end AuthDb

end LocalBase.Auth
