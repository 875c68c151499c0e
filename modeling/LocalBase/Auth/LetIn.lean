import LocalBase.Auth.Lockout

/-!
# Whom a change lets in

What a change of the people gives an identity comes from the roles that its record
holds afterwards or, where the identity was kept out before, from what the policy has
for anybody. A statement on one record decides about whoever is linked to it and about
its address, and about nobody else.
-/

namespace LocalBase.Auth

open Records

/-! ## Under one policy -/

namespace Policy

variable {t : Texts} {p : Policy} {id : Identity} {perm : String}

/-- What the policy has for whoever is not kept out. -/
def Opens (t : Texts) (p : Policy) (id : Identity) (perm : String) : Prop :=
  ∃ name, (p.defaultRole = some name ∨ p.Binds t id name) ∧ perm ∈ p.rolePerms name

/-- The role gives nothing but what these are. -/
def Within (p : Policy) (holds : List String) (name : String) : Prop :=
  ∀ perm ∈ p.rolePerms name, perm ∈ holds

theorem Opens.grants {s : Standing GuardUser} (h : p.Opens t id perm) (hs : s ≠ .refused) :
    p.Grants t id s perm := by
  obtain ⟨name, hdefault | hbinds, hin⟩ := h
  · exact ⟨name, ⟨hs, .inl hdefault⟩, hin⟩
  · exact ⟨name, ⟨hs, .inr (.inl hbinds)⟩, hin⟩

theorem gained {s s' : Standing GuardUser} (hnew : p.Grants t id s' perm)
    (hold : ¬ p.Grants t id s perm) :
    (∃ u, s' = .person u ∧ ∃ name ∈ u.roles, perm ∈ p.rolePerms name) ∨
      (s = .refused ∧ s' ≠ .refused ∧ p.Opens t id perm) := by
  have hopen : p.Opens t id perm → s = .refused := fun ho =>
    Decidable.of_not_not fun hs => hold (ho.grants hs)
  obtain ⟨name, ⟨hs', hdefault | hbinds | ⟨u, hu, hname⟩⟩, hin⟩ := hnew
  · have ho : p.Opens t id perm := ⟨name, .inl hdefault, hin⟩
    exact .inr ⟨hopen ho, hs', ho⟩
  · have ho : p.Opens t id perm := ⟨name, .inr hbinds, hin⟩
    exact .inr ⟨hopen ho, hs', ho⟩
  · exact .inl ⟨u, hu, name, hname, hin⟩

theorem opens_within {holds : List String} : (∀ perm, p.Opens t id perm → perm ∈ holds) ↔
    (∀ name, p.defaultRole = some name → p.Within holds name) ∧
      ∀ b ∈ p.bindings, b.issuer ≠ "" → b.matches t id = true → p.Within holds b.role := by
  constructor
  · intro h
    refine ⟨fun name hname perm hin => h perm ⟨name, .inl hname, hin⟩, ?_⟩
    intro b hb hissuer hm perm hin
    exact h perm ⟨b.role, .inr ⟨b, hb, hissuer, rfl, hm⟩, hin⟩
  · rintro ⟨hdefault, hbinds⟩ perm ⟨name, hname | ⟨b, hb, hissuer, rfl, hm⟩, hin⟩
    · exact hdefault name hname perm hin
    · exact hbinds b hb hissuer hm perm hin

end Policy

namespace AuthDb

variable {t : Texts} {db db' : AuthDb} {wide holds : List String} {p : Policy} {id : Identity}

/-- Nobody can do anything new but what these are. -/
def GivesWithin (t : Texts) (wide holds : List String) (db db' : AuthDb) : Prop :=
  ∀ id perm, perm ∈ db'.authorize t wide id → perm ∉ db.authorize t wide id → perm ∈ holds

/-- Who was kept out, and is not any more. -/
def LetIn (t : Texts) (db db' : AuthDb) (id : Identity) : Prop :=
  standing t (db.people t) id = .refused ∧ standing t (db'.people t) id ≠ .refused

/-- Where the people change, and each new record's roles are within `holds`, it depends on who is
let in. -/
theorem givesWithin_iff (h : db.WellFormed t) (h' : db'.WellFormed t)
    (hp : db.loadPolicy = some p) (hp' : db'.loadPolicy = some p)
    (hheld : ∀ id u, standing t (db'.people t) id = .person u →
      standing t (db.people t) id ≠ .person u → ∀ name ∈ u.roles, p.Within holds name) :
    GivesWithin t wide holds db db' ↔
      ∀ id, LetIn t db db' id → ∀ perm, p.Opens t id perm → perm ∈ holds := by
  have hbefore : ∀ id perm, perm ∈ db.authorize t wide id ↔
      p.Grants t id (standing t (db.people t) id) perm := fun id perm => by
    rw [mem_authorize h, hp]
    rfl
  have hafter : ∀ id perm, perm ∈ db'.authorize t wide id ↔
      p.Grants t id (standing t (db'.people t) id) perm := fun id perm => by
    rw [mem_authorize h', hp']
    rfl
  constructor
  · rintro hg id ⟨hs, hs'⟩ perm hopen
    refine hg id perm ((hafter id perm).2 (hopen.grants hs')) fun hold => ?_
    rw [hbefore, hs] at hold
    exact not_grants_refused hold
  · intro hlet id perm hnew hold
    rw [hafter] at hnew
    rw [hbefore] at hold
    obtain ⟨u, hu, name, hname, hin⟩ | ⟨hs, hs', hopen⟩ := Policy.gained hnew hold
    · refine hheld id u hu (fun hs => hold ?_) name hname perm hin
      rw [hs, ← hu]
      exact hnew
    · exact hlet id ⟨hs, hs'⟩ perm hopen

theorem givesWithin_of_none (h : db.WellFormed t) (h' : db'.WellFormed t)
    (hp : db.loadPolicy = none) (hp' : db'.loadPolicy = none) :
    GivesWithin t wide holds db db' := by
  intro id perm hnew hold
  rw [mem_authorize h', hp'] at hnew
  rw [mem_authorize h, hp] at hold
  exact absurd hnew hold

/-! ## One record changes -/

/-- What a statement on a record leaves as it was. -/
structure Keeps (f : AuthUser → AuthUser) : Prop where
  id : ∀ u, (f u).id = u.id
  email : ∀ u, (f u).email = u.email
  identities : ∀ u, (f u).identities = u.identities
  invited : ∀ u, u.invitedBy ≠ some "" → (f u).invitedBy ≠ some ""

section

variable {f : AuthUser → AuthUser} {u : AuthUser}

theorem lookup_updateUser (hf : Keeps f) (uid : String) :
    (db.updateUser uid f).lookup id =
      (db.lookup id).map fun u => if u.id = uid then f u else u :=
  find?_modify fun a => by rw [hf.identities]

theorem userByEmail_updateUser (hf : Keeps f) (uid email : String) :
    (db.updateUser uid f).userByEmail email =
      (db.userByEmail email).map fun u => if u.id = uid then f u else u :=
  find?_modify fun a => by rw [hf.email]

theorem Keeps.people (hf : Keeps f) (h : PeopleFormed t db.users) (uid : String) :
    PeopleFormed t (db.updateUser uid f).users :=
  h.modify hf.id hf.email hf.identities hf.invited

theorem standing_updated_linked (h : PeopleFormed t db.users) (hf : Keeps f)
    (hl : db.lookup id = some u) :
    standing t ((db.updateUser u.id f).people t) id =
      if (f u).status = .active ∨
          ((f u).status = .pending ∧ t.toLower id.verifiedEmail = u.email) then
        .person (db.guardUser t (f u))
      else .refused := by
  have hl' : (db.updateUser u.id f).lookup id = some (f u) := by
    rw [lookup_updateUser hf, hl, Option.map_some, if_pos rfl]
  rw [standing_linked (hf.people h u.id) hl', hf.email]
  rfl

theorem standing_updated_free (h : PeopleFormed t db.users) (hf : Keeps f) (hu : u ∈ db.users)
    (hl : db.lookup id = none) (he : t.toLower id.verifiedEmail = u.email) :
    standing t ((db.updateUser u.id f).people t) id =
      if (f u).status.refused then .refused
      else if (f u).invitedBy = some id.issuer then .person (db.guardUser t (f u))
      else .guest := by
  have hl' : (db.updateUser u.id f).lookup id = none := by
    rw [lookup_updateUser hf, hl, Option.map_none]
  have hrecord : (db.updateUser u.id f).userByEmail (t.toLower id.verifiedEmail) =
      some (f u) := by
    rw [userByEmail_updateUser hf, (userByEmail_eq_some h).2 ⟨hu, he.symm⟩, Option.map_some,
      if_pos rfl]
  rw [standing_free (hf.people h u.id) hl', hrecord]
  rfl

theorem standing_updated (h : PeopleFormed t db.users) (hf : Keeps f) (hu : u ∈ db.users)
    (id : Identity) :
    db.lookup id = some u ∨ (db.lookup id = none ∧ t.toLower id.verifiedEmail = u.email) ∨
      standing t ((db.updateUser u.id f).people t) id = standing t (db.people t) id := by
  have hother : ∀ v ∈ db.users, v ≠ u → v.id ≠ u.id := fun v hv hne he => hne (h.id v hv u hu he)
  cases hl : db.lookup id with
  | some v =>
    by_cases hvu : v = u
    · exact .inl (congrArg some hvu)
    · have hl' : (db.updateUser u.id f).lookup id = some v := by
        rw [lookup_updateUser hf, hl, Option.map_some,
          if_neg (hother v (lookup_mem hl).1 hvu)]
      refine .inr (.inr ?_)
      rw [standing_linked (hf.people h u.id) hl', standing_linked h hl]
      rfl
  | none =>
    have hl' : (db.updateUser u.id f).lookup id = none := by
      rw [lookup_updateUser hf, hl, Option.map_none]
    refine .inr ?_
    by_cases he : t.toLower id.verifiedEmail = u.email
    · exact .inl ⟨rfl, he⟩
    · refine .inr ?_
      rw [standing_free (hf.people h u.id) hl', standing_free h hl, userByEmail_updateUser hf]
      cases hv : db.userByEmail (t.toLower id.verifiedEmail) with
      | none => rfl
      | some v =>
        obtain ⟨hmem, hve⟩ := (userByEmail_eq_some h).1 hv
        have hne : v ≠ u := fun hvu => he (hve.symm.trans (congrArg AuthUser.email hvu))
        rw [Option.map_some, if_neg (hother v hmem hne)]
        rfl

/-- A linked identity signs in as a person of this status, with their own address or another. -/
def Admits (t : Texts) (id : Identity) (email : String) (s : UserStatus) : Prop :=
  s = .active ∨ (s = .pending ∧ t.toLower id.verifiedEmail = email)

theorem person_or_refused {c : Prop} [Decidable c] {g : GuardUser} :
    (if c then Standing.person g else .refused) = .refused ↔ ¬ c := by
  split
  · next hc => simp [hc]
  · next hc => simp [hc]

theorem refused_or_open {r : Bool} {c : Prop} [Decidable c] {g : GuardUser} :
    (if r then Standing.refused else if c then .person g else .guest) = .refused ↔ r = true := by
  cases r with
  | true => simp
  | false =>
    by_cases hc : c
    · simp [hc]
    · simp [hc]

theorem letIn_updated (h : PeopleFormed t db.users) (hf : Keeps f) (hu : u ∈ db.users) :
    LetIn t db (db.updateUser u.id f) id ↔
      (db.lookup id = some u ∧ ¬ Admits t id u.email u.status ∧ Admits t id u.email (f u).status) ∨
        (db.lookup id = none ∧ t.toLower id.verifiedEmail = u.email ∧ u.status.refused = true ∧
          (f u).status.refused = false) := by
  have hlinked : db.lookup id = some u → (LetIn t db (db.updateUser u.id f) id ↔
      ¬ Admits t id u.email u.status ∧ Admits t id u.email (f u).status) := by
    intro hl
    rw [LetIn, standing_updated_linked h hf hl, standing_linked h hl, Ne, person_or_refused,
      person_or_refused, not_not]
    rfl
  have hfree : db.lookup id = none ∧ t.toLower id.verifiedEmail = u.email →
      (LetIn t db (db.updateUser u.id f) id ↔
        u.status.refused = true ∧ (f u).status.refused = false) := by
    rintro ⟨hl, he⟩
    rw [LetIn, standing_updated_free h hf hu hl he, standing_free h hl,
      (userByEmail_eq_some h).2 ⟨hu, he.symm⟩]
    exact and_congr refused_or_open (by rw [Ne, refused_or_open, Bool.not_eq_true])
  constructor
  · intro hlet
    obtain hl | hl | hsame := standing_updated h hf hu id
    · exact .inl ⟨hl, (hlinked hl).1 hlet⟩
    · exact .inr ⟨hl.1, hl.2, (hfree hl).1 hlet⟩
    · exact absurd (hsame.trans hlet.1) hlet.2
  · rintro (⟨hl, hs⟩ | ⟨hl, he, hs⟩)
    · exact (hlinked hl).2 hs
    · exact (hfree ⟨hl, he⟩).2 hs

theorem person_updated (h : PeopleFormed t db.users) (hf : Keeps f) (hu : u ∈ db.users)
    {g : GuardUser} (hnew : standing t ((db.updateUser u.id f).people t) id = .person g)
    (hold : standing t (db.people t) id ≠ .person g) :
    g = db.guardUser t (f u) ∧ (f u).status.refused = false := by
  obtain hl | ⟨hl, he⟩ | hsame := standing_updated h hf hu id
  · rw [standing_updated_linked h hf hl] at hnew
    split at hnew
    · next hs =>
      refine ⟨(Standing.person.inj hnew).symm, ?_⟩
      obtain hs | ⟨hs, -⟩ := hs
      · rw [hs]
        rfl
      · rw [hs]
        rfl
    · exact absurd hnew (by simp)
  · rw [standing_updated_free h hf hu hl he] at hnew
    split at hnew
    · exact absurd hnew (by simp)
    · next hs =>
      split at hnew
      · exact ⟨(Standing.person.inj hnew).symm, by simpa using hs⟩
      · exact absurd hnew (by simp)
  · exact absurd (hsame.symm.trans hnew) hold

theorem not_letIn (h : PeopleFormed t db.users) (hf : Keeps f) (hu : u ∈ db.users)
    (hs : (f u).status = u.status ∨ (f u).status.refused = true) :
    ¬ LetIn t db (db.updateUser u.id f) id := by
  rw [letIn_updated h hf hu]
  obtain hs | hs := hs
  · rw [hs]
    rintro (⟨-, hno, hyes⟩ | ⟨-, -, hr, hr'⟩)
    · exact hno hyes
    · exact absurd (hr.symm.trans hr') (by simp)
  · rintro (⟨-, -, hyes | ⟨hyes, -⟩⟩ | ⟨-, -, -, hr'⟩)
    · exact absurd hs (by simp [hyes, UserStatus.refused])
    · exact absurd hs (by simp [hyes, UserStatus.refused])
    · exact absurd (hs.symm.trans hr') (by simp)

/-- A statement on one record gives what its roles do, and what the policy opens to whom it
lets in. -/
theorem givesWithin_updated (h : db.WellFormed t) (h' : (db.updateUser u.id f).WellFormed t)
    (hf : Keeps f) (hu : u ∈ db.users) (hp : db.loadPolicy = some p)
    (hheld : (f u).status.refused = false → ∀ name ∈ db.rolesOf t (f u), p.Within holds name) :
    GivesWithin t wide holds db (db.updateUser u.id f) ↔
      ∀ id, LetIn t db (db.updateUser u.id f) id → ∀ perm, p.Opens t id perm → perm ∈ holds := by
  refine givesWithin_iff h h' hp hp fun id g hnew hold name hname => ?_
  obtain ⟨rfl, hs⟩ := person_updated h.people hf hu hnew hold
  exact hheld hs name hname

end

/-! ## Somebody new -/

theorem standing_invited {w : AuthUser} (h : PeopleFormed t db.users)
    (h' : PeopleFormed t (db.users ++ [w])) (hlinks : w.identities = [])
    (hs : w.status = .pending) (id : Identity) :
    let db' := { db with users := db.users ++ [w] }
    standing t (db'.people t) id = standing t (db.people t) id ∨
      (standing t (db.people t) id = .guest ∧
        standing t (db'.people t) id = .person (db.guardUser t w)) := by
  intro db'
  have hlookup : db'.lookup id = db.lookup id := by
    show (db.users ++ [w]).find? _ = _
    rw [List.find?_append, List.find?_singleton, hlinks]
    simp [lookup]
  cases hl : db.lookup id with
  | some v =>
    rw [hl] at hlookup
    rw [standing_linked h' hlookup, standing_linked h hl]
    exact .inl rfl
  | none =>
    rw [hl] at hlookup
    rw [standing_free h' hlookup, standing_free h hl]
    have hrecord : db'.userByEmail (t.toLower id.verifiedEmail) =
        (db.userByEmail (t.toLower id.verifiedEmail)).or
          (if w.email = t.toLower id.verifiedEmail then some w else none) := by
      show (db.users ++ [w]).find? _ = _
      rw [List.find?_append, List.find?_singleton]
      simp [userByEmail, Records.get]
    rw [hrecord]
    cases hv : db.userByEmail (t.toLower id.verifiedEmail) with
    | some v => exact .inl rfl
    | none =>
      have hopen : w.status.refused = false := by
        rw [hs]
        rfl
      rw [Option.none_or]
      by_cases he : w.email = t.toLower id.verifiedEmail
      · by_cases hi : w.invitedBy = some id.issuer
        · refine .inr ?_
          simp only [he, hopen, hi, if_true, Bool.false_eq_true, if_false]
          exact ⟨trivial, rfl⟩
        · exact .inl (by simp [he, hopen, hi])
      · rw [if_neg he]
        exact .inl rfl

end AuthDb

end LocalBase.Auth
