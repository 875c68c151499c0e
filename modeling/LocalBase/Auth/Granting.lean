import LocalBase.Auth.LetIn

/-!
# What a change lets somebody do

Who changes access is to give nobody more than they hold. The check of a person reads
what the person resolves to, and that is less than all that the change lets in: a
removed record that is invited again is not looked at, nor is the binding of a subject
that is linked to nobody yet, nor one of another address that a linked identity can
bring.
-/

namespace LocalBase.Auth

open Fuel Machine Records

namespace AuthDb

variable {t : Texts} {db db' : AuthDb} {wide holds : List String} {p : Policy} {id : Identity}

/-! ## What the checks have seen -/

section

variable {cfg : Option (BrowserAccess t)} {keys : List ApiKey} {now : Int} {email : String}
  {u : AuthUser} {roles ids : List String} {name : String}

theorem mem_names (h : db.PolicyFormed t) (hids : db.roleIds roles = .ok ids)
    (hu : u.roles = ids) (hname : name ∈ db.rolesOf t u) : name ∈ roles := by
  unfold rolesOf guardUser at hname
  obtain ⟨rid, hrid, hn⟩ := List.mem_filterMap.1 ((List.mem_insertionSort _).1 hname)
  obtain ⟨r, hr, rfl⟩ := Option.map_eq_some_iff.1 hn
  obtain ⟨hmem, rfl⟩ := (role_eq_some h).1 hr
  exact ((roleIds_ok h hids).2.1 r hmem).1 (hu ▸ hrid)

theorem role_loadGuard (hp : db.loadPolicy = some p) (name : String) :
    ((db.loadGuard cfg keys now).role name).getD [] = p.rolePerms name := by
  unfold Guard.role
  rw [show (db.loadGuard cfg keys now).policy = some p from hp]
  rfl

theorem checkGrantRoles_ok (h : db.PolicyFormed t) (hp : db.loadPolicy = some p)
    (hc : (db.loadGuard cfg keys now).checkGrantRoles holds roles = .ok ()) :
    ∀ name ∈ roles, p.Within holds name := by
  intro name hname perm hin
  refine needs_ok hc perm (List.mem_flatMap.2 ⟨name, hname, ?_⟩) ((loaded h hp).gives hin).1
  rw [role_loadGuard hp]
  exact hin

/-- The binding is looked at for this person. -/
def InReach (u : AuthUser) (b : Binding) : Prop :=
  match b.kind with
  | .email => b.email = u.email
  | .emailDomain => b.domain = afterAt u.email
  | .subject => (b.issuer, b.subject) ∈ u.identities
  | .other _ => False

theorem checkUser_ok (h : db.WellFormed t) (hp : db.loadPolicy = some p)
    (hc : (db.loadGuard cfg keys now).checkUser t holds email = .ok ()) (hu : u ∈ db.users)
    (he : u.email = t.toLower email) (hs : u.status ≠ .removed) :
    (∀ name ∈ db.rolesOf t u, p.Within holds name) ∧
      (∀ name, p.defaultRole = some name → p.Within holds name) ∧
      ∀ b ∈ p.bindings, InReach u b → p.Within holds b.role := by
  have hreach : ∀ perm ∈ (db.loadGuard cfg keys now).userReach (db.guardUser t u),
      perm ∈ permissions → perm ∈ holds := by
    unfold Guard.checkUser at hc
    rw [user_loadGuard h.people, (userByEmail_eq_some h.people).2 ⟨hu, he⟩] at hc
    refine missing_eq_nil.1 (Decidable.of_not_not fun hno => ?_)
    rw [Option.map_some] at hc
    exact absurd ((if_pos ⟨hs, hno⟩).symm.trans hc) (by simp)
  have hname : ∀ name, name ∈ db.rolesOf t u ++ p.defaultRole.toList ++
      (p.bindings.filter fun b =>
        match b.kind with
        | .email => b.email = t.toLower u.email
        | .emailDomain => b.domain = afterAt (t.toLower u.email)
        | .subject => (b.issuer, b.subject) ∈ u.identities
        | .other _ => false).map Binding.role → p.Within holds name := by
    intro name hname perm hin
    refine hreach perm ?_ ((loaded h.policy hp).gives hin).1
    unfold Guard.userReach
    rw [show (db.loadGuard cfg keys now).policy = some p from hp]
    refine List.mem_flatMap.2 ⟨name, hname, ?_⟩
    rw [role_loadGuard hp]
    exact hin
  refine ⟨fun name hn => hname name ?_, fun name hn => hname name ?_, fun b hb hr => hname _ ?_⟩
  · exact List.mem_append_left _ (List.mem_append_left _ hn)
  · exact List.mem_append_left _ (List.mem_append_right _ (by simp [hn]))
  · refine List.mem_append_right _ (List.mem_map.2 ⟨b, List.mem_filter.2 ⟨hb, ?_⟩, rfl⟩)
    rw [show t.toLower u.email = u.email from (h.people.address u hu).1]
    unfold InReach at hr
    cases hk : b.kind with
    | other kind =>
      rw [hk] at hr
      exact absurd hr not_false
    | email | emailDomain | subject =>
      rw [hk] at hr
      exact decide_eq_true hr

end

/-! ## What is not looked at -/

/-- A binding of whoever is let in when a removed person is invited again: of the person's
address or its domain, or of a subject that is linked to nobody else. -/
def NamesReinvited (db : AuthDb) (u : AuthUser) (b : Binding) : Prop :=
  b.issuer ≠ "" ∧
    match b.kind with
    | .subject => ∀ v ∈ db.users, (b.issuer, b.subject) ∈ v.identities → v = u
    | .email => b.email = u.email
    | .emailDomain => domainOf u.email = some b.domain
    | .other _ => False

/-- A binding of whoever is let in when a person is enabled: of a subject that is linked to
nobody, or of any address that an identity of the person may bring. -/
def NamesEnabled (db : AuthDb) (u : AuthUser) (b : Binding) : Prop :=
  b.issuer ≠ "" ∧
    match b.kind with
    | .subject => u.status = .disabled ∧ ∀ v ∈ db.users, (b.issuer, b.subject) ∉ v.identities
    | .email | .emailDomain =>
      (u.status = .pending ∨ u.status = .disabled) ∧ ∃ l ∈ u.identities, l.1 = b.issuer
    | .other _ => False

/-- Whoever changes access so holds what the policy has for whom the change lets in. -/
def LiftsWithin (t : Texts) (holds : List String) (db : AuthDb) (c : AccessChange) : Prop :=
  ∀ p, db.loadPolicy = some p →
    match c with
    | .inviteUser email _ _ =>
      ∀ u ∈ db.users, u.email = t.validEmail email → u.status = .removed →
        (∀ name, p.defaultRole = some name → p.Within holds name) ∧
          ∀ b ∈ p.bindings, db.NamesReinvited u b → p.Within holds b.role
    | .enableUser email =>
      ∀ u ∈ db.users, u.email = t.validEmail email →
        ∀ b ∈ p.bindings, db.NamesEnabled u b → p.Within holds b.role
    | _ => True

section

variable {u : AuthUser} {b : Binding} {ids : List String} {issuer : String}

theorem keeps_reinvite (ids : List String) (issuer : String) : Keeps (reinvite ids issuer) :=
  ⟨fun _ => rfl, fun _ => rfl, fun _ => rfl, fun _ _ => invitation_ne issuer⟩

theorem keeps_roles (ids : List String) : Keeps fun u => { u with roles := ids } :=
  ⟨fun _ => rfl, fun _ => rfl, fun _ => rfl, fun _ hi => hi⟩

theorem keeps_status (s : UserStatus) : Keeps fun u => { u with status := s } :=
  ⟨fun _ => rfl, fun _ => rfl, fun _ => rfl, fun _ hi => hi⟩

theorem keeps_expelled : Keeps expelled :=
  ⟨fun _ => rfl, fun _ => rfl, fun _ => rfl, fun _ _ => by simp [expelled]⟩

/-- Inviting a removed person again lets in whoever has their address and is not linked to
somebody else. -/
theorem letIn_reinvite (h : PeopleFormed t db.users) (hu : u ∈ db.users)
    (hs : u.status = .removed) :
    LetIn t db (db.updateUser u.id (reinvite ids issuer)) id ↔
      (db.lookup id = some u ∨ db.lookup id = none) ∧ t.toLower id.verifiedEmail = u.email := by
  rw [letIn_updated h (keeps_reinvite ids issuer) hu]
  simp [Admits, hs, reinvite, UserStatus.refused, or_and_right]

/-- Enabling a person lets in whoever is linked to them and was kept out, and whoever has their
address. -/
theorem letIn_enable (h : PeopleFormed t db.users) (hu : u ∈ db.users)
    (hs : u.status ≠ .removed) :
    LetIn t db (db.setStatus u.id .active) id ↔
      (db.lookup id = some u ∧ (u.status = .disabled ∨
        (u.status = .pending ∧ t.toLower id.verifiedEmail ≠ u.email))) ∨
        (db.lookup id = none ∧ t.toLower id.verifiedEmail = u.email ∧ u.status = .disabled) := by
  unfold setStatus
  rw [letIn_updated h (keeps_status .active) hu]
  cases hstatus : u.status with
  | removed => exact absurd hstatus hs
  | active | pending | disabled => simp [Admits, UserStatus.refused]

/-- A binding names a removed person who is invited again where it matches somebody let in. -/
theorem namesReinvited_iff (h : PeopleFormed t db.users) (hu : u ∈ db.users) :
    db.NamesReinvited u b ↔ b.issuer ≠ "" ∧ ∃ id, (db.lookup id = some u ∨ db.lookup id = none) ∧
      t.toLower id.verifiedEmail = u.email ∧ b.matches t id = true := by
  have haddress := h.address u hu
  unfold NamesReinvited
  refine and_congr_right fun _ => ?_
  cases hk : b.kind with
  | other k =>
    refine iff_of_false not_false ?_
    rintro ⟨id, -, -, hm⟩
    exact absurd ((Binding.not_matches_other hk).symm.trans hm) (by simp)
  | subject =>
    constructor
    · intro hlinks
      refine ⟨⟨b.issuer, b.subject, u.email⟩, ?_, haddress.1, (Binding.matches_subject hk).2 rfl⟩
      cases hl : db.lookup ⟨b.issuer, b.subject, u.email⟩ with
      | none => exact .inr rfl
      | some v =>
        obtain ⟨hv, hvl⟩ := lookup_mem hl
        exact .inl (congrArg some (hlinks v hv hvl))
    · rintro ⟨id, hl | hl, -, hm⟩ v hv hvl
      · obtain ⟨-, hul⟩ := lookup_mem hl
        rw [(Binding.matches_subject hk).1 hm] at hvl
        exact h.identity v hv u hu _ hvl hul
      · rw [(Binding.matches_subject hk).1 hm] at hvl
        exact absurd hvl (lookup_eq_none.1 hl v hv)
  | email =>
    constructor
    · intro he
      obtain ⟨subject, hfree⟩ := db.exists_free_subject b.issuer u.email
      refine ⟨_, .inr hfree, haddress.1, (Binding.matches_email hk).2 ⟨?_, ?_, rfl⟩⟩
      · rw [show t.toLower u.email = u.email from haddress.1]
        exact haddress.2
      · exact he.trans haddress.1.symm
    · rintro ⟨id, -, he, hm⟩
      exact ((Binding.matches_email hk).1 hm).2.1.trans he
  | emailDomain =>
    constructor
    · intro hd
      obtain ⟨subject, hfree⟩ := db.exists_free_subject b.issuer u.email
      refine ⟨_, .inr hfree, haddress.1, (Binding.matches_domain hk).2 ⟨?_, rfl⟩⟩
      rw [show t.toLower u.email = u.email from haddress.1]
      exact hd
    · rintro ⟨id, -, he, hm⟩
      rw [← he]
      exact ((Binding.matches_domain hk).1 hm).1

/-- Whoever is let in by enabling a person is matched by what is looked at, or by what the person
is named by. -/
theorem namesEnabled_of_letIn (h : PeopleFormed t db.users) (hu : u ∈ db.users)
    (hs : u.status ≠ .removed) (hissuer : b.issuer ≠ "") (hm : b.matches t id = true)
    (hlet : LetIn t db (db.setStatus u.id .active) id) : InReach u b ∨ db.NamesEnabled u b := by
  rw [letIn_enable h hu hs] at hlet
  unfold InReach NamesEnabled
  cases hk : b.kind with
  | other k => exact absurd ((Binding.not_matches_other hk).symm.trans hm) (by simp)
  | subject =>
    rw [(Binding.matches_subject hk).1 hm]
    obtain ⟨hl, -⟩ | ⟨hl, -, hd⟩ := hlet
    · exact .inl (lookup_mem hl).2
    · refine .inr ⟨hissuer, hd, lookup_eq_none.1 hl⟩
  | email =>
    obtain ⟨hl, hkept⟩ | ⟨-, he, -⟩ := hlet
    · refine .inr ⟨hissuer, ?_, _, (lookup_mem hl).2, ((Binding.matches_email hk).1 hm).2.2.symm⟩
      exact hkept.elim .inr fun hp => .inl hp.1
    · exact .inl (((Binding.matches_email hk).1 hm).2.1.trans he)
  | emailDomain =>
    obtain ⟨hl, hkept⟩ | ⟨-, he, -⟩ := hlet
    · refine .inr ⟨hissuer, ?_, _, (lookup_mem hl).2, ((Binding.matches_domain hk).1 hm).2.symm⟩
      exact hkept.elim .inr fun hp => .inl hp.1
    · have hd := ((Binding.matches_domain hk).1 hm).1
      rw [he] at hd
      exact .inl (domainOf_eq_some hd).symm

/-- A binding that names a person who is enabled matches somebody let in, or is looked at. -/
theorem letIn_of_namesEnabled (h : PeopleFormed t db.users) (hu : u ∈ db.users)
    (hs : u.status ≠ .removed) (hb : b.Proper t) (hn : db.NamesEnabled u b) :
    InReach u b ∨ ∃ id, LetIn t db (db.setStatus u.id .active) id ∧ b.matches t id = true := by
  have haddress := h.address u hu
  simp only [letIn_enable h hu hs]
  unfold InReach
  obtain ⟨-, hn⟩ := hn
  -- Whoever is linked to the person through the provider may bring another address.
  have hlinked : ∀ email, (u.status = .pending ∨ u.status = .disabled) →
      (∃ l ∈ u.identities, l.1 = b.issuer) → t.toLower email ≠ u.email →
      ∃ id : Identity, id.issuer = b.issuer ∧ id.verifiedEmail = email ∧
        db.lookup id = some u ∧ (u.status = .disabled ∨
          (u.status = .pending ∧ t.toLower id.verifiedEmail ≠ u.email)) := by
    rintro email hkept ⟨l, hl, hli⟩ hne
    refine ⟨⟨l.1, l.2, email⟩, hli, rfl, lookup_of_link h hu hl, ?_⟩
    obtain hp | hd := hkept
    · exact .inr ⟨hp, hne⟩
    · exact .inl hd
  unfold Binding.Proper at hb
  cases hk : b.kind with
  | other k =>
    rw [hk] at hn
    exact absurd hn not_false
  | subject =>
    rw [hk] at hn
    refine .inr ⟨⟨b.issuer, b.subject, u.email⟩, .inr ⟨?_, haddress.1, hn.1⟩, ?_⟩
    · exact lookup_eq_none.2 hn.2
    · exact (Binding.matches_subject hk).2 rfl
  | email =>
    rw [hk] at hn hb
    by_cases hown : b.email = u.email
    · exact .inl hown
    · have hlow : t.toLower b.email = b.email := hb.1
      obtain ⟨id, hi, he, hlet⟩ := hlinked b.email hn.1 hn.2 (by rwa [hlow])
      refine .inr ⟨id, .inl hlet, (Binding.matches_email hk).2 ?_⟩
      rw [he, hlow]
      exact ⟨hb.2.1, rfl, hi.symm⟩
  | emailDomain =>
    rw [hk] at hn hb
    obtain ⟨email, hlow, hd, hne⟩ := exists_free_address [u.email] hb.1 hb.2.1
    have hlow : t.toLower email = email := hlow
    have hne : t.toLower email ≠ u.email := by
      rw [hlow]
      simpa using hne
    obtain ⟨id, hi, he, hlet⟩ := hlinked email hn.1 hn.2 hne
    refine .inr ⟨id, .inl hlet, (Binding.matches_domain hk).2 ?_⟩
    rw [he, hlow]
    exact ⟨hd, hi.symm⟩

/-! ## Each change -/

theorem opens_reinvite (h : PeopleFormed t db.users) (hu : u ∈ db.users)
    (hs : u.status = .removed) :
    (∀ id, LetIn t db (db.updateUser u.id (reinvite ids issuer)) id →
        ∀ perm, p.Opens t id perm → perm ∈ holds) ↔
      (∀ name, p.defaultRole = some name → p.Within holds name) ∧
        ∀ b ∈ p.bindings, db.NamesReinvited u b → p.Within holds b.role := by
  simp only [letIn_reinvite h hu hs, Policy.opens_within]
  constructor
  · intro hall
    refine ⟨?_, fun b hb hn => ?_⟩
    · obtain ⟨subject, hfree⟩ := db.exists_free_subject "" u.email
      exact (hall _ ⟨.inr hfree, (h.address u hu).1⟩).1
    · obtain ⟨hissuer, id, hl, he, hm⟩ := (namesReinvited_iff h hu).1 hn
      exact (hall id ⟨hl, he⟩).2 b hb hissuer hm
  · rintro ⟨hdefault, hbinds⟩ id ⟨hl, he⟩
    refine ⟨hdefault, fun b hb hissuer hm => hbinds b hb ?_⟩
    exact (namesReinvited_iff h hu).2 ⟨hissuer, id, hl, he, hm⟩

/-- What the policy has for whom enabling a person lets in, where what is looked at is held. -/
theorem opens_enable (h : db.WellFormed t) (hp : db.loadPolicy = some p) (hu : u ∈ db.users)
    (hs : u.status ≠ .removed)
    (hdefault : ∀ name, p.defaultRole = some name → p.Within holds name)
    (hreach : ∀ b ∈ p.bindings, InReach u b → p.Within holds b.role) :
    (∀ id, LetIn t db (db.setStatus u.id .active) id →
        ∀ perm, p.Opens t id perm → perm ∈ holds) ↔
      ∀ b ∈ p.bindings, db.NamesEnabled u b → p.Within holds b.role := by
  constructor
  · intro hall b hb hn
    have hproper := (loaded h.policy hp).proper b hb
    obtain hr | ⟨id, hlet, hm⟩ := letIn_of_namesEnabled h.people hu hs hproper hn
    · exact hreach b hb hr
    · exact (Policy.opens_within.1 (hall id hlet)).2 b hb hn.1 hm
  · intro hbinds id hlet
    refine Policy.opens_within.2 ⟨hdefault, fun b hb hissuer hm => ?_⟩
    obtain hr | hn := namesEnabled_of_letIn h.people hu hs hissuer hm hlet
    · exact hreach b hb hr
    · exact hbinds b hb hn

end

section

variable {cfg : Option (BrowserAccess t)} {keys : List ApiKey} {now : Int}
  {email issuer uuid : String} {roles : List String}

theorem givesWithin_invite (h : db.WellFormed t)
    (hgrant : (db.loadGuard cfg keys now).checkGrantRoles holds roles = .ok ())
    (hi : db.inviteUser t uuid email roles issuer = .ok db') (h' : db'.WellFormed t)
    (named : String) :
    GivesWithin t wide holds db db' ↔ LiftsWithin t holds db (.inviteUser email roles named) := by
  obtain ⟨ids, hids, -, ⟨u, hu, he, hs, rfl⟩ | ⟨hnew, -, rfl⟩⟩ := inviteUser_ok h hi
  · cases hp : db.loadPolicy with
    | none =>
      refine iff_of_true (givesWithin_of_none h h' hp hp) fun p hp' => ?_
      exact absurd (hp.symm.trans hp') (by simp)
    | some p =>
      have hroles := checkGrantRoles_ok h.policy hp hgrant
      rw [givesWithin_updated h h' (keeps_reinvite ids issuer) hu hp fun _ name hname =>
        hroles name (mem_names h.policy hids rfl hname), opens_reinvite h.people hu hs]
      constructor
      · intro hlifts q hq v hv hve hvs
        obtain rfl := Option.some.inj (hp.symm.trans hq)
        obtain rfl := h.people.email u hu v hv (he.trans hve.symm)
        exact hlifts
      · intro hlifts
        exact hlifts p hp u hu he hs
  · refine iff_of_true ?_ fun p _ u hu he => absurd he (hnew u hu)
    cases hp : db.loadPolicy with
    | none => exact givesWithin_of_none h h' hp hp
    | some p =>
      have hroles := checkGrantRoles_ok h.policy hp hgrant
      have hstanding := standing_invited h.people h'.people rfl rfl
      refine (givesWithin_iff h h' hp hp fun id g hperson hold name hname => ?_).2 ?_
      · obtain hsame | ⟨-, hg⟩ := hstanding id
        · exact absurd (hsame.symm.trans hperson) hold
        · obtain rfl := Standing.person.inj (hg.symm.trans hperson)
          exact hroles name (mem_names h.policy hids rfl hname)
      · rintro id ⟨hs, hs'⟩
        obtain hsame | ⟨hguest, -⟩ := hstanding id
        · exact absurd (hsame.trans hs) hs'
        · exact absurd (hguest.symm.trans hs) (by simp)

/-- A statement on the record of a person lets nobody in, and gives within what is held. -/
theorem givesWithin_kept {u : AuthUser} {f : AuthUser → AuthUser} (h : db.WellFormed t)
    (h' : (db.updateUser u.id f).WellFormed t) (hf : Keeps f) (hu : u ∈ db.users)
    (hs : (f u).status = u.status ∨ (f u).status.refused = true)
    (hheld : ∀ p, db.loadPolicy = some p → (f u).status.refused = false →
      ∀ name ∈ db.rolesOf t (f u), p.Within holds name) :
    GivesWithin t wide holds db (db.updateUser u.id f) := by
  cases hp : db.loadPolicy with
  | none => exact givesWithin_of_none h h' hp hp
  | some p =>
    refine (givesWithin_updated h h' hf hu hp (hheld p hp)).2 fun id hlet => ?_
    exact absurd hlet (not_letIn h.people hf hu hs)

theorem givesWithin_enable (h : db.WellFormed t)
    (hc : (db.loadGuard cfg keys now).checkUser t holds email = .ok ())
    (hi : db.setUserStatus t email .active = .ok db') (h' : db'.WellFormed t) :
    GivesWithin t wide holds db db' ↔ LiftsWithin t holds db (.enableUser email) := by
  obtain ⟨u, hu, he, hs, rfl⟩ := setUserStatus_ok h hi
  cases hp : db.loadPolicy with
  | none =>
    refine iff_of_true (givesWithin_of_none h h' hp hp) fun p hp' => ?_
    exact absurd (hp.symm.trans hp') (by simp)
  | some p =>
    have hlower : t.validEmail email = t.toLower email :=
      Texts.validEmail_eq fun hno => (h.people.address u hu).2 (he.trans hno)
    obtain ⟨hroles, hdefault, hreach⟩ := checkUser_ok h hp hc hu (he.trans hlower) hs
    have hgives : GivesWithin t wide holds db (db.setStatus u.id .active) ↔ _ :=
      givesWithin_updated h h' (keeps_status .active) hu hp fun _ => hroles
    rw [hgives]
    refine (opens_enable h hp hu hs hdefault hreach).trans ⟨?_, fun hl => hl p hp u hu he⟩
    intro hlifts q hq v hv hve
    obtain rfl := Option.some.inj (hp.symm.trans hq)
    obtain rfl := h.people.email u hu v hv (he.trans hve.symm)
    exact hlifts

theorem givesWithin_policy (draw : String → String) (h : db.WellFormed t) {next n : Option Policy}
    (hn : normalizeNext t next = .ok n) (hf : ∀ q, n = some q → db.Fresh draw q)
    (hheld : ∀ q, n = some q → db.KeepsHeld q)
    (hc : (db.loadGuard cfg keys now).checkPolicyChange holds next = .ok ()) :
    GivesWithin t (BrowserAccess.wide cfg) holds db (db.replacePolicy draw n) := by
  intro id perm hnew hold
  have hdiffers : ¬ (perm ∈ db.authorize t (BrowserAccess.wide cfg) id ↔
      perm ∈ (db.replacePolicy draw n).authorize t (BrowserAccess.wide cfg) id) :=
    fun hiff => hold (hiff.2 hnew)
  obtain ⟨htouched, hperm⟩ :=
    touched_of_differs h BrowserAccess.known_wide hn hf hheld hdiffers
  exact needs_ok hc perm htouched hperm

theorem prepared_policy {g : Guard} {caller : Option Identity} {policy : Policy}
    {c : AccessChange} (hp : prepareAccessChange t g holds caller (.change (.applyPolicy policy)) =
      .ok (.change c)) :
    ∃ policy', g.checkPolicyChange holds (some policy') = .ok () ∧ c = .applyPolicy policy' := by
  obtain ⟨policy', -, hp⟩ := bind_eq_ok.1 hp
  refine ⟨policy', ?_⟩
  dsimp only at hp
  split at hp
  · obtain ⟨⟨⟩, -, hp⟩ := bind_eq_ok.1 hp
    obtain ⟨⟨⟩, hcheck, hp⟩ := bind_eq_ok.1 hp
    exact ⟨hcheck, (AccessRequest.change.inj (Except.ok.inj hp)).symm⟩
  · obtain ⟨⟨⟩, hcheck, hp⟩ := bind_eq_ok.1 hp
    exact ⟨hcheck, (AccessRequest.change.inj (Except.ok.inj hp)).symm⟩

/-- What the prepared change gives is within what the caller holds exactly where they hold what
the policy has for whom the change lets in. -/
theorem prepared_givesWithin_iff {caller : Option Identity} {c c' : AccessChange}
    {drawn : Drawn} (h : db.WellFormed t)
    (hp : prepareAccessChange t (db.loadGuard cfg keys now) holds caller (.change c) =
      .ok (.change c'))
    (hc : db.carryOut t drawn c' = .ok db') :
    GivesWithin t (BrowserAccess.wide cfg) holds db db' ↔ LiftsWithin t holds db c := by
  have h' := h.carryOut hc
  cases c with
  | inviteUser email roles issuer =>
    obtain ⟨issuer', -, hp⟩ := bind_eq_ok.1 hp
    obtain ⟨⟨⟩, hgrant, hp⟩ := bind_eq_ok.1 hp
    obtain rfl := AccessRequest.change.inj (Except.ok.inj hp)
    exact givesWithin_invite h hgrant hc h' issuer
  | replaceUserRoles email roles =>
    obtain ⟨⟨⟩, -, hp⟩ := bind_eq_ok.1 hp
    obtain ⟨⟨⟩, hgrant, hp⟩ := bind_eq_ok.1 hp
    obtain rfl := AccessRequest.change.inj (Except.ok.inj hp)
    obtain ⟨ids, hids, u, hu, -, -, rfl⟩ := replaceUserRoles_ok h hc
    refine iff_of_true (givesWithin_kept h h' (keeps_roles ids) hu (.inl rfl) ?_)
      fun _ _ => trivial
    intro p hpol _ name hname
    exact checkGrantRoles_ok h.policy hpol hgrant name (mem_names h.policy hids rfl hname)
  | enableUser email =>
    obtain ⟨⟨⟩, hcheck, hp⟩ := bind_eq_ok.1 hp
    obtain rfl := AccessRequest.change.inj (Except.ok.inj hp)
    exact givesWithin_enable h hcheck hc h'
  | disableUser email =>
    obtain ⟨⟨⟩, -, hp⟩ := bind_eq_ok.1 hp
    obtain rfl := AccessRequest.change.inj (Except.ok.inj hp)
    obtain ⟨u, hu, -, -, rfl⟩ := setUserStatus_ok h hc
    refine iff_of_true (givesWithin_kept h h' (keeps_status .disabled) hu (.inr rfl) ?_)
      fun _ _ => trivial
    intro _ _ hopen
    exact absurd hopen (by simp [UserStatus.refused])
  | removeUser email =>
    obtain ⟨⟨⟩, -, hp⟩ := bind_eq_ok.1 hp
    obtain rfl := AccessRequest.change.inj (Except.ok.inj hp)
    obtain ⟨u, hu, -, -, rfl⟩ := removeUser_ok h hc
    refine iff_of_true (givesWithin_kept h h' keeps_expelled hu (.inr rfl) ?_)
      fun _ _ => trivial
    intro _ _ hopen
    exact absurd hopen (by simp [UserStatus.refused, expelled])
  | applyPolicy policy =>
    obtain ⟨policy', hcheck, rfl⟩ := prepared_policy hp
    obtain ⟨n, hn, hf, hheld, rfl⟩ := applyPolicy_ok hc
    have hnext : normalizeNext t (some policy') = .ok (some n) := by
      rw [normalizeNext, hn]
      rfl
    refine iff_of_true (givesWithin_policy drawn.role h hnext ?_ ?_ hcheck) fun _ _ => trivial
    · rintro q ⟨⟩
      exact hf
    · rintro q ⟨⟩
      exact keepsHeld_of_none hheld
  | clearPolicy =>
    obtain ⟨⟨⟩, hcheck, hp⟩ := bind_eq_ok.1 hp
    obtain rfl := AccessRequest.change.inj (Except.ok.inj hp)
    refine iff_of_true ?_ fun _ _ => trivial
    obtain rfl | rfl := carryOut_clear hc
    · exact fun id perm hnew hold => absurd hnew hold
    · exact givesWithin_policy drawn.role h (n := none) rfl (by simp) (by simp) hcheck

end

end AuthDb

/-! ## The house again -/

/-- The owner was made a member, and removed. The binding of their address stays. -/
def expelledMoves : List AccessMove :=
  houseMoves ++
    [.change (.inviteUser "owner@house" ["member"] "https://idp") houseDrawn,
      .change (.removeUser "owner@house") houseDrawn]

def expelledDb : AuthDb := (accessTables plainTexts).after {} expelledMoves

/-- Whoever manages access and may chat. -/
def memberHolds : List String := ["access:manage", "inference:chat"]

def ownerIdentity : Identity where
  issuer := "https://idp"
  subject := "s"
  verifiedEmail := "owner@house"

/-- Inviting as a member is allowed to whoever holds what a member does. -/
def welcome (email : String) : AccessChange := .inviteUser email ["member"] "https://idp"

def welcomedDb (moves : List AccessMove) (email : String) : AuthDb :=
  (accessTables plainTexts).after {} (moves ++ [.change (welcome email) houseDrawn])

theorem welcome_prepared (db : AuthDb) (email : String)
    (hi : inviteIssuer plainTexts "https://idp" email
      (BrowserAccess.issuers (some houseAccess)) none = .ok "https://idp")
    (hg : (db.loadGuard (some houseAccess) [] 0).checkGrantRoles memberHolds ["member"] = .ok ()) :
    prepareAccessChange plainTexts (db.loadGuard (some houseAccess) [] 0) memberHolds none
      (.change (welcome email)) = .ok (.change (welcome email)) :=
  bind_eq_ok.2 ⟨_, hi, bind_eq_ok.2 ⟨(), hg, rfl⟩⟩

theorem welcome_carried (moves : List AccessMove) (email : String)
    (h : ((accessTables plainTexts).run {}
      (moves ++ [.change (welcome email) houseDrawn])).isSome = true)
    (h' : ((accessTables plainTexts).run {} moves).isSome = true) :
    ((accessTables plainTexts).after {} moves).carryOut plainTexts houseDrawn (welcome email) =
      .ok (welcomedDb moves email) :=
  ok_of_toOption (step_after moves h h')

/-- The owner is invited again, as a member, and reads the models: more than the caller may. -/
theorem owner_welcomed :
    Reachable (accessTables plainTexts) expelledDb ∧
      prepareAccessChange plainTexts (expelledDb.loadGuard (some houseAccess) [] 0) memberHolds none
        (.change (welcome "owner@house")) = .ok (.change (welcome "owner@house")) ∧
      expelledDb.carryOut plainTexts houseDrawn (welcome "owner@house") =
        .ok (welcomedDb expelledMoves "owner@house") ∧
      "models:read" ∈ (welcomedDb expelledMoves "owner@house").authorize plainTexts
        (BrowserAccess.wide (some houseAccess)) ownerIdentity ∧
      "models:read" ∉ expelledDb.authorize plainTexts (BrowserAccess.wide (some houseAccess))
        ownerIdentity ∧
      "models:read" ∉ memberHolds := by
  have hrun : ((accessTables plainTexts).run {} expelledMoves).isSome = true := by decide
  refine ⟨reachable_after rfl hrun, ?_, ?_, ?_, ?_, ?_⟩
  · exact welcome_prepared _ _ (by decide) (by decide)
  · exact welcome_carried _ _ (by decide) hrun
  · decide
  · decide
  · decide

/-- A member's address is bound as well. -/
def guestPolicy : Policy :=
  { housePolicy none with
    bindings := (housePolicy none).bindings ++
      [{ kind := .email, role := "member", issuer := "https://idp", email := "guest@house" }] }

/-- The guest was a member, and removed. -/
def leftGuestMoves : List AccessMove :=
  [.change (.applyPolicy guestPolicy) houseDrawn,
    .change (.inviteUser "guest@house" ["member"] "https://idp") houseDrawn,
    .change (.removeUser "guest@house") houseDrawn]

def leftGuestDb : AuthDb := (accessTables plainTexts).after {} leftGuestMoves

/-- Inviting the guest again gives nobody more than the caller may do: what the policy
has for the guest is what a member does. -/
theorem guest_welcomed : leftGuestDb.users.map (·.status) = [.removed] ∧
    AuthDb.GivesWithin plainTexts (BrowserAccess.wide (some houseAccess))
      memberHolds leftGuestDb (welcomedDb leftGuestMoves "guest@house") := by
  have hreach : Reachable (accessTables plainTexts) leftGuestDb :=
    reachable_after rfl
      (show ((accessTables plainTexts).run {} leftGuestMoves).isSome = true by decide)
  have hprepared := welcome_prepared leftGuestDb "guest@house" (by decide) (by decide)
  have hcarried := welcome_carried leftGuestMoves "guest@house" (by decide) (by decide)
  refine ⟨by decide, (AuthDb.prepared_givesWithin_iff (AuthDb.wellFormed_of_reachable hreach)
    hprepared hcarried).2 ?_⟩
  have hpolicy : leftGuestDb.loadPolicy = some guestPolicy := by decide
  intro p hp
  obtain rfl := Option.some.inj (hpolicy.symm.trans hp)
  intro u hu hemail _
  refine ⟨fun name hname => (by cases hname), ?_⟩
  rintro b (_ | ⟨_, _ | ⟨_, _ | _⟩⟩) ⟨_, hnames⟩
  · -- The owner's address is not the guest's.
    exact absurd (hnames.trans hemail) (by decide)
  · show ∀ perm ∈ guestPolicy.rolePerms "member", perm ∈ memberHolds
    decide

end LocalBase.Auth
