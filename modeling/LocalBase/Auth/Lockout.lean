import LocalBase.Auth.PolicyChange
import Mathlib.Data.List.Destutter
import Mathlib.Data.Set.Finite.List
import Mathlib.Data.Set.Finite.Range

/-!
# What the guard sees of a sign-in

The guard decides over its snapshot what a sign-in decides over the tables. Where
they differ, the identity is linked to somebody who was removed and invited again,
and brings another address than theirs: a sign-in is refused, and the guard counts
it. So who can manage access, by the guard, is not always who can. That somebody
can, where the guard says so, is always true: each way in which it finds a manager
ends in a sign-in that manages.
-/

namespace LocalBase.Auth

open Machine Records

/-! ## Texts that are not in use -/

theorem exists_fresh {f : Nat → String} (hf : Function.Injective f) (used : List String) :
    ∃ k, f k ∉ used := by
  obtain ⟨s, ⟨k, rfl⟩, hs⟩ :=
    (Set.infinite_range_of_injective hf).exists_notMem_finite used.finite_toSet
  exact ⟨k, hs⟩

theorem ofList_replicate_injective (c : Char) (rest : List Char) :
    Function.Injective fun k => String.ofList (List.replicate k c ++ rest) := by
  intro j k h
  have hlen := congrArg (fun s : String => s.toList.length) h
  simp only [String.toList_ofList, List.length_append, List.length_replicate] at hlen
  omega

namespace AuthDb

variable {t : Texts} {db : AuthDb}

theorem exists_free_subject (db : AuthDb) (issuer : String) (email : String) :
    ∃ subject, db.lookup { issuer := issuer, subject := subject, verifiedEmail := email } =
      none := by
  obtain ⟨k, hk⟩ := exists_fresh (ofList_replicate_injective 's' [])
    (db.users.flatMap fun u => u.identities.map Prod.snd)
  refine ⟨String.ofList (List.replicate k 's' ++ []), ?_⟩
  rw [lookup_eq_none]
  intro u hu hl
  refine hk ?_
  exact List.mem_flatMap.2 ⟨u, hu, List.mem_map.2 ⟨_, hl, rfl⟩⟩

theorem exists_free_address {domain : String} (used : List String) (hl : t.Lowered domain)
    (hd : isDomain domain = true) :
    ∃ email, t.Lowered email ∧ domainOf email = some domain ∧ email ∉ used := by
  have hno : '@' ∉ domain.toList := by
    intro hat
    unfold isDomain at hd
    rw [Bool.and_eq_true, Bool.and_eq_true, List.all_eq_true] at hd
    exact absurd (hd.1.1 '@' hat) (by decide)
  obtain ⟨k, hk⟩ := exists_fresh
    (ofList_replicate_injective (t.lower 'a') ('@' :: domain.toList)) used
  refine ⟨_, ?_, domainOf_append hno, hk⟩
  have hdomain : domain.toList.map t.lower = domain.toList := by
    have h := congrArg String.toList hl
    unfold Texts.toLower at h
    rwa [String.toList_ofList] at h
  unfold Texts.Lowered Texts.toLower
  rw [String.toList_ofList, List.map_append, List.map_replicate, List.map_cons, t.lower_lower,
    t.lower_at, hdomain]

end AuthDb

theorem BrowserAccess.issuers_ne {t : Texts} {cfg : Option (BrowserAccess t)} {issuer : String}
    (h : issuer ∈ BrowserAccess.issuers cfg) : issuer ≠ "" := by
  have happend : ∀ a b : String, (a ≠ "" ∨ b ≠ "") → a ++ b ≠ "" := by
    intro a b hab he
    have hlist : a.toList ++ b.toList = [] := by
      rw [← String.toList_append, he]
      rfl
    obtain ⟨ha, hb⟩ := List.append_eq_nil_iff.1 hlist
    obtain hne | hne := hab
    · exact hne (String.toList_inj.1 ha)
    · exact hne (String.toList_inj.1 hb)
  cases cfg with
  | none => exact absurd h (by simp [BrowserAccess.issuers])
  | some b =>
    unfold BrowserAccess.issuers at h
    replace h := (List.mem_insertionSort _).1 (List.Sublist.mem h (List.destutter_sublist _ _))
    have hvalid := b.valid
    cases hp : b.provider with
    | cloudflareAccess teamDomain =>
      rw [hp] at h
      rw [List.mem_singleton.1 h]
      exact happend _ _ (.inl (by decide))
    | direct registrations =>
      rw [hp] at h hvalid
      obtain ⟨r, hr, hi⟩ := List.mem_filterMap.1 h
      have hr' := List.all_eq_true.1 hvalid r hr
      cases r with
      | oidc i =>
        obtain rfl := Option.some.inj hi
        rintro rfl
        exact absurd hr' (by simp [Registration.valid, t.isIssuer_empty])
      | magicLink =>
        obtain rfl := Option.some.inj hi
        exact happend _ _ (.inr (by decide))
      | github => exact absurd hi (by simp)

/-! ## The guard's view -/

/-- What the guard takes an identity for. -/
def guardStanding : Option GuardUser → Standing GuardUser
  | none => .guest
  | some u => if u.status.refused then .refused else .person u

variable {p : Policy}

theorem canManage_policy {t : Texts} {g : Guard} {id : Identity} (hp : g.policy = some p)
    (hi : id.issuer ∈ g.issuers) (hne : id.issuer ≠ "") :
    g.canManage t id = true ↔
      p.Grants t id (guardStanding (g.linked t id)) "access:manage" := by
  have hbinds : (p.bindings.any fun b => p.roleManages b.role && b.matches t id) = true ↔
      ∃ name, p.Binds t id name ∧ p.roleManages name = true := by
    rw [List.any_eq_true]
    constructor
    · rintro ⟨b, hb, hm⟩
      rw [Bool.and_eq_true] at hm
      have hissuer := Binding.issuer_of_matches hm.2
      exact ⟨b.role, ⟨b, hb, hissuer ▸ hne, rfl, hm.2⟩, hm.1⟩
    · rintro ⟨name, ⟨b, hb, -, rfl, hm⟩, hrole⟩
      exact ⟨b, hb, by rw [hrole, hm]; rfl⟩
  have hmanages : ∀ name, p.roleManages name = true ↔ "access:manage" ∈ p.rolePerms name := by
    intro name
    unfold Policy.roleManages
    exact decide_eq_true_iff
  have hdefault : p.defaultRole.any p.roleManages = true ↔
      ∃ name, p.defaultRole = some name ∧ p.roleManages name = true := by
    rw [Option.any_eq_true]
  unfold Guard.canManage
  rw [if_neg (not_not.2 hi), hp]
  simp only []
  unfold Policy.Grants Policy.Due
  simp only [← hmanages]
  cases hl : g.linked t id with
  | none =>
    have hguest : guardStanding none ≠ .refused := by simp [guardStanding]
    simp only [Option.any_none, Bool.false_eq_true, if_false, Bool.or_false, Bool.or_eq_true,
      hbinds, hdefault]
    constructor
    · rintro (⟨name, hname, hm⟩ | ⟨name, hname, hm⟩)
      · exact ⟨name, ⟨hguest, .inl hname⟩, hm⟩
      · exact ⟨name, ⟨hguest, .inr (.inl hname)⟩, hm⟩
    · rintro ⟨name, ⟨-, hname | hname | ⟨u, hu, -⟩⟩, hm⟩
      · exact .inl ⟨name, hname, hm⟩
      · exact .inr ⟨name, hname, hm⟩
      · exact absurd hu (by simp [guardStanding])
  | some u =>
    by_cases hr : u.status.refused = true
    · simp [guardStanding, hr]
    · have hperson : guardStanding (some u) = .person u := by
        rw [guardStanding, if_neg hr]
      simp only [Option.any_some, if_neg hr, Bool.or_eq_true, hbinds, hdefault,
        List.any_eq_true, hperson]
      constructor
      · rintro ((⟨name, hname, hm⟩ | ⟨name, hname, hm⟩) | ⟨name, hname, hm⟩)
        · exact ⟨name, ⟨by simp, .inl hname⟩, hm⟩
        · exact ⟨name, ⟨by simp, .inr (.inl hname)⟩, hm⟩
        · exact ⟨name, ⟨by simp, .inr (.inr ⟨u, rfl, hname⟩)⟩, hm⟩
      · rintro ⟨name, ⟨-, hname | hname | ⟨v, hv, hname⟩⟩, hm⟩
        · exact .inl (.inl ⟨name, hname, hm⟩)
        · exact .inl (.inr ⟨name, hname, hm⟩)
        · obtain rfl := Standing.person.inj hv
          exact .inr ⟨name, hname, hm⟩

variable {u : AuthUser}

namespace AuthDb

variable {t : Texts} {db : AuthDb} {cfg : Option (BrowserAccess t)} {keys : List ApiKey}
  {now : Int} {id : Identity}

theorem linked_of_lookup (hl : db.lookup id = some u) :
    (db.loadGuard cfg keys now).linked t id = some (db.guardUser t u) := by
  have hfind : (db.people t).find? (fun u => (id.issuer, id.subject) ∈ u.identities) =
      some (db.guardUser t u) := by
    rw [find?_people]
    exact congrArg (Option.map (db.guardUser t)) hl
  unfold Guard.linked
  rw [show (db.loadGuard cfg keys now).users = db.people t from rfl, hfind]

theorem user_loadGuard (h : PeopleFormed t db.users) (email : String) :
    (db.loadGuard cfg keys now).user t email =
      (db.userByEmail (t.toLower email)).map (db.guardUser t) := by
  unfold Guard.user
  rw [show (db.loadGuard cfg keys now).users = db.people t from rfl, find?_people]
  refine congrArg (Option.map (db.guardUser t)) (List.find?_congr fun u hu => ?_)
  rw [show (db.guardUser t u).email = u.email from (h.address u hu).1]

theorem guardUser_issuer (hne : id.issuer ≠ "") (u : AuthUser) :
    (db.guardUser t u).issuer = id.issuer ↔ u.invitedBy = some id.issuer := by
  show u.invitedBy.getD "" = id.issuer ↔ _
  cases hi : u.invitedBy with
  | none => exact iff_of_false (fun he => hne he.symm) (by simp)
  | some i => exact Option.some_inj.symm

theorem guardStanding_free (h : PeopleFormed t db.users) (hne : id.issuer ≠ "")
    (hl : db.lookup id = none) :
    guardStanding ((db.loadGuard cfg keys now).linked t id) = standing t (db.people t) id := by
  have hfind : (db.people t).find? (fun u => (id.issuer, id.subject) ∈ u.identities) = none := by
    rw [find?_people]
    exact congrArg (Option.map (db.guardUser t)) hl
  rw [standing_free h hl]
  unfold Guard.linked
  rw [show (db.loadGuard cfg keys now).users = db.people t from rfl, hfind]
  simp only [user_loadGuard h]
  cases hu : db.userByEmail (t.toLower id.verifiedEmail) with
  | none =>
    split
    · rfl
    · rfl
  | some u =>
    obtain ⟨hmem, he⟩ := (userByEmail_eq_some h).1 hu
    have hsome : id.verifiedEmail ≠ "" := by
      intro hempty
      refine (h.address u hmem).2 (he.trans ?_)
      rw [hempty]
      exact t.lowered_empty
    have hstatus : (db.guardUser t u).status = u.status := rfl
    rw [if_pos hsome, Option.map_some, Option.filter_some]
    simp only [hstatus, guardUser_issuer hne]
    by_cases hr : u.status.refused = true
    · simp [guardStanding, hr, hstatus]
    · by_cases hi : u.invitedBy = some id.issuer
      · simp [guardStanding, hr, hi, hstatus]
      · simp [guardStanding, hr, hi]

/-- The identity is linked to somebody who was removed and invited again, brings
another address than theirs, and would manage access as them. -/
def ManagesElsewhere (t : Texts) (db : AuthDb) (id : Identity) : Prop :=
  ∃ p, db.loadPolicy = some p ∧ ∃ u ∈ db.users, (id.issuer, id.subject) ∈ u.identities ∧
    u.status = .pending ∧ t.toLower id.verifiedEmail ≠ u.email ∧
    ∃ name, (p.defaultRole = some name ∨ p.Binds t id name ∨ name ∈ db.rolesOf t u) ∧
      p.roleManages name = true

theorem grants_person {u : GuardUser} {perm : String} :
    p.Grants t id (.person u) perm ↔
      ∃ name, (p.defaultRole = some name ∨ p.Binds t id name ∨ name ∈ u.roles) ∧
        perm ∈ p.rolePerms name := by
  unfold Policy.Grants Policy.Due
  simp

theorem not_grants_refused {perm : String} : ¬ p.Grants t id .refused perm := by
  rintro ⟨name, ⟨hno, -⟩, -⟩
  exact hno rfl

/-- The guard and a sign-in agree about an identity, unless it would manage access as
somebody else's new invitation. -/
theorem canManage_agrees_iff (h : Reachable (accessTables t) db)
    (hi : id.issuer ∈ BrowserAccess.issuers cfg) :
    ((db.loadGuard cfg keys now).canManage t id = true ↔
        "access:manage" ∈ db.authorize t (BrowserAccess.wide cfg) id) ↔
      ¬ db.ManagesElsewhere t id := by
  have hw := wellFormed_of_reachable h
  have hne := BrowserAccess.issuers_ne hi
  rw [mem_authorize hw]
  cases hp : db.loadPolicy with
  | none =>
    have hmanage : (db.loadGuard cfg keys now).canManage t id = true ↔
        "access:manage" ∈ BrowserAccess.wide cfg := by
      have hconfigured : ¬ id.issuer ∉ (db.loadGuard cfg keys now).issuers := not_not.2 hi
      unfold Guard.canManage
      rw [if_neg hconfigured, show (db.loadGuard cfg keys now).policy = none from hp]
      exact decide_eq_true_iff
    refine iff_of_true hmanage ?_
    rintro ⟨p, hp', -⟩
    exact absurd (hp.symm.trans hp') (by simp)
  | some p =>
    rw [canManage_policy (show (db.loadGuard cfg keys now).policy = some p from hp) hi hne]
    cases hl : db.lookup id with
    | none =>
      rw [guardStanding_free hw.people hne hl]
      refine iff_of_true Iff.rfl ?_
      rintro ⟨_, -, u, hu, hlink, -⟩
      exact lookup_eq_none.1 hl u hu hlink
    | some u =>
      obtain ⟨hu, hlink⟩ := lookup_mem hl
      have hstanding := standing_linked hw.people hl
      rw [linked_of_lookup hl]
      show (p.Grants t id (guardStanding (some (db.guardUser t u))) "access:manage" ↔
        p.Grants t id (standing t (db.people t) id) "access:manage") ↔ _
      have hguard : guardStanding (some (db.guardUser t u)) =
          if u.status.refused then .refused else .person (db.guardUser t u) := rfl
      have hmanages : ∀ name, p.roleManages name = true ↔
          "access:manage" ∈ p.rolePerms name := fun name => decide_eq_true_iff
      have hwhom : db.ManagesElsewhere t id ↔
          (u.status = .pending ∧ t.toLower id.verifiedEmail ≠ u.email) ∧
            p.Grants t id (.person (db.guardUser t u)) "access:manage" := by
        rw [grants_person]
        constructor
        · rintro ⟨q, hq, v, hv, hvl, hs, he, name, hdue, hm⟩
          obtain rfl := Option.some.inj (hp.symm.trans hq)
          obtain rfl := hw.people.identity u hu v hv _ hlink hvl
          exact ⟨⟨hs, he⟩, name, hdue, (hmanages name).1 hm⟩
        · rintro ⟨⟨hs, he⟩, name, hdue, hm⟩
          exact ⟨p, hp, u, hu, hlink, hs, he, name, hdue, (hmanages name).2 hm⟩
      rw [hwhom, hstanding, hguard]
      cases hs : u.status with
      | active => simp [UserStatus.refused]
      | disabled | removed =>
        simp [UserStatus.refused, not_grants_refused]
      | pending =>
        by_cases he : t.toLower id.verifiedEmail = u.email
        · simp [UserStatus.refused, he]
        · simp [UserStatus.refused, he, not_grants_refused]

end AuthDb

/-- Somebody was invited to manage access, signed in, was removed and invited again. -/
def reinvitedMoves : List AccessMove :=
  houseMoves ++
    [.change (.inviteUser "guest@house" ["admin"] "https://idp") houseDrawn,
      .signIn { issuer := "https://idp", subject := "s", verifiedEmail := "guest@house" },
      .change (.removeUser "guest@house") houseDrawn,
      .change (.inviteUser "guest@house" ["admin"] "https://idp") houseDrawn]

def reinvitedDb : AuthDb := (accessTables plainTexts).after {} reinvitedMoves

theorem reinvitedDb_reachable : Reachable (accessTables plainTexts) reinvitedDb :=
  reachable_after rfl
    (show ((accessTables plainTexts).run {} reinvitedMoves).isSome = true by decide)

/-- They now sign in with another address. -/
def movedIdentity : Identity where
  issuer := "https://idp"
  subject := "s"
  verifiedEmail := "moved@house"

/-- The guard says they manage access, and the sign-in is refused. -/
theorem moved_counts :
    Reachable (accessTables plainTexts) reinvitedDb ∧
      movedIdentity.issuer ∈ BrowserAccess.issuers (some houseAccess) ∧
      (reinvitedDb.loadGuard (some houseAccess) [] 0).canManage plainTexts movedIdentity = true ∧
      reinvitedDb.authorize plainTexts houseAccess.permissions movedIdentity = [] := by
  refine ⟨reinvitedDb_reachable, ?_, ?_, ?_⟩
  · decide
  · decide
  · decide

/-- With their own address both say that they do. -/
theorem own_address_agrees :
    ((reinvitedDb.loadGuard (some houseAccess) [] 0).canManage plainTexts
          { movedIdentity with verifiedEmail := "guest@house" } = true ↔
        "access:manage" ∈ reinvitedDb.authorize plainTexts
          (BrowserAccess.wide (some houseAccess))
          { movedIdentity with verifiedEmail := "guest@house" }) ↔
      ¬ reinvitedDb.ManagesElsewhere plainTexts
        { movedIdentity with verifiedEmail := "guest@house" } :=
  AuthDb.canManage_agrees_iff reinvitedDb_reachable (by decide)

/-! ## Somebody can manage access -/

namespace AuthDb

variable {t : Texts} {db : AuthDb} {cfg : Option (BrowserAccess t)} {keys : List ApiKey}
  {now : Int} {id : Identity}

/-- A sign-in of a configured provider that may manage access, by the policy. -/
def SomebodyManages (t : Texts) (cfg : Option (BrowserAccess t)) (db : AuthDb) : Prop :=
  ∃ id : Identity, id.issuer ∈ BrowserAccess.issuers cfg ∧
    ∃ d, (db.resolvePolicy t id true).1 = some d ∧ "access:manage" ∈ d.permissions

theorem somebodyManages_of_grants (h : db.WellFormed t) (hp : db.loadPolicy = some p)
    (id : Identity) {name : String} (hi : id.issuer ∈ BrowserAccess.issuers cfg)
    (hdue : p.Due t id (standing t (db.people t) id) name) (hm : p.roleManages name = true) :
    db.SomebodyManages t cfg := by
  have hmay : "access:manage" ∈ db.authorize t [] id := by
    rw [mem_authorize h, hp]
    exact ⟨name, hdue, of_decide_eq_true hm⟩
  refine ⟨id, hi, ?_⟩
  unfold authorize at hmay
  split at hmay
  · exact absurd hmay (by simp)
  · next d hd => exact ⟨d, hd, hmay⟩

theorem standing_guest (h : PeopleFormed t db.users) (hl : db.lookup id = none)
    (hnobody : ∀ u ∈ db.users, u.email ≠ t.toLower id.verifiedEmail) :
    standing t (db.people t) id = .guest := by
  rw [standing_free h hl, show db.userByEmail (t.toLower id.verifiedEmail) = none from
    get_eq_none.2 hnobody]

theorem standing_ne_refused (h : PeopleFormed t db.users) (hl : db.lookup id = none)
    (hopen : ∀ u ∈ db.users, u.email = t.toLower id.verifiedEmail → u.status.refused = false) :
    standing t (db.people t) id ≠ .refused := by
  rw [standing_free h hl]
  cases hu : db.userByEmail (t.toLower id.verifiedEmail) with
  | none => simp
  | some u =>
    obtain ⟨hmem, he⟩ := (userByEmail_eq_some h).1 hu
    simp only [hopen u hmem he, Bool.false_eq_true, if_false]
    split
    · simp
    · simp

theorem standing_own (h : PeopleFormed t db.users) (hl : db.lookup id = some u)
    (hopen : u.status.refused = false) (he : t.toLower id.verifiedEmail = u.email) :
    standing t (db.people t) id = .person (db.guardUser t u) := by
  rw [standing_linked h hl, if_pos]
  cases hs : u.status with
  | active => exact .inl rfl
  | pending => exact .inr ⟨rfl, he⟩
  | disabled | removed => exact absurd hopen (by simp [hs, UserStatus.refused])

theorem manages_by_binding (h : db.WellFormed t) (hp : db.loadPolicy = some p) {b : Binding}
    (hb : b ∈ p.bindings) (hm : p.roleManages b.role = true)
    (hi : b.issuer ∈ BrowserAccess.issuers cfg) (hmatch : b.matches t id = true)
    (hid : id.issuer = b.issuer) (hs : standing t (db.people t) id ≠ .refused) :
    db.SomebodyManages t cfg := by
  refine somebodyManages_of_grants h hp id (hid ▸ hi) ⟨hs, .inr (.inl ?_)⟩ hm
  exact ⟨b, hb, BrowserAccess.issuers_ne hi, rfl, hmatch⟩

/-- A person who holds a role that manages, and whom a configured provider reaches. -/
theorem manages_by_person (keys : List ApiKey) (now : Int) (h : db.WellFormed t)
    (hp : db.loadPolicy = some p) (hu : u ∈ db.users) (hopen : u.status.refused = false)
    (hreach : (db.loadGuard cfg keys now).canSignIn (db.guardUser t u) = true)
    (hroles : (db.rolesOf t u).any p.roleManages = true) : db.SomebodyManages t cfg := by
  obtain ⟨name, hname, hm⟩ := List.any_eq_true.1 hroles
  have haddress := h.people.address u hu
  unfold Guard.canSignIn at hreach
  rw [Bool.or_eq_true, decide_eq_true_eq, List.any_eq_true] at hreach
  obtain hinvited | ⟨l, hl, hi⟩ := hreach
  · -- A new subject of the provider they were invited through claims the record.
    have hi : u.invitedBy.getD "" ∈ BrowserAccess.issuers cfg := hinvited
    have hne := BrowserAccess.issuers_ne hi
    obtain ⟨subject, hfree⟩ := db.exists_free_subject (u.invitedBy.getD "") u.email
    have hrecord : db.userByEmail (t.toLower u.email) = some u :=
      (userByEmail_eq_some h.people).2 ⟨hu, haddress.1.symm⟩
    have hissuer : u.invitedBy = some (u.invitedBy.getD "") := by
      cases hb : u.invitedBy with
      | none => exact absurd (by rw [hb]; rfl) hne
      | some i => rfl
    have hs : standing t (db.people t)
        { issuer := u.invitedBy.getD "", subject := subject, verifiedEmail := u.email } =
          .person (db.guardUser t u) := by
      rw [standing_free h.people hfree]
      simp only [hrecord, hopen, ← hissuer]
      rfl
    exact somebodyManages_of_grants h hp
      { issuer := u.invitedBy.getD "", subject := subject, verifiedEmail := u.email } hi
      ⟨by rw [hs]; simp, .inr (.inr ⟨_, hs, hname⟩)⟩ hm
  · -- Whoever is linked to them signs in with their address.
    have hi : l.1 ∈ BrowserAccess.issuers cfg := of_decide_eq_true hi
    have hl : l ∈ u.identities := hl
    have hfind : db.lookup { issuer := l.1, subject := l.2, verifiedEmail := u.email } = some u :=
      lookup_of_link h.people hu hl
    have hs := standing_own h.people hfind hopen haddress.1
    exact somebodyManages_of_grants h hp
      { issuer := l.1, subject := l.2, verifiedEmail := u.email } hi
      ⟨by rw [hs]; simp, .inr (.inr ⟨_, hs, hname⟩)⟩ hm

theorem manages_by_open_binding (keys : List ApiKey) (now : Int) (h : db.WellFormed t)
    (hp : db.loadPolicy = some p) {b : Binding} (hb : b ∈ p.bindings)
    (hm : p.roleManages b.role = true) (hi : b.issuer ∈ BrowserAccess.issuers cfg)
    (hemail : b.kind = .email → ((db.loadGuard cfg keys now).user t b.email).any
      (fun u => u.status.refused) = false)
    (hsubject : b.kind = .subject → ((db.loadGuard cfg keys now).linked t
      { issuer := b.issuer, subject := b.subject }).any (fun u => u.status.refused) = false) :
    db.SomebodyManages t cfg := by
  have hproper := (loaded h.policy hp).proper b hb
  unfold Binding.Proper at hproper
  cases hk : b.kind with
  | other kind =>
    rw [hk] at hproper
    exact absurd hproper not_false
  | emailDomain =>
    rw [hk] at hproper
    obtain ⟨email, hlow, hdomain, hunused⟩ :=
      exists_free_address (db.users.map AuthUser.email) hproper.1 hproper.2.1
    obtain ⟨subject, hfree⟩ := db.exists_free_subject b.issuer email
    have hnobody : ∀ u ∈ db.users, u.email ≠ t.toLower email := by
      intro u hu he
      exact hunused (List.mem_map.2 ⟨u, hu, he.trans hlow⟩)
    have hs := standing_guest h.people hfree hnobody
    refine manages_by_binding h hp hb hm hi ?_ rfl (by rw [hs]; simp)
    rw [Binding.matches_domain hk, show t.toLower email = email from hlow]
    exact ⟨hdomain, rfl⟩
  | email =>
    rw [hk] at hproper
    obtain ⟨subject, hfree⟩ := db.exists_free_subject b.issuer b.email
    have hs := standing_ne_refused h.people hfree fun u hu he => by
      have hopen := hemail hk
      rw [user_loadGuard h.people, (userByEmail_eq_some h.people).2 ⟨hu, he⟩] at hopen
      exact hopen
    refine manages_by_binding h hp hb hm hi ?_ rfl hs
    rw [Binding.matches_email hk, show t.toLower b.email = b.email from hproper.1]
    exact ⟨hproper.2.1, rfl, rfl⟩
  | subject =>
    have hopen := hsubject hk
    cases hl : db.lookup { issuer := b.issuer, subject := b.subject } with
    | none =>
      have hnobody : ∀ u ∈ db.users, u.email ≠ t.toLower "" := by
        intro u hu he
        refine (h.people.address u hu).2 (he.trans ?_)
        exact t.lowered_empty
      have hs := standing_guest h.people hl hnobody
      exact manages_by_binding h hp hb hm hi ((Binding.matches_subject hk).2 rfl) rfl
        (by rw [hs]; simp)
    | some u =>
      rw [linked_of_lookup hl] at hopen
      obtain ⟨hu, hlink⟩ := lookup_mem hl
      have hl' : db.lookup
          { issuer := b.issuer, subject := b.subject, verifiedEmail := u.email } = some u := hl
      have hs := standing_own h.people hl' hopen (h.people.address u hu).1
      exact manages_by_binding h hp hb hm hi ((Binding.matches_subject hk).2 rfl) rfl
        (by rw [hs]; simp)

/-- Where the guard finds a manager there is one: a key, somebody who can sign in, or
whoever signs in where there is no policy. -/
theorem hasManager_sound (h : Reachable (accessTables t) db)
    (hm : (db.loadGuard cfg keys now).hasManager t = true) :
    (∃ k ∈ keys, activeKey now k = true ∧ "access:manage" ∈ k.scopes) ∨
      db.SomebodyManages t cfg ∨
      (db.loadPolicy = none ∧ "access:manage" ∈ BrowserAccess.wide cfg) := by
  have hw := wellFormed_of_reachable h
  unfold Guard.hasManager at hm
  split at hm
  · next hkeys =>
    obtain ⟨i, hi⟩ := List.exists_mem_of_ne_nil _ hkeys
    obtain ⟨k, hk, -⟩ := List.mem_map.1 hi
    obtain ⟨hk, hactive⟩ := List.mem_filter.1 hk
    rw [Bool.and_eq_true, decide_eq_true_eq] at hactive
    exact .inl ⟨k, hk, hactive.1, hactive.2⟩
  · split at hm
    · exact absurd hm (by simp)
    · next hissuers =>
      split at hm
      · next hp => exact .inr (.inr ⟨hp, of_decide_eq_true hm⟩)
      · next p hp =>
        refine .inr (.inl ?_)
        simp only [Bool.or_eq_true, Option.any_eq_true, List.any_eq_true, Bool.and_eq_true,
          decide_eq_true_eq] at hm
        obtain (⟨name, hname, hrole⟩ | ⟨b, hb, ⟨hrole, hi⟩, hkind⟩) |
          ⟨u, hu, ⟨hopen, hreach⟩, hroles⟩ := hm
        · -- By default: anybody who is new.
          obtain ⟨i, hi⟩ := List.exists_mem_of_ne_nil _ hissuers
          obtain ⟨subject, hfree⟩ := db.exists_free_subject i ""
          have hs : standing t (db.people t) { issuer := i, subject := subject } = .guest := by
            refine standing_guest hw.people hfree fun u hu he => ?_
            exact (hw.people.address u hu).2 (he.trans t.lowered_empty)
          exact somebodyManages_of_grants hw hp { issuer := i, subject := subject } hi
            ⟨by rw [hs]; simp, .inl hname⟩ hrole
        · refine manages_by_open_binding keys now hw hp hb hrole hi
            (fun hk => ?_) fun hk => ?_
          · simpa [hk] using hkind
          · simpa [hk] using hkind
        · obtain ⟨v, hv, rfl⟩ := List.mem_map.1 hu
          have hopen : (db.guardUser t v).status.refused = false := by simpa using hopen
          refine manages_by_person keys now hw hp hv hopen hreach ?_
          obtain ⟨name, hname, hrole⟩ := hroles
          exact List.any_eq_true.2 ⟨name, hname, hrole⟩

end AuthDb

/-- The owner's binding is found, and the owner can sign in. -/
theorem house_managed :
    (∃ k ∈ ([] : List ApiKey), activeKey 0 k = true ∧ "access:manage" ∈ k.scopes) ∨
      houseDb.SomebodyManages plainTexts (some houseAccess) ∨
      (houseDb.loadPolicy = none ∧ "access:manage" ∈ BrowserAccess.wide (some houseAccess)) :=
  AuthDb.hasManager_sound houseDb_reachable (by decide)

end LocalBase.Auth
