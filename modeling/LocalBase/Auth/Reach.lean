import LocalBase.Auth.Granting

/-!
# What a person can do

The check before acting on a person reads their record: the roles they hold, the
default role, and those bound to the record's address, to its domain or to one of
its identities. An identity signs in with an address of its own, which need not be
the record's, and a claim brings a subject that the record does not have yet.
-/

namespace LocalBase.Auth

open Machine Records

namespace AuthDb

variable {t : Texts} {db : AuthDb} {holds : List String} {p : Policy} {id : Identity}
  {u : AuthUser} {b : Binding}

/-- The identity is linked to the person, or is linked to nobody and claims the record. -/
def SignsInAs (t : Texts) (db : AuthDb) (u : AuthUser) (id : Identity) : Prop :=
  (id.issuer, id.subject) ∈ u.identities ∨
    ((∀ v ∈ db.users, (id.issuer, id.subject) ∉ v.identities) ∧
      t.toLower id.verifiedEmail = u.email ∧ u.invitedBy = some id.issuer)

/-- A binding that the record does not show, of whoever signs in as the person: of any
address or domain at a provider that an active person is linked at, or of a subject
linked to nobody at the provider that can claim the record. -/
def NamesElsewhere (db : AuthDb) (u : AuthUser) (b : Binding) : Prop :=
  b.issuer ≠ "" ∧
    match b.kind with
    | .subject => u.status.refused = false ∧ u.invitedBy = some b.issuer ∧
        ∀ v ∈ db.users, (b.issuer, b.subject) ∉ v.identities
    | .email | .emailDomain => u.status = .active ∧ ∃ l ∈ u.identities, l.1 = b.issuer
    | .other _ => False

theorem standing_of_signsIn (h : PeopleFormed t db.users) (hu : u ∈ db.users)
    (hid : SignsInAs t db u id) :
    (standing t (db.people t) id = .person (db.guardUser t u) ∧ u.status.refused = false ∧
        (((id.issuer, id.subject) ∈ u.identities ∧ u.status = .active) ∨
          t.toLower id.verifiedEmail = u.email)) ∨
      standing t (db.people t) id = .refused := by
  rcases hid with hl | ⟨hfree, he, hinvited⟩
  · rw [standing_linked h (lookup_of_link h hu hl)]
    split
    · next hs =>
      refine .inl ⟨rfl, ?_, hs.imp (fun ha => ⟨hl, ha⟩) fun hp => hp.2⟩
      rcases hs with hs | ⟨hs, -⟩ <;> simp [UserStatus.refused, hs]
    · exact .inr rfl
  · have hfound : db.userByEmail (t.toLower id.verifiedEmail) = some u :=
      (userByEmail_eq_some h).2 ⟨hu, he.symm⟩
    rw [standing_free h (lookup_eq_none.2 hfree), hfound]
    dsimp only
    rw [if_pos hinvited]
    split
    · exact .inr rfl
    · next hs => exact .inl ⟨rfl, Bool.eq_false_iff.mpr hs, .inr he⟩

theorem namesElsewhere_of_matches (hid : SignsInAs t db u id) (hissuer : b.issuer ≠ "")
    (hm : b.matches t id = true) (hs : u.status.refused = false)
    (hown : ((id.issuer, id.subject) ∈ u.identities ∧ u.status = .active) ∨
      t.toLower id.verifiedEmail = u.email) : InReach u b ∨ db.NamesElsewhere u b := by
  unfold InReach NamesElsewhere
  cases hk : b.kind with
  | other k => exact absurd ((Binding.not_matches_other hk).symm.trans hm) (by simp)
  | subject =>
    have hsubject := (Binding.matches_subject hk).1 hm
    rcases hid with hl | ⟨hfree, -, hinvited⟩
    · exact .inl (hsubject ▸ hl)
    · refine .inr ⟨hissuer, hs, ?_, ?_⟩
      · rw [hinvited, (Prod.mk.inj hsubject).1]
      · rw [hsubject]
        exact hfree
  | email =>
    obtain ⟨-, he, hi⟩ := (Binding.matches_email hk).1 hm
    rcases hown with ⟨hl, ha⟩ | hown
    · exact .inr ⟨hissuer, ha, _, hl, hi.symm⟩
    · exact .inl (he.trans hown)
  | emailDomain =>
    obtain ⟨hd, hi⟩ := (Binding.matches_domain hk).1 hm
    rcases hown with ⟨hl, ha⟩ | hown
    · exact .inr ⟨hissuer, ha, _, hl, hi.symm⟩
    · rw [hown] at hd
      exact .inl (domainOf_eq_some hd).symm

/-- A binding that names a person elsewhere is one of somebody who signs in as them. -/
theorem signsIn_of_namesElsewhere (h : PeopleFormed t db.users) (hu : u ∈ db.users)
    (hb : b.Proper t) (hn : db.NamesElsewhere u b) :
    ∃ id, SignsInAs t db u id ∧ b.matches t id = true ∧
      standing t (db.people t) id = .person (db.guardUser t u) := by
  obtain ⟨-, hn⟩ := hn
  have hlinked : ∀ email l, l ∈ u.identities → u.status = .active →
      standing t (db.people t) ⟨l.1, l.2, email⟩ = .person (db.guardUser t u) := by
    intro email l hl ha
    rw [standing_linked h (lookup_of_link h hu hl), if_pos (.inl ha)]
  unfold Binding.Proper at hb
  cases hk : b.kind with
  | other k =>
    rw [hk] at hn
    exact absurd hn not_false
  | subject =>
    rw [hk] at hn
    obtain ⟨hs, hinvited, hfree⟩ := hn
    have haddress : t.toLower u.email = u.email := (h.address u hu).1
    refine ⟨⟨b.issuer, b.subject, u.email⟩, .inr ⟨hfree, haddress, hinvited⟩,
      (Binding.matches_subject hk).2 rfl, ?_⟩
    rw [standing_free h (lookup_eq_none.2 hfree)]
    dsimp only
    rw [haddress, (userByEmail_eq_some h).2 ⟨hu, rfl⟩]
    dsimp only
    rw [hs, if_neg Bool.false_ne_true, if_pos hinvited]
  | email =>
    rw [hk] at hn hb
    obtain ⟨ha, l, hl, hli⟩ := hn
    have hlow : t.toLower b.email = b.email := hb.1
    refine ⟨⟨l.1, l.2, b.email⟩, .inl hl, (Binding.matches_email hk).2 ?_, hlinked _ l hl ha⟩
    dsimp only
    rw [hlow]
    exact ⟨hb.2.1, rfl, hli.symm⟩
  | emailDomain =>
    rw [hk] at hn hb
    obtain ⟨ha, l, hl, hli⟩ := hn
    obtain ⟨email, hlow, hd, -⟩ := exists_free_address [] hb.1 hb.2.1
    refine ⟨⟨l.1, l.2, email⟩, .inl hl, (Binding.matches_domain hk).2 ?_, hlinked _ l hl ha⟩
    rw [show t.toLower email = email from hlow]
    exact ⟨hd, hli.symm⟩

/-- Whoever may act on a person can do what everybody can who signs in as them, if and
only if they hold the roles of all bindings that name the person elsewhere. -/
theorem checkUser_covers_iff {cfg : Option (BrowserAccess t)} {keys : List ApiKey} {now : Int}
    {email : String} (h : Reachable (accessTables t) db) (hp : db.loadPolicy = some p)
    (hu : u ∈ db.users) (hs : u.status ≠ .removed) (he : t.toLower email = u.email)
    (hc : (db.loadGuard cfg keys now).checkUser t holds email = .ok ()) :
    (∀ id, SignsInAs t db u id →
        ∀ perm ∈ db.authorize t (BrowserAccess.wide cfg) id, perm ∈ holds) ↔
      ∀ b ∈ p.bindings, db.NamesElsewhere u b → p.Within holds b.role := by
  have hformed := wellFormed_of_reachable h
  have hmay : ∀ id perm, perm ∈ db.authorize t (BrowserAccess.wide cfg) id ↔
      p.Grants t id (standing t (db.people t) id) perm := fun id perm => by
    rw [mem_authorize hformed, hp]
    rfl
  constructor
  · intro hall b hb hn perm hin
    obtain ⟨id, hid, hm, hperson⟩ :=
      signsIn_of_namesElsewhere hformed.people hu ((loaded hformed.policy hp).proper b hb) hn
    refine hall id hid perm ((hmay id perm).2 ?_)
    rw [hperson, grants_person]
    exact ⟨b.role, .inr (.inl ⟨b, hb, hn.1, rfl, hm⟩), hin⟩
  · intro hall id hid perm hperm
    obtain ⟨hroles, hdefault, hreach⟩ := checkUser_ok hformed hp hc hu he.symm hs
    rw [hmay] at hperm
    rcases standing_of_signsIn hformed.people hu hid with ⟨hperson, hlive, hown⟩ | hrefused
    · rw [hperson, grants_person] at hperm
      obtain ⟨name, hname | ⟨b, hb, hissuer, rfl, hm⟩ | hname, hin⟩ := hperm
      · exact hdefault name hname perm hin
      · rcases namesElsewhere_of_matches hid hissuer hm hlive hown with hshown | hn
        · exact hreach b hb hshown perm hin
        · exact hall b hb hn perm hin
      · exact hroles name hname perm hin
    · rw [hrefused] at hperm
      exact absurd hperm not_grants_refused

end AuthDb

/-! ## The house once more -/

/-- A guest, who is a member, has signed in. -/
def guestMoves : List AccessMove :=
  houseMoves ++
    [.change (.inviteUser "guest@house" ["member"] "https://idp") houseDrawn,
      .signIn { issuer := "https://idp", subject := "s", verifiedEmail := "guest@house" }]

def guestDb : AuthDb := (accessTables plainTexts).after {} guestMoves

theorem guestDb_reachable : Reachable (accessTables plainTexts) guestDb :=
  reachable_after rfl
    (show ((accessTables plainTexts).run {} guestMoves).isSome = true by decide)

def guestUser : AuthUser where
  id := "u1"
  email := "guest@house"
  status := .active
  roles := ["member"]
  identities := [("https://idp", "s")]
  invitedBy := some "https://idp"

/-- The guest's account now brings the owner's address. Whoever holds what a member does may
act on the guest, who reads the models. -/
theorem guest_brings_owner :
    Reachable (accessTables plainTexts) guestDb ∧ guestDb.loadPolicy.isSome = true ∧
      guestUser ∈ guestDb.users ∧
      (guestDb.loadGuard (some houseAccess) [] 0).checkUser plainTexts memberHolds "guest@house" =
        .ok () ∧
      AuthDb.SignsInAs plainTexts guestDb guestUser ownerIdentity ∧
      "models:read" ∈ guestDb.authorize plainTexts (BrowserAccess.wide (some houseAccess))
        ownerIdentity ∧
      "models:read" ∉ memberHolds := by
  refine ⟨guestDb_reachable, ?_, ?_, ?_, .inl ?_, ?_, ?_⟩
  · decide
  · decide
  · decide
  · decide
  · decide
  · decide

/-- Whoever holds what both roles give may act on the guest, and can do all that the guest
can. -/
theorem guest_covered :
    (guestDb.loadGuard (some houseAccess) [] 0).checkUser plainTexts
        ("models:read" :: memberHolds) "guest@house" = .ok () ∧
      ∀ id, AuthDb.SignsInAs plainTexts guestDb guestUser id →
        ∀ perm ∈ guestDb.authorize plainTexts (BrowserAccess.wide (some houseAccess)) id,
          perm ∈ "models:read" :: memberHolds := by
  have hp : guestDb.loadPolicy = some (housePolicy none) := by decide
  have hu : guestUser ∈ guestDb.users := by decide
  have hc : (guestDb.loadGuard (some houseAccess) [] 0).checkUser plainTexts
      ("models:read" :: memberHolds) "guest@house" = .ok () := by decide
  have he : plainTexts.toLower "guest@house" = guestUser.email := by decide
  refine ⟨hc, (AuthDb.checkUser_covers_iff guestDb_reachable hp hu (by decide) he hc).mpr ?_⟩
  intro b hb _
  obtain rfl := List.mem_singleton.mp hb
  unfold Policy.Within
  decide

end LocalBase.Auth
