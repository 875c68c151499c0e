import LocalBase.Auth.PolicyChange

/-!
# Links by mail

Somebody who can sign in through mail asks for a link, and whoever has its token signs in
as them, once, within a quarter of an hour. Asking again changes nothing while the link
still works. Each of these is one transaction, between whatever else is done to the
people and their roles.

What is drawn at random was never drawn before. Clocks are in nanoseconds, and a stored
time in milliseconds.
-/

namespace LocalBase.Auth

open Fuel Machine Records

def magicLinkTTL : Int := 900000000000

def millisecond : Int := 1000000

/-- `magicTokenRe` -/
def isMagicToken (token : String) : Bool :=
  token.length = 43 && token.toList.all fun c => c.isAlphanum || c = '_' || c = '-'

/-- `auth_magic_link_tokens` -/
structure TokenRow where
  userId : String
  tokenHash : String
  expiresAt : Int
deriving DecidableEq

/-- A link that was issued: to whom, for which address, and when. -/
structure Mailed where
  tokenHash : String
  userId : String
  address : String
  at' : Int
deriving DecidableEq

/-- A link that somebody signed in with. -/
structure SignedIn where
  tokenHash : String
  identity : Identity
  at' : Int
deriving DecidableEq

/-- The tables, and what happened. -/
structure MagicDb where
  db : AuthDb := {}
  tokens : List TokenRow := []
  mailed : List Mailed := []
  signIns : List SignedIn := []

/-- A person whom nothing keeps from signing in. -/
def AuthUser.welcome (u : AuthUser) : Bool := u.status = .pending || u.status = .active

/-- The person may sign in through the provider: was invited through it, or has. -/
def AuthUser.through (u : AuthUser) (issuer : String) : Bool :=
  u.invitedBy = some issuer || u.identities.any fun l => l.1 = issuer

namespace MagicDb

section
variable (t : Texts) (hashToken : String → String)

/-- `IssueMagicLink`, with the token it draws and the clock before and after it looked for
a link: what the caller has to mail, and where to. -/
def issueMagicLink (m : MagicDb) (email issuer token : String) (asked issued : Int) :
    MagicDb × Option (String × String) :=
  let email := t.validEmail email
  if email = "" then (m, none)
  else
    match m.db.users.find? fun u => u.email = email && u.through issuer with
    | none => (m, none)
    | some u =>
      if ¬ u.welcome then (m, none)
      -- A link that is still unused and unexpired stays the one that works.
      else if (m.tokens.find? fun r => r.userId = u.id).any fun r => asked < r.expiresAt then
        (m, none)
      else
        let expires := (issued + magicLinkTTL) / millisecond * millisecond
        ({ m with
            tokens := ⟨u.id, hashToken token, expires⟩ ::
              m.tokens.filter fun r => r.userId ≠ u.id
            mailed := ⟨hashToken token, u.id, email, issued⟩ :: m.mailed },
          some (token, email))

/-- The rows but those with a token. -/
def without (m : MagicDb) (h : String) : MagicDb :=
  { m with tokens := m.tokens.filter fun r => r.tokenHash ≠ h }

/-- `RevokeMagicLink` -/
def revokeMagicLink (m : MagicDb) (token : String) : MagicDb :=
  if isMagicToken token then m.without (hashToken token) else m

/-- `ConsumeMagicLink`. It is used up first, or not at all. -/
def consumeMagicLink (m : MagicDb) (token issuer : String) (now : Int) :
    MagicDb × Option Identity :=
  if ¬ isMagicToken token then (m, none)
  else
    let h := hashToken token
    let m' := m.without h
    match m.tokens.find? fun r => r.tokenHash = h with
    | none => (m', none)
    | some r =>
      match m.db.users.find? fun u => u.id = r.userId with
      | none => (m', none)
      | some u =>
        if u.welcome && now < r.expiresAt then
          let id : Identity := ⟨issuer, u.id, u.email⟩
          ({ m' with signIns := ⟨h, id, now⟩ :: m.signIns }, some id)
        else (m', none)

/-- What a change of the people leaves: a person who is removed has no link. -/
def tokensAfter (m : MagicDb) : AccessChange → List TokenRow
  | .removeUser email =>
    match m.db.userByEmail (t.validEmail email) with
    | some u => m.tokens.filter fun r => r.userId ≠ u.id
    | none => m.tokens
  | _ => m.tokens

end

end MagicDb

inductive MagicMove
  | access (e : AccessMove)
  | ask (email token : String) (asked issued : Int)
  | revoke (token : String)
  | redeem (token : String) (now : Int)
  | clear

/-- The access tables with mail as one of the providers. `magic` is its issuer, and who
signs in with it has redeemed a link. -/
def magicLinks (t : Texts) (hashToken : String → String) (magic : String) :
    System MagicDb MagicMove where
  init m := m = {}
  step m
    | .access (.change c drawn) =>
      (m.db.carryOut t drawn c).toOption.map fun db =>
        { m with db := db, tokens := m.tokensAfter t c }
    | .access (.signIn id) =>
      if id.issuer = magic ∧ ∀ s ∈ m.signIns, s.identity ≠ id then none
      else some { m with db := (m.db.resolvePolicy t id true).2 }
    | .ask email token asked issued =>
      if ∃ x ∈ m.mailed, x.tokenHash = hashToken token then none
      else some (m.issueMagicLink t hashToken email magic token asked issued).1
    | .revoke token => some (m.revokeMagicLink hashToken token)
    | .redeem token now => some (m.consumeMagicLink hashToken token magic now).1
    | .clear => some { m with tokens := [] }

/-! ## What becomes of a record -/

/-- What one move makes of a record. Its address stays, and so does the provider that can
claim it, unless it is removed or invited again; it is linked to nothing but the identity
that signs in, and that brings its address. -/
structure Became (t : Texts) (who : Option Identity) (gone : String → Prop) (u v : AuthUser) :
    Prop where
  id : v.id = u.id
  email : v.email = u.email
  linked : u.identities ⊆ v.identities
  link : ∀ l ∈ v.identities, l ∈ u.identities ∨
    ∃ i, who = some i ∧ l = (i.issuer, i.subject) ∧ t.toLower i.verifiedEmail = u.email
  invited : v.invitedBy = u.invitedBy ∨ u.status = .removed ∨ v.status = .removed
  removed : v.status = .removed → u.status = .removed ∨ gone u.email

/-- What one move makes of the people: each is there as before or changed, and who is new
is linked to nothing. -/
structure Moved (t : Texts) (who : Option Identity) (gone : String → Prop)
    (us vs : List AuthUser) : Prop where
  went : ∀ u ∈ us, ∃ v ∈ vs, Became t who gone u v
  came : ∀ v ∈ vs, (∃ u ∈ us, Became t who gone u v) ∨ v.identities = []

variable {c : AccessChange}

section Moves

variable {t : Texts} {who : Option Identity} {gone : String → Prop} {us vs : List AuthUser}
  {u v : AuthUser} {db db' : AuthDb} {f : AuthUser → AuthUser}

theorem Became.refl (u : AuthUser) : Became t who gone u u :=
  ⟨rfl, rfl, fun _ h => h, fun _ h => .inl h, .inl rfl, .inl⟩

theorem Moved.map (h : ∀ u ∈ us, Became t who gone u (f u)) :
    Moved t who gone us (us.map f) := by
  refine ⟨fun u hu => ⟨f u, List.mem_map_of_mem hu, h u hu⟩, fun v hv => ?_⟩
  obtain ⟨u, hu, rfl⟩ := List.mem_map.1 hv
  exact .inl ⟨u, hu, h u hu⟩

theorem Moved.refl (us : List AuthUser) : Moved t who gone us us :=
  ⟨fun u hu => ⟨u, hu, .refl u⟩, fun v hv => .inl ⟨v, hv, .refl v⟩⟩

theorem Moved.update {k : String} (h : ∀ u ∈ db.users, u.id = k → Became t who gone u (f u)) :
    Moved t who gone db.users (db.updateUser k f).users := by
  refine Moved.map fun u hu => ?_
  split
  · next hk => exact h u hu hk
  · exact .refl u

/-- Who becomes what one move makes of them, and then another, where none is removed. -/
theorem Became.trans {w : AuthUser} (h : Became t who (fun _ => False) u v)
    (h' : Became t who (fun _ => False) v w) : Became t who (fun _ => False) u w where
  id := h'.id.trans h.id
  email := h'.email.trans h.email
  linked _ hl := h'.linked (h.linked hl)
  link l hl := by
    obtain hl | ⟨i, hi, hli, he⟩ := h'.link l hl
    · exact h.link l hl
    · exact .inr ⟨i, hi, hli, he.trans h.email⟩
  invited := by
    obtain hw | hv | hw := h'.invited
    · obtain hv | hu | hv := h.invited
      · exact .inl (hw.trans hv)
      · exact .inr (.inl hu)
      · exact .inr (.inl ((h.removed hv).resolve_right not_false))
    · exact .inr (.inl ((h.removed hv).resolve_right not_false))
    · exact .inr (.inr hw)
  removed hw := h.removed ((h'.removed hw).resolve_right not_false)

/-- What a sign-in makes of the people: nobody is new, and nobody is removed. -/
def Turned (t : Texts) (id : Identity) (us vs : List AuthUser) : Prop :=
  ∃ f : AuthUser → AuthUser, vs = us.map f ∧
    ∀ u ∈ us, Became t (some id) (fun _ => False) u (f u)

theorem Turned.moved {id : Identity} (h : Turned t id us vs) :
    Moved t (some id) (fun _ => False) us vs := by
  obtain ⟨f, rfl, hf⟩ := h
  exact .map hf

theorem Turned.refl {id : Identity} : Turned t id us us :=
  ⟨fun u => u, (List.map_id us).symm, fun u _ => .refl u⟩

theorem Turned.trans {id : Identity} {ws : List AuthUser} (h : Turned t id us vs)
    (h' : Turned t id vs ws) : Turned t id us ws := by
  obtain ⟨f, rfl, hf⟩ := h
  obtain ⟨g, rfl, hg⟩ := h'
  exact ⟨g ∘ f, List.map_map, fun u hu => (hf u hu).trans (hg _ (List.mem_map_of_mem hu))⟩

theorem Turned.update {id : Identity} {k : String}
    (h : ∀ u ∈ db.users, u.id = k → Became t (some id) (fun _ => False) u (f u)) :
    Turned t id db.users (db.updateUser k f).users := by
  refine ⟨_, rfl, fun u hu => ?_⟩
  split
  · next hk => exact h u hu hk
  · exact .refl u

theorem Turned.activated {id : Identity} (k : String) :
    Turned t id db.users (db.setStatus k .active).users :=
  .update fun u _ _ => ⟨rfl, rfl, fun _ h => h, fun _ h => .inl h, .inl rfl, fun h => by cases h⟩

theorem Turned.linked {id : Identity} (h : PeopleFormed t db.users) (hu : u ∈ db.users)
    (he : u.email = t.toLower id.verifiedEmail) :
    Turned t id db.users (db.insertIdentity u.id id).users := by
  unfold AuthDb.insertIdentity
  split
  · exact .refl
  · refine .update fun v hv hk => ?_
    obtain rfl := h.id v hv u hu hk
    refine ⟨rfl, rfl, fun _ hl => List.mem_append_left _ hl, fun l hl => ?_, .inl rfl, .inl⟩
    obtain hl | hl := List.mem_append.1 hl
    · exact .inl hl
    · exact .inr ⟨id, rfl, List.mem_singleton.1 hl, he.symm⟩

theorem claimInvitation_turned (h : PeopleFormed t db.users) {id : Identity} {claim ro : Bool}
    {s : Standing AuthUser}
    (hc : db.claimInvitation id (t.toLower id.verifiedEmail) claim ro = some (db', s)) :
    Turned t id db.users db'.users := by
  unfold AuthDb.claimInvitation at hc
  split at hc
  · cases hc
    exact .refl
  · next u hu =>
    have hfound := (AuthDb.userByEmail_eq_some h).1 hu
    have hlinked : Turned t id db.users (db.insertIdentity u.id id).users :=
      .linked h hfound.1 hfound.2
    split at hc
    · cases hc
      exact .refl
    · split at hc
      · split at hc
        · cases hc
        · dsimp only at hc
          split at hc
          · cases hc
            exact hlinked
          · split at hc
            · cases hc
              exact hlinked
            · split at hc <;> cases hc
              · exact hlinked.trans (.activated _)
              · exact hlinked
      · cases hc
        exact .refl

theorem admission_turned (h : PeopleFormed t db.users) {id : Identity} {claim ro : Bool}
    {s : Standing AuthUser}
    (hc : db.admission id (t.toLower id.verifiedEmail) claim ro = some (db', s)) :
    Turned t id db.users db'.users := by
  obtain ⟨⟨db₁, s₁⟩, hfound, hactive⟩ := Option.bind_eq_some_iff.1 hc
  have hfirst : Turned t id db.users db₁.users := by
    unfold AuthDb.identify at hfound
    split at hfound
    · cases hfound
      exact .refl
    · split at hfound
      · cases hfound
        exact .refl
      · exact claimInvitation_turned h hfound
  refine hfirst.trans ?_
  unfold AuthDb.activate at hactive
  split at hactive
  · split at hactive
    · split at hactive <;> cases hactive
      exact .activated _
    · split at hactive <;> cases hactive <;> exact .refl
  · cases hactive
    exact .refl

theorem evaluatePolicy_turned (h : PeopleFormed t db.users) {id : Identity} {claim ro : Bool}
    {r : Option Decision × AuthDb} (hc : db.evaluatePolicy t id claim ro = some r) :
    Turned t id db.users r.2.users := by
  unfold AuthDb.evaluatePolicy at hc
  split at hc
  · cases hc
    exact .refl
  · obtain ⟨⟨db₁, s₁⟩, hadmitted, rfl⟩ := Option.map_eq_some_iff.1 hc
    exact admission_turned h hadmitted

theorem resolvePolicy_turned (h : PeopleFormed t db.users) (id : Identity) (claim : Bool) :
    Turned t id db.users (db.resolvePolicy t id claim).2.users := by
  unfold AuthDb.resolvePolicy
  split
  · next r hr => exact evaluatePolicy_turned h hr
  · cases hr : db.evaluatePolicy t id claim false with
    | none => exact .refl
    | some r => exact evaluatePolicy_turned h hr

theorem carryOut_moved (h : db.WellFormed t) {drawn : Drawn}
    (hc : db.carryOut t drawn c = .ok db') :
    Moved t none (fun a => ∃ email, c = .removeUser email ∧ a = t.validEmail email)
      db.users db'.users := by
  have hroles : ∀ (u : AuthUser) (rs : List String),
      Became t none (fun a => ∃ email, c = .removeUser email ∧ a = t.validEmail email) u
        { u with roles := rs } :=
    fun u rs => ⟨rfl, rfl, fun _ h => h, fun _ h => .inl h, .inl rfl, .inl⟩
  cases c with
  | inviteUser email roles issuer =>
    obtain ⟨ids, -, -, ⟨u, hu, -, hs, rfl⟩ | ⟨-, -, rfl⟩⟩ := AuthDb.inviteUser_ok h hc
    · refine .update fun v hv hk => ?_
      obtain rfl := h.people.id v hv u hu hk
      exact ⟨rfl, rfl, fun _ h => h, fun _ h => .inl h, .inr (.inl hs), fun h => by cases h⟩
    · refine ⟨fun u hu => ⟨u, List.mem_append_left _ hu, .refl u⟩, fun v hv => ?_⟩
      obtain hv | hv := List.mem_append.1 hv
      · exact .inl ⟨v, hv, .refl v⟩
      · rw [List.mem_singleton.1 hv]
        exact .inr rfl
  | replaceUserRoles email roles =>
    obtain ⟨ids, -, u, -, -, -, rfl⟩ := AuthDb.replaceUserRoles_ok h hc
    exact .update fun v _ _ => hroles v ids
  | enableUser email | disableUser email =>
    obtain ⟨u, -, -, -, rfl⟩ := AuthDb.setUserStatus_ok h hc
    exact .update fun v _ _ =>
      ⟨rfl, rfl, fun _ h => h, fun _ h => .inl h, .inl rfl, fun h => by cases h⟩
  | removeUser email =>
    obtain ⟨u, hu, he, -, rfl⟩ := AuthDb.removeUser_ok h hc
    refine .update fun v hv hk => ?_
    obtain rfl := h.people.id v hv u hu hk
    exact ⟨rfl, rfl, fun _ h => h, fun _ h => .inl h, .inr (.inr rfl),
      fun _ => .inr ⟨email, rfl, he⟩⟩
  | applyPolicy policy =>
    obtain ⟨n, -, -, -, rfl⟩ := AuthDb.applyPolicy_ok hc
    exact .map fun u _ => hroles u _
  | clearPolicy =>
    obtain rfl | rfl := AuthDb.carryOut_clear hc
    · exact .refl _
    · exact .map fun u _ => hroles u _

end Moves

/-! ## The links -/

/-- The row is of a link that was mailed to a person who can use it, and was not used. -/
structure Waiting (magic : String) (m : MagicDb) (r : TokenRow) (x : Mailed) (u : AuthUser) :
    Prop where
  token : x.tokenHash = r.tokenHash
  user : x.userId = r.userId
  term : r.expiresAt ≤ x.at' + magicLinkTTL
  unused : ∀ s ∈ m.signIns, s.tokenHash ≠ r.tokenHash
  person : u ∈ m.db.users
  id : u.id = r.userId
  address : u.email = x.address
  there : u.status ≠ .removed
  through : u.through magic = true

structure Sound (t : Texts) (magic : String) (m : MagicDb) : Prop where
  formed : m.db.WellFormed t
  row : ∀ r ∈ m.tokens, ∃ x ∈ m.mailed, ∃ u, Waiting magic m r x u
  user : Keyed TokenRow.userId m.tokens
  token : Keyed TokenRow.tokenHash m.tokens
  mailed : (m.mailed.map Mailed.tokenHash).Nodup
  once : (m.signIns.map SignedIn.tokenHash).Nodup
  signed : ∀ s ∈ m.signIns, ∃ x ∈ m.mailed, x.tokenHash = s.tokenHash ∧
    x.userId = s.identity.subject ∧ x.address = s.identity.verifiedEmail ∧
    s.at' < x.at' + magicLinkTTL
  person : ∀ s ∈ m.signIns, s.identity.issuer = magic ∧
    ∃ u ∈ m.db.users, u.id = s.identity.subject ∧ u.email = s.identity.verifiedEmail
  own : ∀ u ∈ m.db.users, ∀ l ∈ u.identities, l.1 = magic → l.2 = u.id

/-- The link was issued, and no row has its token. -/
def MagicDb.Gone (m : MagicDb) (h : String) : Prop :=
  (∃ x ∈ m.mailed, x.tokenHash = h) ∧ ∀ r ∈ m.tokens, r.tokenHash ≠ h

variable {e : MagicMove}

section Links

variable {t : Texts} {hashToken : String → String} {magic : String} {m m' : MagicDb}
  {r : TokenRow} {u v : AuthUser} {gone : String → Prop} {who : Option Identity} {db : AuthDb}

theorem through_of_became (hb : Became t who gone u v) (hu : u.status ≠ .removed)
    (hv : v.status ≠ .removed) (h : u.through magic = true) : v.through magic = true := by
  have hsame : v.invitedBy = u.invitedBy :=
    hb.invited.resolve_right fun h => h.elim hu hv
  unfold AuthUser.through at h ⊢
  rw [Bool.or_eq_true, List.any_eq_true] at h ⊢
  rw [hsame]
  exact h.imp id fun ⟨l, hl, hm⟩ => ⟨l, hb.linked hl, hm⟩

/-- What a move of the people leaves of the links, where nobody keeps one who is gone. -/
theorem Sound.people (hm : Sound t magic m) {tokens : List TokenRow} (hdb : db.WellFormed t)
    (hmoved : Moved t who gone m.db.users db.users) (hsub : tokens.Sublist m.tokens)
    (hgone : ∀ r ∈ tokens, ∀ u ∈ m.db.users, u.id = r.userId → ¬ gone u.email)
    (hwho : ∀ i, who = some i → i.issuer = magic → ∃ s ∈ m.signIns, s.identity = i) :
    Sound t magic { m with db := db, tokens := tokens } where
  formed := hdb
  row r hr := by
    obtain ⟨x, hx, u, hw⟩ := hm.row r (hsub.subset hr)
    obtain ⟨v, hv, hb⟩ := hmoved.went u hw.person
    have hthere : v.status ≠ .removed := fun he =>
      (hb.removed he).elim hw.there (hgone r hr u hw.person hw.id)
    exact ⟨x, hx, v, { hw with
      person := hv, id := hb.id.trans hw.id, address := hb.email.trans hw.address
      there := hthere, through := through_of_became hb hw.there hthere hw.through }⟩
  user a ha b hb := hm.user a (hsub.subset ha) b (hsub.subset hb)
  token a ha b hb := hm.token a (hsub.subset ha) b (hsub.subset hb)
  mailed := hm.mailed
  once := hm.once
  signed := hm.signed
  person s hs := by
    obtain ⟨hi, u, hu, hid, he⟩ := hm.person s hs
    obtain ⟨v, hv, hb⟩ := hmoved.went u hu
    exact ⟨hi, v, hv, hb.id.trans hid, hb.email.trans he⟩
  own v hv l hl hmagic := by
    obtain ⟨u, hu, hb⟩ | hnew := hmoved.came v hv
    · rw [hb.id]
      obtain hl | ⟨i, hi, rfl, he⟩ := hb.link l hl
      · exact hm.own u hu l hl hmagic
      · -- The identity is of somebody who used a link, and brings their address.
        obtain ⟨s, hs, rfl⟩ := hwho i hi hmagic
        obtain ⟨-, w, hw, hwid, hwe⟩ := hm.person s hs
        have hsame : w.email = u.email := by
          rw [← he, ← hwe]
          exact (hm.formed.people.address w hw).1.symm
        rw [← hm.formed.people.email w hw u hu hsame]
        exact hwid.symm
    · rw [hnew] at hl
      cases hl

theorem Sound.fewer (hm : Sound t magic m) {tokens : List TokenRow}
    (hsub : tokens.Sublist m.tokens) : Sound t magic { m with tokens := tokens } := by
  have hsame : Moved t none (fun _ => False) m.db.users m.db.users := .refl _
  exact hm.people hm.formed hsame hsub (fun _ _ _ _ _ => not_false) fun _ h => by cases h

theorem mem_tokensAfter (hm : Sound t magic m) (hr : r ∈ m.tokensAfter t c) (hu : u ∈ m.db.users)
    (hid : u.id = r.userId) :
    ¬ ∃ email, c = .removeUser email ∧ u.email = t.validEmail email := by
  rintro ⟨email, rfl, he⟩
  rw [MagicDb.tokensAfter, (AuthDb.userByEmail_eq_some hm.formed.people).2 ⟨hu, he⟩] at hr
  exact of_decide_eq_true (List.mem_filter.1 hr).2 hid.symm

theorem tokensAfter_sublist (m : MagicDb) (c : AccessChange) :
    (m.tokensAfter t c).Sublist m.tokens := by
  unfold MagicDb.tokensAfter
  split
  · split
    · exact List.filter_sublist
    · exact .refl _
  · exact .refl _

theorem Sound.change (hm : Sound t magic m) {drawn : Drawn}
    (hc : m.db.carryOut t drawn c = .ok db) :
    Sound t magic { m with db := db, tokens := m.tokensAfter t c } :=
  hm.people (hm.formed.carryOut hc) (carryOut_moved hm.formed hc) (tokensAfter_sublist m c)
    (fun _ hr _ hu hid => mem_tokensAfter hm hr hu hid) fun _ h => by cases h

theorem resolvePolicy_wellFormed (h : db.WellFormed t) (id : Identity) :
    (db.resolvePolicy t id true).2.WellFormed t := by
  obtain ⟨-, hr⟩ | ⟨d, st, db', -, hclaimed, -, hr⟩ := AuthDb.resolvePolicy_spec h.people id
  · rw [hr]
    exact h
  · rw [hr]
    exact hclaimed.wellFormed h

theorem Sound.signIn (hm : Sound t magic m) {id : Identity}
    (hid : id.issuer = magic → ∃ s ∈ m.signIns, s.identity = id) :
    Sound t magic { m with db := (m.db.resolvePolicy t id true).2 } :=
  hm.people (resolvePolicy_wellFormed hm.formed id)
    (resolvePolicy_turned hm.formed.people id true).moved (.refl _)
    (fun _ _ _ _ _ => not_false) fun i hi hmagic => by
      obtain rfl := Option.some.inj hi
      exact hid hmagic

/-! ### Issuing -/

variable (t hashToken magic) in
/-- Either nothing was issued, or a link for the person of the address, who had none that
works. -/
theorem issueMagicLink_cases (m : MagicDb) (email token : String) (asked issued : Int) :
    m.issueMagicLink t hashToken email magic token asked issued = (m, none) ∨
      ∃ u ∈ m.db.users, u.email = t.validEmail email ∧ u.through magic = true ∧
        u.welcome = true ∧ (∀ r, m.tokens.find? (fun r => r.userId = u.id) = some r →
          r.expiresAt ≤ asked) ∧
        m.issueMagicLink t hashToken email magic token asked issued =
          ({ m with
              tokens := ⟨u.id, hashToken token,
                (issued + magicLinkTTL) / millisecond * millisecond⟩ ::
                m.tokens.filter fun r => r.userId ≠ u.id
              mailed := ⟨hashToken token, u.id, t.validEmail email, issued⟩ :: m.mailed },
            some (token, t.validEmail email)) := by
  unfold MagicDb.issueMagicLink
  dsimp only
  split
  · exact .inl rfl
  · split
    · exact .inl rfl
    · next u hu =>
      have hfound := List.find?_some hu
      rw [Bool.and_eq_true] at hfound
      split
      · exact .inl rfl
      · next hwelcome =>
        split
        · exact .inl rfl
        · next hdue =>
          refine .inr ⟨u, List.mem_of_find?_eq_some hu, of_decide_eq_true hfound.1, hfound.2,
            Decidable.of_not_not hwelcome, fun r hr => ?_, rfl⟩
          rw [hr] at hdue
          exact Int.not_lt.1 fun h => hdue (decide_eq_true h)

theorem Sound.ask (hm : Sound t magic m) {email token : String} {asked issued : Int}
    (hnew : ∀ x ∈ m.mailed, x.tokenHash ≠ hashToken token) :
    Sound t magic (m.issueMagicLink t hashToken email magic token asked issued).1 := by
  obtain hsame | ⟨u, hu, he, hthrough, hwelcome, -, hissued⟩ :=
    issueMagicLink_cases t hashToken magic m email token asked issued
  · rw [hsame]
    exact hm
  rw [hissued]
  have hothers : ∀ r ∈ m.tokens.filter (fun r => r.userId ≠ u.id), r ∈ m.tokens ∧ r.userId ≠ u.id :=
    fun r hr => (List.mem_filter.1 hr).imp id of_decide_eq_true
  have htoken : ∀ r ∈ m.tokens, r.tokenHash ≠ hashToken token := by
    intro r hr
    obtain ⟨x, hx, v, hw⟩ := hm.row r hr
    exact hw.token ▸ hnew x hx
  refine { hm with row := ?_, user := ?_, token := ?_, mailed := ?_, signed := ?_ }
  · intro r hr
    obtain rfl | hr := List.mem_cons.1 hr
    · refine ⟨_, List.mem_cons_self, u, rfl, rfl, Int.ediv_mul_le _ (by decide), fun s hs => ?_,
        hu, rfl, he, fun hs => ?_, hthrough⟩
      · obtain ⟨x, hx, hxs, -⟩ := hm.signed s hs
        exact hxs ▸ hnew x hx
      · simp [AuthUser.welcome, hs] at hwelcome
    · obtain ⟨x, hx, v, hw⟩ := hm.row r (hothers r hr).1
      exact ⟨x, List.mem_cons_of_mem _ hx, v, { hw with }⟩
  · intro a ha b hb hab
    obtain rfl | ha := List.mem_cons.1 ha <;> obtain rfl | hb := List.mem_cons.1 hb
    · rfl
    · exact absurd hab.symm (hothers b hb).2
    · exact absurd hab (hothers a ha).2
    · exact hm.user a (hothers a ha).1 b (hothers b hb).1 hab
  · intro a ha b hb hab
    obtain rfl | ha := List.mem_cons.1 ha <;> obtain rfl | hb := List.mem_cons.1 hb
    · rfl
    · exact absurd hab.symm (htoken b (hothers b hb).1)
    · exact absurd hab (htoken a (hothers a ha).1)
    · exact hm.token a (hothers a ha).1 b (hothers b hb).1 hab
  · refine List.nodup_cons.2 ⟨fun hmem => ?_, hm.mailed⟩
    obtain ⟨x, hx, he⟩ := List.mem_map.1 hmem
    exact hnew x hx he
  · intro s hs
    obtain ⟨x, hx, hrest⟩ := hm.signed s hs
    exact ⟨x, List.mem_cons_of_mem _ hx, hrest⟩

/-! ### Redeeming -/

variable (hashToken magic) in
/-- Either nobody signs in, and nothing but a link can be gone, or a person does whose
link it is. -/
theorem consumeMagicLink_cases (m : MagicDb) (token : String) (now : Int) :
    (∃ tokens, tokens.Sublist m.tokens ∧
        m.consumeMagicLink hashToken token magic now = ({ m with tokens := tokens }, none)) ∨
      ∃ r ∈ m.tokens, r.tokenHash = hashToken token ∧ now < r.expiresAt ∧
        ∃ u ∈ m.db.users, u.id = r.userId ∧ u.welcome = true ∧
          m.consumeMagicLink hashToken token magic now =
            ({ m with
                tokens := m.tokens.filter fun r => r.tokenHash ≠ hashToken token
                signIns := ⟨hashToken token, ⟨magic, u.id, u.email⟩, now⟩ :: m.signIns },
              some ⟨magic, u.id, u.email⟩) := by
  have hused : ∃ tokens, tokens.Sublist m.tokens ∧
      (m.without (hashToken token), (none : Option Identity)) =
        ({ m with tokens := tokens }, none) :=
    ⟨_, List.filter_sublist, rfl⟩
  unfold MagicDb.consumeMagicLink
  split
  · exact .inl ⟨m.tokens, .refl _, rfl⟩
  · dsimp only
    split
    · exact .inl hused
    · next r hr =>
      split
      · exact .inl hused
      · next u hu =>
        split
        · next hok =>
          rw [Bool.and_eq_true] at hok
          exact .inr ⟨r, List.mem_of_find?_eq_some hr, of_decide_eq_true (List.find?_some hr :),
            of_decide_eq_true hok.2, u, List.mem_of_find?_eq_some hu,
            of_decide_eq_true (List.find?_some hu :), hok.1, rfl⟩
        · exact .inl hused

theorem Sound.redeem (hm : Sound t magic m) (token : String) (now : Int) :
    Sound t magic (m.consumeMagicLink hashToken token magic now).1 := by
  obtain ⟨tokens, hsub, hused⟩ | ⟨r, hr, hhash, hnow, u, hu, hid, -, hsigned⟩ :=
    consumeMagicLink_cases hashToken magic m token now
  · rw [hused]
    exact hm.fewer hsub
  rw [hsigned]
  have hrest := hm.fewer (List.filter_sublist (p := fun r => r.tokenHash ≠ hashToken token))
  obtain ⟨x, hx, v, hw⟩ := hm.row r hr
  obtain rfl := hm.formed.people.id u hu v hw.person (hid.trans hw.id.symm)
  refine { hrest with row := ?_, once := ?_, signed := ?_, person := ?_ }
  · intro b hb
    obtain ⟨y, hy, w, hwb⟩ := hrest.row b hb
    refine ⟨y, hy, w, { hwb with unused := fun s hs => ?_ }⟩
    obtain rfl | hs := List.mem_cons.1 hs
    · exact Ne.symm (of_decide_eq_true (List.mem_filter.1 hb).2)
    · exact hwb.unused s hs
  · refine List.nodup_cons.2 ⟨fun hmem => ?_, hm.once⟩
    obtain ⟨s, hs, he⟩ := List.mem_map.1 hmem
    exact hw.unused s hs (he.trans hhash.symm)
  · intro s hs
    obtain rfl | hs := List.mem_cons.1 hs
    · exact ⟨x, hx, hw.token.trans hhash, hw.user.trans hid.symm, hw.address.symm,
        Int.lt_of_lt_of_le hnow hw.term⟩
    · exact hm.signed s hs
  · intro s hs
    obtain rfl | hs := List.mem_cons.1 hs
    · exact ⟨rfl, u, hu, rfl, rfl⟩
    · exact hm.person s hs

/-! ### Runs -/

theorem Sound.step (hm : Sound t magic m)
    (he : (magicLinks t hashToken magic).step m e = some m') : Sound t magic m' := by
  cases e with
  | access e =>
    cases e with
    | change c drawn =>
      obtain ⟨db, hdb, rfl⟩ := Option.map_eq_some_iff.1 he
      exact hm.change (ok_of_toOption hdb)
    | signIn id =>
      simp only [magicLinks] at he
      split at he
      · cases he
      · next hok =>
        cases he
        refine hm.signIn fun hmagic => ?_
        by_contra hno
        exact hok ⟨hmagic, fun s hs he => hno ⟨s, hs, he⟩⟩
  | ask email token asked issued =>
    simp only [magicLinks] at he
    split at he
    · cases he
    · next hnew =>
      cases he
      exact hm.ask fun x hx h => hnew ⟨x, hx, h⟩
  | revoke token =>
    cases he
    unfold MagicDb.revokeMagicLink
    split
    · exact hm.fewer List.filter_sublist
    · exact hm
  | redeem token now =>
    cases he
    exact hm.redeem token now
  | clear =>
    cases he
    exact hm.fewer (List.nil_sublist _)

theorem sound_empty : Sound t magic {} where
  formed := AuthDb.wellFormed_empty t
  row _ h := absurd h List.not_mem_nil
  user _ h := absurd h List.not_mem_nil
  token _ h := absurd h List.not_mem_nil
  mailed := List.nodup_nil
  once := List.nodup_nil
  signed _ h := absurd h List.not_mem_nil
  person _ h := absurd h List.not_mem_nil
  own _ h := absurd h List.not_mem_nil

theorem sound_of_reachable (h : Reachable (magicLinks t hashToken magic) m) :
    Sound t magic m := by
  refine Reachable.invariant (fun m hm => ?_) (fun m e m' hm he => hm.step he) h
  rw [show m = {} from hm]
  exact sound_empty

/-- A link that was issued, and has no row, has none again, and nobody signs in with it. -/
theorem MagicDb.Gone.step {h : String} (hg : m.Gone h)
    (he : (magicLinks t hashToken magic).step m e = some m') :
    m'.Gone h ∧ ∀ s ∈ m'.signIns, s.tokenHash = h → s ∈ m.signIns := by
  obtain ⟨⟨x, hx, hxh⟩, hrows⟩ := hg
  have hfewer : ∀ (db : AuthDb) tokens, tokens.Sublist m.tokens →
      MagicDb.Gone { m with db := db, tokens := tokens } h ∧
        ∀ s ∈ m.signIns, s.tokenHash = h → s ∈ m.signIns :=
    fun db tokens hsub => ⟨⟨⟨x, hx, hxh⟩, fun r hr => hrows r (hsub.subset hr)⟩, fun _ h _ => h⟩
  cases e with
  | access e =>
    cases e with
    | change c drawn =>
      obtain ⟨db, -, rfl⟩ := Option.map_eq_some_iff.1 he
      exact hfewer db _ (tokensAfter_sublist m c)
    | signIn id =>
      simp only [magicLinks] at he
      split at he
      · cases he
      · cases he
        exact hfewer _ _ (.refl _)
  | ask email token asked issued =>
    simp only [magicLinks] at he
    split at he
    · cases he
    · next hnew =>
      cases he
      obtain hsame | ⟨u, -, -, -, -, -, hissued⟩ :=
        issueMagicLink_cases t hashToken magic m email token asked issued
      · rw [hsame]
        exact hfewer m.db m.tokens (.refl _)
      · rw [hissued]
        refine ⟨⟨⟨x, List.mem_cons_of_mem _ hx, hxh⟩, fun r hr => ?_⟩, fun _ h _ => h⟩
        obtain rfl | hr := List.mem_cons.1 hr
        · exact fun he => hnew ⟨x, hx, hxh.trans he.symm⟩
        · exact hrows r (List.mem_filter.1 hr).1
  | revoke token =>
    cases he
    unfold MagicDb.revokeMagicLink
    split
    · exact hfewer m.db _ List.filter_sublist
    · exact hfewer m.db m.tokens (.refl _)
  | redeem token now =>
    cases he
    obtain ⟨tokens, hsub, hused⟩ | ⟨r, hr, hhash, -, u, -, -, -, hsigned⟩ :=
      consumeMagicLink_cases hashToken magic m token now
    · rw [hused]
      exact hfewer m.db tokens hsub
    · rw [hsigned]
      refine ⟨(hfewer m.db _ List.filter_sublist).1, fun s hs hsh => ?_⟩
      obtain rfl | hs := List.mem_cons.1 hs
      · exact absurd (hhash.trans hsh) (hrows r hr)
      · exact hs
  | clear =>
    cases he
    exact hfewer m.db [] (List.nil_sublist _)

theorem MagicDb.Gone.run {h : String} {es : List MagicMove} (hg : m.Gone h)
    (hr : (magicLinks t hashToken magic).run m es = some m') :
    m'.Gone h ∧ ∀ s ∈ m'.signIns, s.tokenHash = h → s ∈ m.signIns := by
  induction es generalizing m with
  | nil =>
    cases hr
    exact ⟨hg, fun _ h _ => h⟩
  | cons e es ih =>
    obtain ⟨u, hu, hrest⟩ := run_cons hr
    obtain ⟨hgu, hsu⟩ := hg.step hu
    obtain ⟨hg', hs'⟩ := ih hgu hrest
    exact ⟨hg', fun s hs he => hsu s (hs' s hs he) he⟩

/-- Whoever signs in with a link is nobody but whom it was mailed to: while they use it,
and whatever becomes of them. -/
theorem Sound.standing (hm : Sound t magic m) {s : SignedIn} (hs : s ∈ m.signIns) {g : GuardUser}
    (hg : LocalBase.Auth.standing t (m.db.people t) s.identity = .person g) :
    g.id = s.identity.subject := by
  obtain ⟨hissuer, v, hv, hvid, hve⟩ := hm.person s hs
  have hpeople := hm.formed.people
  cases hl : m.db.lookup s.identity with
  | some u =>
    obtain ⟨hu, hlink⟩ := AuthDb.lookup_mem hl
    rw [AuthDb.standing_linked hpeople hl] at hg
    split at hg
    · cases hg
      exact (hm.own u hu _ hlink hissuer).symm
    · cases hg
  | none =>
    rw [AuthDb.standing_free hpeople hl] at hg
    split at hg
    · cases hg
    · next u hu =>
      obtain ⟨hu, he⟩ := (AuthDb.userByEmail_eq_some hpeople).1 hu
      split at hg
      · cases hg
      · split at hg
        · cases hg
          rw [← hve, (hpeople.address v hv).1] at he
          rw [hpeople.email u hu v hv he]
          exact hvid
        · cases hg

theorem Sound.lets_in (hm : Sound t magic m) {x : Mailed} (hw : Waiting magic m r x u)
    (hwelcome : u.welcome = true) :
    LocalBase.Auth.standing t (m.db.people t) ⟨magic, u.id, u.email⟩ =
      .person (m.db.guardUser t u) := by
  have hpeople := hm.formed.people
  have hlower : t.toLower u.email = u.email := (hpeople.address u hw.person).1
  have hstatus : u.status = .active ∨ u.status = .pending :=
    (Bool.or_eq_true _ _ ▸ hwelcome : _ ∨ _).symm.imp of_decide_eq_true of_decide_eq_true
  cases hl : m.db.lookup ⟨magic, u.id, u.email⟩ with
  | some v =>
    obtain ⟨hv, hlink⟩ := AuthDb.lookup_mem hl
    obtain rfl := hpeople.id u hw.person v hv (hm.own v hv _ hlink rfl)
    rw [AuthDb.standing_linked hpeople hl, if_pos]
    exact hstatus.imp id fun hs => ⟨hs, hlower⟩
  | none =>
    have hinvited : u.invitedBy = some magic := by
      have hthrough := hw.through
      rw [AuthUser.through, Bool.or_eq_true, List.any_eq_true] at hthrough
      obtain hi | ⟨l, hlu, hmagic⟩ := hthrough
      · exact of_decide_eq_true hi
      · have hself := hm.own u hw.person l hlu (of_decide_eq_true hmagic)
        refine absurd ?_ (AuthDb.lookup_eq_none.1 hl u hw.person)
        rw [← hself, ← of_decide_eq_true hmagic]
        exact hlu
    have hrefused : u.status.refused = false := by
      obtain hs | hs := hstatus <;> rw [hs] <;> rfl
    have hmine : m.db.userByEmail (t.toLower u.email) = some u :=
      (AuthDb.userByEmail_eq_some hpeople).2 ⟨hw.person, hlower.symm⟩
    rw [AuthDb.standing_free hpeople hl]
    simp only [hmine, hrefused, hinvited]
    rfl

/-- A link signs in one time, within its quarter of an hour, the person it was mailed to,
and at the address it was mailed to. One that was used, revoked, replaced or cleared, or
whose person was removed, signs nobody in again. -/
theorem magic_link_signs_in_once (h : Reachable (magicLinks t hashToken magic) m)
    {es : List MagicMove} (hr : (magicLinks t hashToken magic).run m es = some m') :
    (m'.signIns.map SignedIn.tokenHash).Nodup ∧
      (∀ s ∈ m'.signIns, (∃ x ∈ m'.mailed, x.tokenHash = s.tokenHash ∧
          x.userId = s.identity.subject ∧ x.address = s.identity.verifiedEmail ∧
          s.at' < x.at' + magicLinkTTL) ∧
        ∀ g, standing t (m'.db.people t) s.identity = .person g → g.id = s.identity.subject) ∧
      ∀ x ∈ m.mailed, (∀ r ∈ m.tokens, r.tokenHash ≠ x.tokenHash) →
        ∀ s ∈ m'.signIns, s.tokenHash = x.tokenHash → s ∈ m.signIns := by
  have hm' := sound_of_reachable (h.run hr)
  refine ⟨hm'.once, fun s hs => ⟨hm'.signed s hs, fun g => hm'.standing hs⟩, ?_⟩
  exact fun x hx hno => (MagicDb.Gone.run ⟨⟨x, hx, rfl⟩, hno⟩ hr).2

end Links

/-! ### A link that is asked for twice and used twice -/

def mailIssuer : String := "https://house/magic-link"

def firstToken : String := "AAAAAAAAAAAAAAAAAAAAAAAAAAAAAAAAAAAAAAAAAAA"

def secondToken : String := "BBBBBBBBBBBBBBBBBBBBBBBBBBBBBBBBBBBBBBBBBBB"

/-- Somebody is invited through mail, and asks for a link. -/
def mailMoves : List MagicMove :=
  houseMoves.map .access ++
    [.access (.change (.inviteUser "owner@house" ["member"] mailIssuer) houseDrawn),
      .ask "owner@house" firstToken 0 0]

def mailDb : MagicDb := (magicLinks plainTexts id mailIssuer).after {} mailMoves

theorem mailDb_reachable : Reachable (magicLinks plainTexts id mailIssuer) mailDb :=
  reachable_after rfl
    (show ((magicLinks plainTexts id mailIssuer).run {} mailMoves).isSome = true by decide)

def askedTwice : List MagicMove :=
  [.ask "owner@house" secondToken 60000000000 60000000000, .redeem firstToken 120000000000,
    .redeem firstToken 120000000001, .redeem secondToken 120000000002]

theorem asked_twice_signed_in_once :
    let m := (magicLinks plainTexts id mailIssuer).after mailDb askedTwice
    m.signIns.map SignedIn.identity = [⟨mailIssuer, "u1", "owner@house"⟩] ∧
      ∀ x ∈ mailDb.mailed, (∀ r ∈ mailDb.tokens, r.tokenHash ≠ x.tokenHash) →
        ∀ s ∈ m.signIns, s.tokenHash = x.tokenHash → s ∈ mailDb.signIns :=
  ⟨by decide, (magic_link_signs_in_once mailDb_reachable
    (run_after (show ((magicLinks plainTexts id mailIssuer).run mailDb askedTwice).isSome = true
      by decide))).2.2⟩

/-! ## A link that is left alone -/

section Links

variable {t : Texts} {hashToken : String → String} {magic : String} {m m' : MagicDb}
  {r : TokenRow} {u : AuthUser}

/-- The move is not one that the link of the row ends with: it is neither used, revoked
nor cleared, its person is not removed, and who asks again does so while it works. -/
def MagicDb.spares (t : Texts) (hashToken : String → String) (m : MagicDb) (r : TokenRow) :
    MagicMove → Bool
  | .access (.change (.removeUser email) _) =>
    (m.db.userByEmail (t.validEmail email)).all fun u => u.id ≠ r.userId
  | .access _ => true
  | .ask _ _ asked _ => asked < r.expiresAt
  | .revoke token | .redeem token _ => hashToken token ≠ r.tokenHash
  | .clear => false

theorem consumeMagicLink_tokens (m : MagicDb) (token : String) (now : Int)
    (hr : r ∈ m.tokens) (hne : hashToken token ≠ r.tokenHash) :
    r ∈ (m.consumeMagicLink hashToken token magic now).1.tokens := by
  have hkept : r ∈ m.tokens.filter fun r => r.tokenHash ≠ hashToken token :=
    List.mem_filter.2 ⟨hr, decide_eq_true (Ne.symm hne)⟩
  unfold MagicDb.consumeMagicLink
  split
  · exact hr
  · dsimp only
    split
    · exact hkept
    · split
      · exact hkept
      · split <;> exact hkept

theorem Sound.row_step (hm : Sound t magic m) (hr : r ∈ m.tokens)
    (hs : m.spares t hashToken r e = true)
    (he : (magicLinks t hashToken magic).step m e = some m') : r ∈ m'.tokens := by
  cases e with
  | access e =>
    cases e with
    | change c drawn =>
      obtain ⟨db, -, rfl⟩ := Option.map_eq_some_iff.1 he
      show r ∈ m.tokensAfter t c
      unfold MagicDb.tokensAfter
      split
      · next email =>
        simp only [MagicDb.spares] at hs
        split
        · next u hu =>
          rw [hu] at hs
          exact List.mem_filter.2 ⟨hr, decide_eq_true (Ne.symm (of_decide_eq_true hs))⟩
        · exact hr
      · exact hr
    | signIn id =>
      simp only [magicLinks] at he
      split at he
      · cases he
      · cases he
        exact hr
  | ask email token asked issued =>
    simp only [magicLinks] at he
    split at he
    · cases he
    · cases he
      obtain hsame | ⟨u, -, -, -, -, hnone, hissued⟩ :=
        issueMagicLink_cases t hashToken magic m email token asked issued
      · rw [hsame]
        exact hr
      · rw [hissued]
        refine List.mem_cons_of_mem _ (List.mem_filter.2 ⟨hr, decide_eq_true fun hid => ?_⟩)
        -- The person has this link, and it still works.
        have hfound : m.tokens.find? (fun r => r.userId = u.id) = some r :=
          find?_of_unique hr (decide_eq_true hid) fun b hb hbu =>
            hm.user b hb r hr ((of_decide_eq_true hbu).trans hid.symm)
        exact absurd (of_decide_eq_true hs) (Int.not_lt.2 (hnone r hfound))
  | revoke token =>
    cases he
    unfold MagicDb.revokeMagicLink
    split
    · exact List.mem_filter.2 ⟨hr, decide_eq_true (Ne.symm (of_decide_eq_true hs))⟩
    · exact hr
  | redeem token now =>
    cases he
    exact consumeMagicLink_tokens m token now hr (of_decide_eq_true hs)
  | clear => cases hs

theorem Sound.row_run {es : List MagicMove} (hm : Sound t magic m) (hr : r ∈ m.tokens)
    (ho : (magicLinks t hashToken magic).Obeys (fun m e => m.spares t hashToken r e = true) m es)
    (hrun : (magicLinks t hashToken magic).run m es = some m') : r ∈ m'.tokens := by
  induction es generalizing m with
  | nil =>
    cases hrun
    exact hr
  | cons e es ih =>
    obtain ⟨u, hu, hrest⟩ := run_cons hrun
    exact ih (hm.step hu) (hm.row_step hr ho.1 hu) (ho.2 u hu) hrest

theorem Sound.redeems (hm : Sound t magic m) (hr : r ∈ m.tokens) {token : String} {now : Int}
    (htoken : isMagicToken token = true) (hhash : hashToken token = r.tokenHash)
    (hnow : now < r.expiresAt) {x : Mailed} (hw : Waiting magic m r x u)
    (hwelcome : u.welcome = true) :
    (m.consumeMagicLink hashToken token magic now).2 = some ⟨magic, u.id, u.email⟩ := by
  have hrow : m.tokens.find? (fun r => r.tokenHash = hashToken token) = some r :=
    find?_of_unique hr (decide_eq_true hhash.symm) fun b hb hbt =>
      hm.token b hb r hr ((of_decide_eq_true hbt).trans hhash)
  have huser : m.db.users.find? (fun u => u.id = r.userId) = some u :=
    find?_of_unique hw.person (decide_eq_true hw.id) fun b hb hbu =>
      hm.formed.people.id b hb u hw.person ((of_decide_eq_true hbu).trans hw.id.symm)
  unfold MagicDb.consumeMagicLink
  rw [if_neg (not_not_intro htoken)]
  simp only [hrow, huser, hwelcome, hnow]
  rfl

/-- A link keeps working, whatever else is asked for or done, and signs its person in, who
is then let in as themselves. -/
theorem magic_link_keeps_working (h : Reachable (magicLinks t hashToken magic) m)
    (hr : r ∈ m.tokens) {es : List MagicMove}
    (ho : (magicLinks t hashToken magic).Obeys (fun m e => m.spares t hashToken r e = true) m es)
    (hrun : (magicLinks t hashToken magic).run m es = some m') {token : String} {now : Int}
    (htoken : isMagicToken token = true) (hhash : hashToken token = r.tokenHash)
    (hnow : now < r.expiresAt)
    (henabled : ∀ u ∈ m'.db.users, u.id = r.userId → u.status ≠ .disabled) :
    ∃ u ∈ m'.db.users, u.id = r.userId ∧
      (m'.consumeMagicLink hashToken token magic now).2 = some ⟨magic, u.id, u.email⟩ ∧
      standing t (m'.db.people t) ⟨magic, u.id, u.email⟩ = .person (m'.db.guardUser t u) := by
  have hm := sound_of_reachable h
  have hm' := sound_of_reachable (h.run hrun)
  have hr' := hm.row_run hr ho hrun
  obtain ⟨x, -, u, hw⟩ := hm'.row r hr'
  have hwelcome : u.welcome = true := by
    have hon := henabled u hw.person hw.id
    have hthere := hw.there
    unfold AuthUser.welcome
    cases hs : u.status with
    | pending | active => rfl
    | disabled => exact absurd hs hon
    | removed => exact absurd hs hthere
  exact ⟨u, hw.person, hw.id, hm'.redeems hr' htoken hhash hnow hw hwelcome,
    hm'.lets_in hw hwelcome⟩

end Links

/-- The first link works after the second was asked for. -/
theorem first_link_keeps_working :
    let m := (magicLinks plainTexts id mailIssuer).after mailDb
      [.ask "owner@house" secondToken 60000000000 60000000000]
    ∃ u ∈ m.db.users, u.id = "u1" ∧
      (m.consumeMagicLink id firstToken mailIssuer 120000000000).2 =
        some ⟨mailIssuer, u.id, u.email⟩ ∧
      standing plainTexts (m.db.people plainTexts) ⟨mailIssuer, u.id, u.email⟩ =
        .person (m.db.guardUser plainTexts u) :=
  magic_link_keeps_working (r := ⟨"u1", firstToken, 900000000000⟩) mailDb_reachable (by decide)
    (by decide)
    (run_after (show ((magicLinks plainTexts id mailIssuer).run mailDb
      [.ask "owner@house" secondToken 60000000000 60000000000]).isSome = true by decide))
    (by decide) rfl (by decide) (by decide)

end LocalBase.Auth
