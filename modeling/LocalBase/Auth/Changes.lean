import LocalBase.Auth.Authority
import LocalBase.Auth.Standing
import LocalBase.Lib.Machine

/-!
# What the operations leave

Each operation on people changes one record, or adds one, and leaves the policy;
applying or clearing the policy leaves the people. All keep the tables well formed,
and so does whatever a sign-in claims.
-/

namespace LocalBase.Auth

open Fuel Machine Records

/-! ## People -/

variable {f : AuthUser → AuthUser} {id : Identity}

section People

variable {t : Texts} {users : List AuthUser}

theorem PeopleFormed.map (h : PeopleFormed t users) (hid : ∀ u, (f u).id = u.id)
    (hemail : ∀ u, (f u).email = u.email) (hlinks : ∀ u, (f u).identities = u.identities)
    (hinvited : ∀ u, u.invitedBy ≠ some "" → (f u).invitedBy ≠ some "") :
    PeopleFormed t (users.map f) := by
  have hkeyed : ∀ {κ : Type} {key : AuthUser → κ}, Keyed key users → (∀ u, key (f u) = key u) →
      Keyed key (users.map f) := by
    intro κ key hk hf a ha b hb hab
    obtain ⟨u, hu, rfl⟩ := List.mem_map.1 ha
    obtain ⟨v, hv, rfl⟩ := List.mem_map.1 hb
    rw [hk u hu v hv (by rw [← hf u, ← hf v, hab])]
  refine ⟨hkeyed h.id hid, hkeyed h.email hemail, ?_, ?_, ?_⟩
  · intro a ha b hb l hla hlb
    obtain ⟨u, hu, rfl⟩ := List.mem_map.1 ha
    obtain ⟨v, hv, rfl⟩ := List.mem_map.1 hb
    rw [hlinks] at hla hlb
    rw [h.identity u hu v hv l hla hlb]
  · intro a ha
    obtain ⟨u, hu, rfl⟩ := List.mem_map.1 ha
    rw [hemail]
    exact h.address u hu
  · intro a ha
    obtain ⟨u, hu, rfl⟩ := List.mem_map.1 ha
    exact hinvited u (h.invited u hu)

theorem PeopleFormed.modify (h : PeopleFormed t users) {id : String} (hid : ∀ u, (f u).id = u.id)
    (hemail : ∀ u, (f u).email = u.email) (hlinks : ∀ u, (f u).identities = u.identities)
    (hinvited : ∀ u, u.invitedBy ≠ some "" → (f u).invitedBy ≠ some "") :
    PeopleFormed t (modify AuthUser.id users id f) := by
  refine h.map (fun u => ?_) (fun u => ?_) (fun u => ?_) fun u hu => ?_
  · split
    · exact hid u
    · rfl
  · split
    · exact hemail u
    · rfl
  · split
    · exact hlinks u
    · rfl
  · split
    · exact hinvited u hu
    · exact hu

theorem PeopleFormed.link (h : PeopleFormed t users)
    (hfree : ∀ u ∈ users, (id.issuer, id.subject) ∉ u.identities) (userId : String) :
    PeopleFormed t (Records.modify AuthUser.id users userId (AuthDb.link id)) := by
  have hold : ∀ a ∈ Records.modify AuthUser.id users userId (AuthDb.link id), ∃ u ∈ users,
      a = (if u.id = userId then AuthDb.link id u else u) := by
    intro a ha
    obtain ⟨u, hu, rfl⟩ := List.mem_map.1 ha
    exact ⟨u, hu, rfl⟩
  have hlinks : ∀ u l, l ∈ (if u.id = userId then AuthDb.link id u else u).identities →
      l ∈ u.identities ∨ (u.id = userId ∧ l = (id.issuer, id.subject)) := by
    intro u l hl
    split at hl
    · next hid =>
      obtain hl | hl := List.mem_append.1 hl
      · exact .inl hl
      · exact .inr ⟨hid, List.mem_singleton.1 hl⟩
    · exact .inl hl
  refine ⟨h.id.modify fun _ => rfl, h.email.modify fun _ => rfl, ?_, ?_, ?_⟩
  · intro a ha b hb l hla hlb
    obtain ⟨u, hu, rfl⟩ := hold a ha
    obtain ⟨v, hv, rfl⟩ := hold b hb
    have huv : u = v := by
      obtain hlu | ⟨hu', rfl⟩ := hlinks u l hla
      · obtain hlv | ⟨-, rfl⟩ := hlinks v l hlb
        · exact h.identity u hu v hv l hlu hlv
        · exact absurd hlu (hfree u hu)
      · obtain hlv | ⟨hv', -⟩ := hlinks v _ hlb
        · exact absurd hlv (hfree v hv)
        · exact h.id u hu v hv (hu'.trans hv'.symm)
    rw [huv]
  · intro a ha
    obtain ⟨u, hu, rfl⟩ := hold a ha
    split
    · exact h.address u hu
    · exact h.address u hu
  · intro a ha
    obtain ⟨u, hu, rfl⟩ := hold a ha
    split
    · exact h.invited u hu
    · exact h.invited u hu

theorem PeopleFormed.append (h : PeopleFormed t users) {u : AuthUser}
    (hid : ∀ v ∈ users, v.id ≠ u.id) (hemail : ∀ v ∈ users, v.email ≠ u.email)
    (hlinks : u.identities = []) (haddress : t.Lowered u.email ∧ u.email ≠ "")
    (hinvited : u.invitedBy ≠ some "") : PeopleFormed t (users ++ [u]) := by
  have hmem : ∀ a ∈ users ++ [u], a ∈ users ∨ a = u := fun a ha => by
    rwa [List.mem_append, List.mem_singleton] at ha
  refine ⟨h.id.append hid, h.email.append hemail, ?_, ?_, ?_⟩
  · intro a ha b hb l hla hlb
    obtain ha | rfl := hmem a ha
    · obtain hb | rfl := hmem b hb
      · exact h.identity a ha b hb l hla hlb
      · rw [hlinks] at hlb
        exact absurd hlb (by simp)
    · rw [hlinks] at hla
      exact absurd hla (by simp)
  · intro a ha
    obtain ha | rfl := hmem a ha
    · exact h.address a ha
    · exact haddress
  · intro a ha
    obtain ha | rfl := hmem a ha
    · exact h.invited a ha
    · exact hinvited

end People

namespace AuthDb

variable {t : Texts} {db db' : AuthDb} {email : String}

theorem invitation_ne (issuer : String) : invitation issuer ≠ some "" := by
  unfold invitation
  split
  · simp
  · next hne => exact fun he => hne (Option.some.inj he)

theorem WellFormed.updateUser (h : db.WellFormed t) {id : String} (hid : ∀ u, (f u).id = u.id)
    (hemail : ∀ u, (f u).email = u.email) (hlinks : ∀ u, (f u).identities = u.identities)
    (hinvited : ∀ u, u.invitedBy ≠ some "" → (f u).invitedBy ≠ some "")
    (hroles : ∀ u ∈ db.users, ∀ rid ∈ (f u).roles, db.HasRole rid) :
    (db.updateUser id f).WellFormed t where
  policy := h.policy.withUsers _
  people := h.people.modify hid hemail hlinks hinvited
  held := by
    intro u hu rid hrid
    obtain ⟨v, hv, -, rfl⟩ | ⟨hu, -⟩ := mem_modify.1 hu
    · exact hroles v hv rid hrid
    · exact h.held u hu rid hrid

theorem WellFormed.setStatus (h : db.WellFormed t) (id : String) (status : UserStatus) :
    (db.setStatus id status).WellFormed t :=
  h.updateUser (fun _ => rfl) (fun _ => rfl) (fun _ => rfl) (fun _ hu => hu) h.held

theorem WellFormed.link (h : db.WellFormed t) (hfree : db.lookup id = none)
    (userId : String) : (db.updateUser userId (AuthDb.link id)).WellFormed t where
  policy := h.policy.withUsers _
  people := h.people.link (lookup_eq_none.1 hfree) userId
  held := by
    intro u hu rid hrid
    obtain ⟨v, hv, -, rfl⟩ | ⟨hu, -⟩ := mem_modify.1 hu
    · exact h.held v hv rid hrid
    · exact h.held u hu rid hrid

theorem Claimed.wellFormed (hc : db.Claimed id db') (h : db.WellFormed t) :
    db'.WellFormed t := by
  cases hc with
  | same => exact h
  | activated u hu hs => exact h.setStatus u.id .active
  | linked u hu hfree => exact h.link hfree u.id
  | linkedActive u hu hfree hs => exact (h.link hfree u.id).setStatus u.id .active

/-! ## Operations on people -/

theorem roleIds_ok (h : db.PolicyFormed t) {names ids : List String}
    (hids : db.roleIds names = .ok ids) :
    (∀ id ∈ ids, db.HasRole id) ∧ (∀ r ∈ db.roles, r.id ∈ ids ↔ r.name ∈ names) ∧
      ∀ n ∈ names, ∃ r ∈ db.roles, r.name = n := by
  unfold roleIds at hids
  split at hids
  · next hnone =>
    obtain rfl := Except.ok.inj hids
    have hfound : ∀ n ∈ names, ∃ r ∈ db.roles, r.name = n := by
      intro n hn
      have hno := List.filter_eq_nil_iff.1 hnone n hn
      obtain ⟨r, hr⟩ := Option.ne_none_iff_exists'.1 (by simpa using hno)
      exact ⟨r, (get_eq_some h.roleName).1 hr⟩
    refine ⟨fun id hid => ?_, fun r hr => ?_, hfound⟩
    · obtain ⟨n, hn, hid⟩ := List.mem_filterMap.1 hid
      obtain ⟨r, hr, rfl⟩ := Option.map_eq_some_iff.1 hid
      exact ⟨r, (get_mem hr).1, rfl⟩
    · rw [List.mem_filterMap]
      constructor
      · rintro ⟨n, hn, hid⟩
        obtain ⟨q, hget, hqr⟩ := Option.map_eq_some_iff.1 hid
        obtain ⟨hq, rfl⟩ := get_mem hget
        rwa [← h.roleId q hq r hr hqr]
      · intro hn
        have hr' : db.roleByName r.name = some r := (get_eq_some h.roleName).2 ⟨hr, rfl⟩
        exact ⟨r.name, hn, by rw [hr']; rfl⟩
  · exact absurd hids (by simp)

theorem managedUser_ok (h : PeopleFormed t db.users) {u : AuthUser}
    (hu : db.managedUser email = .ok u) :
    u ∈ db.users ∧ u.email = email ∧ u.status ≠ .removed := by
  unfold managedUser at hu
  split at hu
  · exact absurd hu (by simp)
  · next v hv =>
    split at hu
    · exact absurd hu (by simp)
    · next hs =>
      obtain rfl := Except.ok.inj hu
      obtain ⟨hmem, he⟩ := (userByEmail_eq_some h).1 hv
      exact ⟨hmem, he, hs⟩

/-- An invitation of somebody again. -/
def reinvite (ids : List String) (issuer : String) (u : AuthUser) : AuthUser :=
  { u with status := .pending, roles := ids, invitedBy := invitation issuer }

def invitee (uuid email : String) (ids : List String) (issuer : String) : AuthUser where
  id := uuid
  email := email
  status := .pending
  roles := ids
  invitedBy := invitation issuer

theorem inviteUser_ok (h : db.WellFormed t) {uuid issuer : String} {roles : List String}
    (hi : db.inviteUser t uuid email roles issuer = .ok db') :
    ∃ ids, db.roleIds roles = .ok ids ∧ t.validEmail email ≠ "" ∧
      ((∃ u ∈ db.users, u.email = t.validEmail email ∧ u.status = .removed ∧
          db' = db.updateUser u.id (reinvite ids issuer)) ∨
        ((∀ u ∈ db.users, u.email ≠ t.validEmail email) ∧ (∀ u ∈ db.users, u.id ≠ uuid) ∧
          db' = { db with
            users := db.users ++ [invitee uuid (t.validEmail email) ids issuer] })) := by
  unfold inviteUser at hi
  dsimp only at hi
  split at hi
  · exact absurd hi (by simp)
  · next hvalid =>
    rw [not_or] at hvalid
    obtain ⟨-, -, hi⟩ := bind_eq_ok.1 hi
    obtain ⟨ids, hids, hi⟩ := bind_eq_ok.1 hi
    refine ⟨ids, hids, hvalid.1, ?_⟩
    split at hi
    · next u hu =>
      obtain ⟨hmem, he⟩ := (userByEmail_eq_some h.people).1 hu
      split at hi
      · exact absurd hi (by simp)
      · next hs =>
        obtain rfl := Except.ok.inj hi
        exact .inl ⟨u, hmem, he, not_not.1 hs, rfl⟩
    · next hnone =>
      split at hi
      · exact absurd hi (by simp)
      · next hfresh =>
        obtain rfl := Except.ok.inj hi
        exact .inr ⟨get_eq_none.1 hnone, by simpa using hfresh, rfl⟩

theorem replaceUserRoles_ok (h : db.WellFormed t) {roles : List String}
    (hi : db.replaceUserRoles t email roles = .ok db') :
    ∃ ids, db.roleIds roles = .ok ids ∧ ∃ u ∈ db.users, u.email = t.validEmail email ∧
      u.status ≠ .removed ∧ db' = db.updateUser u.id fun u => { u with roles := ids } := by
  unfold replaceUserRoles at hi
  dsimp only at hi
  split at hi
  · exact absurd hi (by simp)
  · obtain ⟨-, -, hi⟩ := bind_eq_ok.1 hi
    obtain ⟨u, hu, hi⟩ := bind_eq_ok.1 hi
    obtain ⟨ids, hids, hi⟩ := bind_eq_ok.1 hi
    obtain rfl := Except.ok.inj hi
    obtain ⟨hmem, he, hs⟩ := managedUser_ok h.people hu
    exact ⟨ids, hids, u, hmem, he, hs, rfl⟩

theorem setUserStatus_ok (h : db.WellFormed t) {status : UserStatus}
    (hi : db.setUserStatus t email status = .ok db') :
    ∃ u ∈ db.users, u.email = t.validEmail email ∧ u.status ≠ .removed ∧
      db' = db.setStatus u.id status := by
  unfold setUserStatus at hi
  dsimp only at hi
  split at hi
  · exact absurd hi (by simp)
  · obtain ⟨u, hu, hi⟩ := bind_eq_ok.1 hi
    obtain rfl := Except.ok.inj hi
    obtain ⟨hmem, he, hs⟩ := managedUser_ok h.people hu
    exact ⟨u, hmem, he, hs, rfl⟩

def expelled (u : AuthUser) : AuthUser :=
  { u with status := .removed, roles := [], invitedBy := none }

theorem removeUser_ok (h : db.WellFormed t) (hi : db.removeUser t email = .ok db') :
    ∃ u ∈ db.users, u.email = t.validEmail email ∧ u.status ≠ .removed ∧
      db' = db.updateUser u.id expelled := by
  unfold removeUser at hi
  dsimp only at hi
  split at hi
  · exact absurd hi (by simp)
  · obtain ⟨u, hu, hi⟩ := bind_eq_ok.1 hi
    obtain rfl := Except.ok.inj hi
    obtain ⟨hmem, he, hs⟩ := managedUser_ok h.people hu
    exact ⟨u, hmem, he, hs, rfl⟩

end AuthDb

end LocalBase.Auth
