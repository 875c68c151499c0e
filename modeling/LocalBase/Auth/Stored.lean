import LocalBase.Auth.Changes
import Mathlib.Data.List.Dedup

/-!
# What a policy stores

A normal policy that is applied is the policy that is loaded: its roles with their
permissions, its default role, and each binding that names a provider. Who holds a
role keeps it. With this every operation keeps the tables well formed.
-/

namespace LocalBase.Auth

open Fuel Machine Records

theorem Binding.shown_matches (t : Texts) (id : Identity) (b : Binding) :
    b.shown.matches t id = b.matches t id ∧ b.shown.issuer = b.issuer ∧ b.shown.role = b.role := by
  obtain ⟨kind, role, issuer, subject, email, domain⟩ := b
  cases kind with
  | subject | email | emailDomain | other => exact ⟨rfl, rfl, rfl⟩

namespace AuthDb

variable {t : Texts} {db db' : AuthDb} {uuid : String → String} {p n : Policy}

/-- The ids that are drawn are new. -/
structure Fresh (db : AuthDb) (uuid : String → String) (p : Policy) : Prop where
  unused : ∀ r ∈ p.roles, db.isNew r = true → ∀ q ∈ db.roles, q.id ≠ uuid r.name
  distinct : ((p.roles.filter db.isNew).map fun r => uuid r.name).Nodup

theorem fresh_of_not_taken (h : db.uuidTaken uuid p = false) : db.Fresh uuid p := by
  unfold uuidTaken at h
  rw [Bool.or_eq_false_iff] at h
  refine ⟨fun r hr hnew q hq hid => ?_, by simpa using h.2⟩
  have hany := List.any_eq_false.1 h.1 r hr
  rw [hnew, Bool.true_and, List.any_eq_true] at hany
  exact hany ⟨q, hq, decide_eq_true hid⟩

theorem roleId_old (h : db.PolicyFormed t) {r : AuthRole} (hr : r ∈ db.roles) :
    db.roleId uuid r.name = r.id := by
  have hfind : db.roles.find? (fun q => q.name = r.name) = some r :=
    (get_eq_some h.roleName).2 ⟨hr, rfl⟩
  unfold roleId
  rw [hfind]

theorem roleId_new {r : Role} (hr : db.isNew r = true) : db.roleId uuid r.name = uuid r.name := by
  have hnone : db.roles.find? (fun q => q.name = r.name) = none := by
    rw [List.find?_eq_none]
    intro q hq
    simpa using List.all_eq_true.1 hr q hq
  unfold roleId
  rw [hnone]

theorem old_or_new (db : AuthDb) (r : Role) :
    (∃ q ∈ db.roles, q.name = r.name) ∨ db.isNew r = true := by
  unfold isNew
  by_cases hold : ∃ q ∈ db.roles, q.name = r.name
  · exact .inl hold
  · refine .inr (List.all_eq_true.2 fun q hq => decide_eq_true fun he => hold ⟨q, hq, he⟩)

theorem roleId_inj (h : db.PolicyFormed t) (hf : db.Fresh uuid p) {a b : Role}
    (ha : a ∈ p.roles) (hb : b ∈ p.roles)
    (hid : db.roleId uuid a.name = db.roleId uuid b.name) : a.name = b.name := by
  obtain ⟨q, hq, hqa⟩ | hnewa := old_or_new db a
  · obtain ⟨s, hs, hsb⟩ | hnewb := old_or_new db b
    · rw [← hqa, ← hsb, roleId_old h hq, roleId_old h hs] at hid
      rw [← hqa, ← hsb, h.roleId q hq s hs hid]
    · rw [← hqa, roleId_old h hq, roleId_new hnewb] at hid
      exact absurd hid (hf.unused b hb hnewb q hq)
  · obtain ⟨s, hs, hsb⟩ | hnewb := old_or_new db b
    · rw [← hsb, roleId_old h hs, roleId_new hnewa] at hid
      exact absurd hid.symm (hf.unused a ha hnewa s hs)
    · rw [roleId_new hnewa, roleId_new hnewb] at hid
      have hinj := List.inj_on_of_nodup_map hf.distinct
      rw [hinj (List.mem_filter.2 ⟨ha, hnewa⟩) (List.mem_filter.2 ⟨hb, hnewb⟩) hid]

theorem hasRole_written {name : String} (hname : ∃ r ∈ n.roles, r.name = name) :
    (db.writePolicy uuid n).HasRole (db.roleId uuid name) := by
  obtain ⟨r, hr, rfl⟩ := hname
  exact ⟨db.roleRow uuid r, List.mem_map.2 ⟨r, hr, rfl⟩, rfl⟩

theorem isRoleName_ne {s : String} (h : isRoleName s = true) : s ≠ "" := by
  rintro rfl
  exact absurd h (by decide)

theorem Normal.proper (h : p.Normal t n) : ∀ b ∈ n.bindings, b.Proper t := by
  intro b hb
  have hall := h.bindings
  rw [List.forall₂_iff_get] at hall
  obtain ⟨k, hk, rfl⟩ := List.mem_iff_getElem.1 hb
  obtain ⟨i, hi⟩ := hall.2 k (hall.1 ▸ hk) hk
  exact (normalizeBinding_ok hi).1

theorem subjectRow_eq_some {b : Binding} {row : SubjectRow} :
    db.subjectRow uuid b = some row ↔
      b.kind = .subject ∧ row = ⟨db.roleId uuid b.role, b.issuer, b.subject⟩ := by
  unfold subjectRow
  split
  · next hk => simp [hk, eq_comm]
  · next hk => simp [hk]

theorem emailRow_eq_some {b : Binding} {row : AddressRow} :
    db.emailRow uuid b = some row ↔
      b.kind = .email ∧ row = ⟨db.roleId uuid b.role, b.email⟩ := by
  unfold emailRow
  split
  · next hk => simp [hk, eq_comm]
  · next hk => simp [hk]

theorem domainRow_eq_some {b : Binding} {row : AddressRow} :
    db.domainRow uuid b = some row ↔
      b.kind = .emailDomain ∧ row = ⟨db.roleId uuid b.role, b.domain⟩ := by
  unfold domainRow
  split
  · next hk => simp [hk, eq_comm]
  · next hk => simp [hk]

theorem issuerRow_eq_some {b : Binding} {i : IssuerRow} :
    db.issuerRow uuid b = some i ↔ b.issuer ≠ "" ∧
      ((b.kind = .email ∧ i = ⟨.email, db.roleId uuid b.role, b.email, b.issuer⟩) ∨
        (b.kind = .emailDomain ∧
          i = ⟨.emailDomain, db.roleId uuid b.role, b.domain, b.issuer⟩)) := by
  unfold issuerRow
  split
  · next he => simp [he]
  · next he =>
    cases hk : b.kind with
    | subject | other => simp
    | email | emailDomain => simp [he, eq_comm]

theorem PolicyFormed.writePolicy (h : db.PolicyFormed t) (hf : db.Fresh uuid n)
    (hn : p.Normal t n) : (db.writePolicy uuid n).PolicyFormed t where
  roleId := by
    intro a ha b hb hab
    obtain ⟨x, hx, rfl⟩ := List.mem_map.1 ha
    obtain ⟨y, hy, rfl⟩ := List.mem_map.1 hb
    rw [hn.names x hx y hy (roleId_inj h hf hx hy hab)]
  roleName := by
    intro a ha b hb hab
    obtain ⟨x, hx, rfl⟩ := List.mem_map.1 ha
    obtain ⟨y, hy, rfl⟩ := List.mem_map.1 hb
    rw [hn.names x hx y hy hab]
  named := by
    intro a ha
    obtain ⟨x, hx, rfl⟩ := List.mem_map.1 ha
    exact isRoleName_ne (hn.isRoleName x hx)
  default := by
    intro id hid
    obtain ⟨d, hd, rfl⟩ := Option.map_eq_some_iff.1 (Option.some.inj hid)
    exact hasRole_written (hn.default d hd)
  subject := by
    intro row hrow
    obtain ⟨b, hb, hr⟩ := List.mem_filterMap.1 hrow
    obtain ⟨hk, rfl⟩ := subjectRow_eq_some.1 hr
    have hproper := Normal.proper hn b hb
    unfold Binding.Proper at hproper
    rw [hk] at hproper
    exact ⟨hasRole_written (hn.bound b hb), hproper.1, hproper.2.1⟩
  email := by
    intro row hrow
    obtain ⟨b, hb, hr⟩ := List.mem_filterMap.1 (List.mem_dedup.1 hrow)
    obtain ⟨hk, rfl⟩ := emailRow_eq_some.1 hr
    have hproper := Normal.proper hn b hb
    unfold Binding.Proper at hproper
    rw [hk] at hproper
    exact ⟨hasRole_written (hn.bound b hb), hproper.1, hproper.2.1⟩
  domain := by
    intro row hrow
    obtain ⟨b, hb, hr⟩ := List.mem_filterMap.1 (List.mem_dedup.1 hrow)
    obtain ⟨hk, rfl⟩ := domainRow_eq_some.1 hr
    have hproper := Normal.proper hn b hb
    unfold Binding.Proper at hproper
    rw [hk] at hproper
    exact ⟨hasRole_written (hn.bound b hb), hproper.1, hproper.2.1⟩
  issuer := by
    intro row hrow
    obtain ⟨b, hb, hr⟩ := List.mem_filterMap.1 hrow
    obtain ⟨hne, ⟨-, rfl⟩ | ⟨-, rfl⟩⟩ := issuerRow_eq_some.1 hr
    · exact hne
    · exact hne

theorem PolicyFormed.deletePolicy : db.deletePolicy.PolicyFormed t where
  roleId := fun a ha => absurd ha (by simp [AuthDb.deletePolicy])
  roleName := fun a ha => absurd ha (by simp [AuthDb.deletePolicy])
  named := fun a ha => absurd ha (by simp [AuthDb.deletePolicy])
  default := fun id hid => absurd hid (by simp [AuthDb.deletePolicy])
  subject := fun a ha => absurd ha (by simp [AuthDb.deletePolicy])
  email := fun a ha => absurd ha (by simp [AuthDb.deletePolicy])
  domain := fun a ha => absurd ha (by simp [AuthDb.deletePolicy])
  issuer := fun a ha => absurd ha (by simp [AuthDb.deletePolicy])

theorem WellFormed.cascade (h : db.WellFormed t) (hp : db'.PolicyFormed t)
    (hu : db'.users = cascade db.users db'.roles) : db'.WellFormed t where
  policy := hp
  people := by
    rw [hu]
    exact h.people.map (fun _ => rfl) (fun _ => rfl) (fun _ => rfl) fun _ hi => hi
  held := by
    rw [hu]
    intro u hu rid hrid
    obtain ⟨v, hv, rfl⟩ := List.mem_map.1 hu
    obtain ⟨r, hr, hid⟩ := List.any_eq_true.1 (List.mem_filter.1 hrid).2
    exact ⟨r, hr, of_decide_eq_true hid⟩

theorem WellFormed.writePolicy (h : db.WellFormed t) (hf : db.Fresh uuid n)
    (hn : p.Normal t n) : (db.writePolicy uuid n).WellFormed t :=
  h.cascade (h.policy.writePolicy hf hn) rfl

theorem WellFormed.deletePolicy (h : db.WellFormed t) : db.deletePolicy.WellFormed t :=
  h.cascade PolicyFormed.deletePolicy rfl

theorem applyPolicy_ok (hi : db.applyPolicy t uuid p = .ok db') :
    ∃ n, p.normalize t = .ok n ∧ db.Fresh uuid n ∧ db.heldElsewhere n = none ∧
      db' = db.writePolicy uuid n := by
  unfold applyPolicy at hi
  split at hi
  · exact absurd hi (by simp)
  · next n hn =>
    split at hi
    · exact absurd hi (by simp)
    · next hfresh =>
      split at hi
      · exact absurd hi (by simp)
      · next hheld =>
        obtain rfl := Except.ok.inj hi
        exact ⟨n, hn, fresh_of_not_taken (by simpa using hfresh), hheld, rfl⟩

theorem carryOut_clear {drawn : Drawn} (hc : db.carryOut t drawn .clearPolicy = .ok db') :
    db' = db ∨ db' = db.deletePolicy := by
  change Except.map Prod.snd db.clearPolicy = .ok db' at hc
  unfold clearPolicy at hc
  split at hc
  · exact .inl (Except.ok.inj hc).symm
  · split at hc
    · exact absurd hc (by simp [Except.map])
    · exact .inr (Except.ok.inj hc).symm

theorem WellFormed.carryOut (h : db.WellFormed t) {drawn : Drawn} {c : AccessChange}
    (hc : db.carryOut t drawn c = .ok db') : db'.WellFormed t := by
  cases c with
  | inviteUser email roles issuer =>
    obtain ⟨ids, hids, hemail, ⟨u, hu, -, -, rfl⟩ | ⟨hnew, hid, rfl⟩⟩ := inviteUser_ok h hc
    · exact h.updateUser (fun _ => rfl) (fun _ => rfl) (fun _ => rfl)
        (fun _ _ => invitation_ne issuer) fun _ _ => (roleIds_ok h.policy hids).1
    · refine ⟨h.policy.withUsers _, h.people.append hid hnew rfl
        ⟨t.lowered_validEmail email, hemail⟩ (invitation_ne issuer), fun u hu rid hrid => ?_⟩
      obtain hu | hu := List.mem_append.1 hu
      · exact h.held u hu rid hrid
      · obtain rfl := List.mem_singleton.1 hu
        exact (roleIds_ok h.policy hids).1 rid hrid
  | replaceUserRoles email roles =>
    obtain ⟨ids, hids, u, hu, -, -, rfl⟩ := replaceUserRoles_ok h hc
    exact h.updateUser (fun _ => rfl) (fun _ => rfl) (fun _ => rfl) (fun _ hi => hi)
      fun _ _ => (roleIds_ok h.policy hids).1
  | enableUser email =>
    obtain ⟨u, -, -, -, rfl⟩ := setUserStatus_ok h hc
    exact h.setStatus u.id .active
  | disableUser email =>
    obtain ⟨u, -, -, -, rfl⟩ := setUserStatus_ok h hc
    exact h.setStatus u.id .disabled
  | removeUser email =>
    obtain ⟨u, -, -, -, rfl⟩ := removeUser_ok h hc
    exact h.updateUser (fun _ => rfl) (fun _ => rfl) (fun _ => rfl)
      (fun _ _ => by simp [expelled]) fun _ _ rid hrid => absurd hrid (by simp [expelled])
  | applyPolicy policy =>
    obtain ⟨n, hn, hf, -, rfl⟩ := applyPolicy_ok hc
    exact h.writePolicy hf (Policy.normalize_ok hn)
  | clearPolicy =>
    obtain rfl | rfl := carryOut_clear hc
    · exact h
    · exact h.deletePolicy

end AuthDb

/-! ## Runs -/

/-- What happens to the access tables. -/
inductive AccessMove
  | change (c : AccessChange) (drawn : Drawn)
  | signIn (id : Identity)

/-- The access tables of a new installation, and all that is done to them. -/
def accessTables (t : Texts) : System AuthDb AccessMove where
  init db := db = {}
  step db
    | .change c drawn => (db.carryOut t drawn c).toOption
    | .signIn id => some (db.resolvePolicy t id true).2

theorem AuthDb.wellFormed_empty (t : Texts) : ({} : AuthDb).WellFormed t where
  policy := @PolicyFormed.deletePolicy t {}
  people := {
    id := fun a ha => absurd ha (by simp)
    email := fun a ha => absurd ha (by simp)
    identity := fun a ha => absurd ha (by simp)
    address := fun a ha => absurd ha (by simp)
    invited := fun a ha => absurd ha (by simp) }
  held := fun a ha => absurd ha (by simp)

theorem AuthDb.wellFormed_of_reachable {t : Texts} {db : AuthDb}
    (h : Reachable (accessTables t) db) : db.WellFormed t := by
  refine Reachable.invariant (fun s hs => ?_) (fun s e s' hs he => ?_) h
  · obtain rfl : s = {} := hs
    exact AuthDb.wellFormed_empty t
  · cases e with
    | change c drawn => exact hs.carryOut (ok_of_toOption he)
    | signIn id =>
      obtain rfl := Option.some.inj he
      obtain ⟨-, hr⟩ | ⟨d, st, db', -, hclaimed, -, hr⟩ := AuthDb.resolvePolicy_spec hs.people id
      · rw [hr]
        exact hs
      · rw [hr]
        exact hclaimed.wellFormed hs

end LocalBase.Auth
