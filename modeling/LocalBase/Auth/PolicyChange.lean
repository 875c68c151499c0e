import LocalBase.Auth.Loaded

/-!
# Changing the policy

The check of a policy change computes nobody's permissions. It collects what the two
policies differ in: roles with other permissions, roles that come or go, bindings
that do, the default role, and the permissions of the provider where one of the two
is no policy. That covers whatever anybody gains or loses by the change.
-/

namespace LocalBase.Auth

open Fuel Machine Records

namespace AuthDb

variable {t : Texts} {db : AuthDb} {uuid : String → String} {p n : Policy}

/-- Nobody holds a role that goes. -/
def KeepsHeld (db : AuthDb) (n : Policy) : Prop :=
  ∀ u ∈ db.users, ∀ r ∈ db.roles, r.id ∈ u.roles → ∃ q ∈ n.roles, q.name = r.name

theorem keepsHeld_of_none (h : db.heldElsewhere n = none) : db.KeepsHeld n := by
  intro u hu r hr hid
  have hno := List.find?_eq_none.1 h r hr
  by_contra hgone
  refine hno ?_
  rw [Bool.and_eq_true, List.all_eq_true, List.any_eq_true]
  exact ⟨fun q hq => decide_eq_true fun he => hgone ⟨q, hq, he⟩, u, hu, decide_eq_true hid⟩

theorem people_written (h : db.WellFormed t) (hf : db.Fresh uuid n) (hn : p.Normal t n)
    (hheld : db.KeepsHeld n) : (db.writePolicy uuid n).people t = db.people t := by
  have hrow : ∀ u ∈ db.users, ∀ id ∈ u.roles, ∃ r ∈ db.roles, r.id = id ∧
      ∃ q ∈ n.roles, db.roleRow uuid q ∈ (db.writePolicy uuid n).roles ∧
        (db.roleRow uuid q).id = id ∧ q.name = r.name := by
    intro u hu id hid
    obtain ⟨r, hr, rfl⟩ := h.held u hu id hid
    obtain ⟨q, hq, hqr⟩ := hheld u hu r hr hid
    refine ⟨r, hr, rfl, q, hq, List.mem_map.2 ⟨q, hq, rfl⟩, ?_, hqr⟩
    show db.roleId uuid q.name = r.id
    rw [hqr, roleId_old h.policy hr]
  unfold people
  show (cascade db.users (n.roles.map (db.roleRow uuid))).map _ = _
  unfold cascade
  rw [List.map_map]
  refine List.map_congr_left fun u hu => ?_
  have hkept : (u.roles.filter fun id =>
      (n.roles.map (db.roleRow uuid)).any fun r => r.id = id) = u.roles := by
    rw [List.filter_eq_self]
    intro id hid
    obtain ⟨-, -, -, q, -, hq, hqid, -⟩ := hrow u hu id hid
    exact List.any_eq_true.2 ⟨_, hq, decide_eq_true hqid⟩
  have hnames : (u.roles.filterMap fun id =>
        ((db.writePolicy uuid n).role id).map AuthRole.name) =
      u.roles.filterMap fun id => (db.role id).map AuthRole.name := by
    refine List.filterMap_congr fun id hid => ?_
    obtain ⟨r, hr, hrid, q, -, hq, hqid, hqr⟩ := hrow u hu id hid
    rw [(role_eq_some (h.policy.writePolicy hf hn)).2 ⟨hq, hqid⟩,
      (role_eq_some h.policy).2 ⟨hr, hrid⟩]
    exact congrArg some hqr
  show (db.writePolicy uuid n).guardUser t { u with roles := _ } = db.guardUser t u
  unfold guardUser
  rw [hkept]
  simp only [hnames]

end AuthDb

/-! ## What is touched -/

/-- The known permissions of a role are told apart by its name. -/
def Policy.Named (p : Policy) : Prop :=
  ∀ r ∈ p.roles, ∀ q ∈ p.roles, r.name = q.name → canonical r.permissions = canonical q.permissions

/-- A role of the policy, or of none, gives a permission. -/
def Gives (policy : Option Policy) (name perm : String) : Prop :=
  perm ∈ (rolesByName policy name).getD []

variable {name : String} {policy : Option Policy}

theorem rolesByName_some {perms : List String} (h : rolesByName policy name = some perms) :
    ∃ p, policy = some p ∧ ∃ r ∈ p.roles, r.name = name ∧ r.permissions = perms := by
  obtain ⟨p, rfl, hp⟩ := Option.bind_eq_some_iff.1 h
  obtain ⟨r, hr, hperms⟩ := Option.map_eq_some_iff.1 hp
  have hname := List.find?_some hr
  exact ⟨p, rfl, r, List.mem_reverse.1 (List.mem_of_find?_eq_some hr), of_decide_eq_true hname,
    hperms⟩

theorem mem_roleNames {perms : List String}
    (h : rolesByName policy name = some perms) : name ∈ roleNames policy := by
  obtain ⟨p, rfl, r, hr, hname, -⟩ := rolesByName_some h
  exact List.mem_map.2 ⟨r, hr, hname⟩

variable {p : Policy}

theorem gives_iff (h : p.Named) {perm : String} (hperm : perm ∈ permissions) :
    Gives (some p) name perm ↔ ∃ r ∈ p.roles, r.name = name ∧ perm ∈ r.permissions := by
  constructor
  · intro hgives
    cases hr : rolesByName (some p) name with
    | none =>
      rw [Gives, hr] at hgives
      exact absurd hgives (by simp)
    | some perms =>
      rw [Gives, hr] at hgives
      obtain ⟨q, he, r, hmem, hname, rfl⟩ := rolesByName_some hr
      obtain rfl := Option.some.inj he
      exact ⟨r, hmem, hname, hgives⟩
  · rintro ⟨r, hr, rfl, hin⟩
    have hsome : (rolesByName (some p) r.name).isSome = true := by
      unfold rolesByName
      rw [Option.bind_some, Option.isSome_map, List.find?_isSome]
      exact ⟨r, List.mem_reverse.2 hr, decide_eq_true rfl⟩
    obtain ⟨perms, hperms⟩ := Option.isSome_iff_exists.1 hsome
    obtain ⟨_, he, q, hmem, hname, rfl⟩ := rolesByName_some hperms
    obtain rfl := Option.some.inj he
    rw [Gives, hperms]
    exact (canonical_eq_iff.1 (h q hmem r hr hname) perm hperm).2 hin

theorem Gives.some {perm : String} (h : Gives policy name perm) :
    ∃ perms, rolesByName policy name = some perms ∧ perm ∈ perms := by
  unfold Gives at h
  cases hr : rolesByName policy name with
  | none =>
    rw [hr] at h
    exact absurd h (by simp)
  | some perms =>
    rw [hr] at h
    exact ⟨perms, rfl, h⟩

variable {b : Binding}

section

variable {current next : Option Policy} {wide : List String} {name perm : String}

theorem touched_of_roles (name : String) (hperm : perm ∈ permissions)
    (h : ¬ (Gives current name perm ↔ Gives next name perm)) :
    perm ∈ touched current next wide := by
  have hroles : perm ∈ changedRoles current next ∨ perm ∈ newRoles current next := by
    by_cases hold : Gives current name perm
    · -- The role gave it, and does no more.
      obtain ⟨old, hbefore, hin⟩ := hold.some
      refine .inl (List.mem_flatMap.2 ⟨name, mem_roleNames hbefore, ?_⟩)
      cases hnow : rolesByName next name with
      | none => exact hold
      | some now =>
        have hno : perm ∉ now := fun hin =>
          h (iff_of_true hold (by rw [Gives, hnow]; exact hin))
        have hne : canonical old ≠ canonical now := fun he =>
          hno ((canonical_eq_iff.1 he perm hperm).1 hin)
        simp only [hbefore, Option.getD_some, if_pos hne]
        exact List.mem_append_left _ hin
    · -- It gives it now.
      have hnew : Gives next name perm := by
        by_contra hn
        exact h (iff_of_false hold hn)
      obtain ⟨now, hnow, hin⟩ := hnew.some
      cases hbefore : rolesByName current name with
      | none =>
        refine .inr (List.mem_flatMap.2 ⟨name, mem_roleNames hnow, ?_⟩)
        rw [hbefore, Option.isNone_none, if_pos rfl]
        exact hnew
      | some old =>
        refine .inl (List.mem_flatMap.2 ⟨name, mem_roleNames hbefore, ?_⟩)
        have hno : perm ∉ old := fun ho => hold (by rw [Gives, hbefore]; exact ho)
        have hne : canonical old ≠ canonical now := fun he =>
          hno ((canonical_eq_iff.1 he perm hperm).2 hin)
        simp only [hbefore, hnow, Option.getD_some, if_pos hne]
        exact List.mem_append_right _ hin
  unfold touched
  simp only [List.mem_append]
  tauto

theorem touched_of_gone (hb : b ∈ bindingSet current) (hgone : b ∉ bindingSet next)
    (h : Gives current b.role perm) : perm ∈ touched current next wide := by
  have hin : perm ∈ goneBindings current next :=
    List.mem_flatMap.2 ⟨b, hb, by rw [if_pos hgone]; exact h⟩
  unfold touched
  simp only [List.mem_append]
  tauto

theorem touched_of_new (hb : b ∈ bindingSet next) (hnew : b ∉ bindingSet current)
    (h : Gives next b.role perm) : perm ∈ touched current next wide := by
  have hin : perm ∈ newBindings current next :=
    List.mem_flatMap.2 ⟨b, hb, by rw [if_pos hnew]; exact h⟩
  unfold touched
  simp only [List.mem_append]
  tauto

theorem touched_of_default (hne : defaultRole current ≠ defaultRole next)
    (h : Gives current (defaultRole current) perm ∨ Gives next (defaultRole next) perm) :
    perm ∈ touched current next wide := by
  have hin : perm ∈ changedDefault current next := by
    unfold changedDefault
    rw [if_pos hne]
    exact List.mem_append.2 h
  unfold touched
  simp only [List.mem_append]
  tauto

theorem touched_of_wide (hne : current.isNone ≠ next.isNone) (h : perm ∈ wide) :
    perm ∈ touched current next wide := by
  unfold touched
  simp only [List.mem_append, if_pos hne]
  tauto

end

/-! ## What a policy grants -/

structure Policy.Loaded (t : Texts) (p : Policy) : Prop where
  names : Keyed Role.name p.roles
  named : ∀ r ∈ p.roles, r.name ≠ ""
  known : ∀ r ∈ p.roles, ∀ perm ∈ r.permissions, perm ∈ permissions
  proper : ∀ b ∈ p.bindings, b.Proper t

theorem AuthDb.loaded {t : Texts} {db : AuthDb} (h : db.PolicyFormed t)
    (hp : db.loadPolicy = some p) : p.Loaded t := by
  obtain ⟨d, -, rfl⟩ := Option.map_eq_some_iff.1 hp
  refine ⟨?_, ?_, ?_, ?_⟩
  · intro a ha b hb hab
    obtain ⟨x, hx, rfl⟩ := List.mem_map.1 ha
    obtain ⟨y, hy, rfl⟩ := List.mem_map.1 hb
    rw [h.roleName x hx y hy hab]
  · intro a ha
    obtain ⟨x, hx, rfl⟩ := List.mem_map.1 ha
    exact h.named x hx
  · intro a ha perm hperm
    obtain ⟨x, hx, rfl⟩ := List.mem_map.1 ha
    exact (mem_canonical.1 hperm).1
  · intro b hb
    unfold AuthDb.loadBindings at hb
    rw [List.mem_append, List.mem_append] at hb
    obtain (hb | hb) | hb := hb
    · obtain ⟨row, hrow, rfl⟩ := List.mem_map.1 hb
      exact ⟨(h.subject row hrow).2.1, (h.subject row hrow).2.2, rfl, rfl⟩
    · obtain ⟨row, hrow, hb⟩ := List.mem_flatMap.1 hb
      obtain ⟨i, -, rfl⟩ := List.mem_map.1 hb
      exact ⟨(h.email row hrow).2.1, (h.email row hrow).2.2, rfl⟩
    · obtain ⟨row, hrow, hb⟩ := List.mem_flatMap.1 hb
      obtain ⟨i, -, rfl⟩ := List.mem_map.1 hb
      exact ⟨(h.domain row hrow).2.1, (h.domain row hrow).2.2, rfl⟩

theorem mem_rolePerms_iff (h : Keyed Role.name p.roles) {perm : String} :
    perm ∈ p.rolePerms name ↔ ∃ r ∈ p.roles, r.name = name ∧ perm ∈ r.permissions := by
  unfold Policy.rolePerms
  constructor
  · intro hperm
    cases hr : p.roles.find? fun r => r.name = name with
    | none =>
      rw [hr] at hperm
      exact absurd hperm (by simp)
    | some r =>
      rw [hr] at hperm
      obtain ⟨hmem, hname⟩ := (get_eq_some h).1 hr
      exact ⟨r, hmem, hname, hperm⟩
  · rintro ⟨r, hr, rfl, hperm⟩
    have hfind : p.roles.find? (fun q => q.name = r.name) = some r :=
      (get_eq_some h).2 ⟨hr, rfl⟩
    rw [hfind]
    exact hperm

section

variable {t : Texts} {current next normal : Policy} {wide : List String} {id : Identity}
  {s : Standing GuardUser} {name perm : String}

theorem Policy.Loaded.gives (h : current.Loaded t) (hperm : perm ∈ current.rolePerms name) :
    perm ∈ permissions ∧ Gives (some current) name perm := by
  obtain ⟨r, hr, hname, hin⟩ := (mem_rolePerms_iff h.names).1 hperm
  have hnamed : current.Named := fun a ha b hb hab => by rw [h.names a ha b hb hab]
  exact ⟨h.known r hr perm hin, (gives_iff hnamed (h.known r hr perm hin)).2 ⟨r, hr, hname, hin⟩⟩

theorem Policy.Loaded.of_gives (h : current.Loaded t) (hperm : perm ∈ permissions)
    (hg : Gives (some current) name perm) : perm ∈ current.rolePerms name := by
  have hnamed : current.Named := fun a ha b hb hab => by rw [h.names a ha b hb hab]
  exact (mem_rolePerms_iff h.names).2 ((gives_iff hnamed hperm).1 hg)

theorem Policy.Normal.gives_iff (h : next.Normal t normal) :
    perm ∈ normal.rolePerms name ↔ perm ∈ permissions ∧ Gives (some next) name perm := by
  have hnamed : next.Named := by
    intro a ha b hb hab
    have hkeyed := h.names
    rw [h.roles] at hkeyed
    have he := hkeyed _ (List.mem_map.2 ⟨a, ha, rfl⟩) _ (List.mem_map.2 ⟨b, hb, rfl⟩) hab
    exact congrArg Role.permissions he
  rw [mem_rolePerms_iff h.names, h.roles]
  constructor
  · rintro ⟨q, hq, hname, hcanon⟩
    obtain ⟨r, hr, rfl⟩ := List.mem_map.1 hq
    obtain ⟨hperm, hin⟩ := mem_canonical.1 hcanon
    exact ⟨hperm, (Auth.gives_iff hnamed hperm).2 ⟨r, hr, hname, hin⟩⟩
  · rintro ⟨hperm, hg⟩
    obtain ⟨r, hr, hname, hin⟩ := (Auth.gives_iff hnamed hperm).1 hg
    exact ⟨_, List.mem_map.2 ⟨r, hr, rfl⟩, hname, mem_canonical.2 ⟨hperm, hin⟩⟩

theorem Policy.Normal.binding (h : next.Normal t normal) (hb : b.Proper t)
    (hin : b ∈ next.bindings) : b ∈ normal.bindings := by
  have hall := h.bindings
  rw [List.forall₂_iff_get] at hall
  obtain ⟨k, hk, rfl⟩ := List.mem_iff_getElem.1 hin
  obtain ⟨i, hi⟩ := hall.2 k hk (hall.1 ▸ hk)
  have he := normalizeBinding_proper hb hi
  exact he ▸ List.get_mem _ _

theorem Policy.Normal.binding_from (h : next.Normal t normal) {b' : Binding}
    (hin : b' ∈ normal.bindings) :
    ∃ b ∈ next.bindings, (∃ i, normalizeBinding t i b = .ok b') ∧ b'.role = b.role := by
  have hall := h.bindings
  rw [List.forall₂_iff_get] at hall
  obtain ⟨k, hk, rfl⟩ := List.mem_iff_getElem.1 hin
  obtain ⟨i, hi⟩ := hall.2 k (hall.1 ▸ hk) hk
  refine ⟨_, List.get_mem _ _, ⟨i, hi⟩, ?_⟩
  show (normal.bindings.get ⟨k, hk⟩).role = _
  rw [(normalizeBinding_ok hi).2]

theorem touched_of_lost (hc : current.Loaded t) (hn : next.Normal t normal)
    (hold : current.Grants t id s perm) (hno : ¬ normal.Grants t id s perm) :
    perm ∈ touched (some current) (some next) wide := by
  obtain ⟨name, ⟨hs, hdue⟩, hin⟩ := hold
  obtain ⟨hperm, hgives⟩ := hc.gives hin
  -- The role is still due, so it does not give the permission any more.
  have hroles : normal.Due t id s name → perm ∈ touched (some current) (some next) wide := by
    intro hdue
    refine touched_of_roles name hperm fun hiff => hno ⟨name, hdue, ?_⟩
    exact hn.gives_iff.2 ⟨hperm, hiff.1 hgives⟩
  obtain hdefault | ⟨b, hb, hissuer, rfl, hm⟩ | hheld := hdue
  · by_cases hsame : normal.defaultRole = some name
    · exact hroles ⟨hs, .inl hsame⟩
    · have hcurrent : defaultRole (some current) = name := by
        simp [defaultRole, hdefault]
      refine touched_of_default (fun he => hsame ?_) (.inl (by rw [hcurrent]; exact hgives))
      rw [hn.defaultRole]
      cases hd : next.defaultRole with
      | none =>
        obtain ⟨r, hr, hname, -⟩ := (mem_rolePerms_iff hc.names).1 hin
        have hempty : name = "" := by
          rw [← hcurrent, he]
          simp [defaultRole, hd]
        exact absurd (hname.trans hempty) (hc.named r hr)
      | some d =>
        rw [← hcurrent, he]
        simp [defaultRole, hd]
  · by_cases hkept : b ∈ next.bindings
    · exact hroles ⟨hs, .inr (.inl ⟨b, hn.binding (hc.proper b hb) hkept, hissuer, rfl, hm⟩)⟩
    · exact touched_of_gone hb hkept hgives
  · exact hroles ⟨hs, .inr (.inr hheld)⟩

theorem touched_of_gained (hc : current.Loaded t) (hn : next.Normal t normal)
    (hnew : normal.Grants t id s perm) (hno : ¬ current.Grants t id s perm) :
    perm ∈ touched (some current) (some next) wide := by
  obtain ⟨name, ⟨hs, hdue⟩, hin⟩ := hnew
  obtain ⟨hperm, hgives⟩ := hn.gives_iff.1 hin
  have hroles : current.Due t id s name → perm ∈ touched (some current) (some next) wide := by
    intro hdue
    refine touched_of_roles name hperm fun hiff => hno ⟨name, hdue, ?_⟩
    exact hc.of_gives hperm (hiff.2 hgives)
  obtain hdefault | ⟨b', hb', hissuer, rfl, hm⟩ | hheld := hdue
  · by_cases hsame : current.defaultRole = some name
    · exact hroles ⟨hs, .inl hsame⟩
    · rw [hn.defaultRole] at hdefault
      have hnext : defaultRole (some next) = name := by
        simp [defaultRole, hdefault]
      refine touched_of_default (fun he => hsame ?_) (.inr (by rw [hnext]; exact hgives))
      cases hd : current.defaultRole with
      | none =>
        obtain ⟨r, hr, hname, -⟩ := (mem_rolePerms_iff hn.names).1 hin
        have hempty : name = "" := by
          rw [← hnext, ← he]
          simp [defaultRole, hd]
        exact absurd (hname.trans hempty) (AuthDb.isRoleName_ne (hn.isRoleName r hr))
      | some d =>
        rw [← hnext, ← he]
        simp [defaultRole, hd]
  · obtain ⟨b, hb, ⟨i, hi⟩, hrole⟩ := hn.binding_from hb'
    by_cases hkept : b ∈ current.bindings
    · obtain rfl := normalizeBinding_proper (hc.proper b hkept) hi
      exact hroles ⟨hs, .inr (.inl ⟨b', hkept, hissuer, rfl, hm⟩)⟩
    · rw [hrole] at hgives
      exact touched_of_new hb hkept hgives
  · exact hroles ⟨hs, .inr (.inr hheld)⟩

end

/-! ## The check -/

/-- The next policy, normal, or none. -/
def normalizeNext (t : Texts) : Option Policy → Except String (Option Policy)
  | none => .ok none
  | some p => (p.normalize t).map some

/-- What is written where the policy is replaced, or cleared. -/
def AuthDb.replacePolicy (db : AuthDb) (uuid : String → String) : Option Policy → AuthDb
  | none => db.deletePolicy
  | some p => db.writePolicy uuid p

theorem needs_ok {holds want : List String} {refusal : List String → AccessError}
    (h : needs holds want refusal = .ok ()) : ∀ p ∈ want, p ∈ permissions → p ∈ holds := by
  unfold needs at h
  split at h
  · exact absurd h (by simp)
  · next hm => exact missing_eq_nil.1 (not_not.1 hm)

section

variable {t : Texts} {db : AuthDb} {uuid : String → String} {wide : List String} {id : Identity}
  {perm : String}

theorem AuthDb.mem_authorize_written (h : db.WellFormed t) {next n : Policy}
    (hn : next.normalize t = .ok n) (hf : db.Fresh uuid n) (hheld : db.KeepsHeld n) :
    perm ∈ (db.writePolicy uuid n).authorize t wide id ↔
      n.Grants t id (standing t (db.people t) id) perm := by
  have hnormal := Policy.normalize_ok hn
  obtain ⟨q, hq, hgrants⟩ := load_written h.policy hf hnormal
  rw [mem_authorize (h.writePolicy hf hnormal), hq, people_written h hf hnormal hheld]
  exact hgrants id _ perm

theorem AuthDb.touched_of_differs (h : db.WellFormed t) {next n : Option Policy}
    (hwide : ∀ p ∈ wide, p ∈ permissions) (hn : normalizeNext t next = .ok n)
    (hf : ∀ q, n = some q → db.Fresh uuid q) (hheld : ∀ q, n = some q → db.KeepsHeld q)
    (hx : ¬ (perm ∈ db.authorize t wide id ↔
      perm ∈ (db.replacePolicy uuid n).authorize t wide id)) :
    perm ∈ touched db.loadPolicy next wide ∧ perm ∈ permissions := by
  have hbefore : perm ∈ db.authorize t wide id ↔
      May t wide db.loadPolicy (db.people t) id perm := mem_authorize h
  rw [hbefore] at hx
  cases next with
  | none =>
    obtain rfl : none = n := Except.ok.inj hn
    have hafter : perm ∈ (db.replacePolicy uuid none).authorize t wide id ↔ perm ∈ wide :=
      mem_authorize h.deletePolicy
    rw [hafter] at hx
    cases hp : db.loadPolicy with
    | none => exact absurd (by rw [hp]; exact Iff.rfl) hx
    | some p =>
      rw [hp] at hx
      have hloaded := loaded h.policy hp
      by_cases hin : perm ∈ wide
      · exact ⟨touched_of_wide (by simp) hin, hwide perm hin⟩
      · have hgrants : May t wide (some p) (db.people t) id perm := by
          by_contra hno
          exact hx (iff_of_false hno hin)
        obtain ⟨name, -, hrole⟩ := hgrants
        obtain ⟨hperm, hgives⟩ := hloaded.gives hrole
        exact ⟨touched_of_roles name hperm fun hiff => absurd (hiff.1 hgives)
          (by simp [Gives, rolesByName]), hperm⟩
  | some next =>
    obtain ⟨m, hm, rfl⟩ : ∃ m, next.normalize t = .ok m ∧ some m = n := by
      rw [normalizeNext] at hn
      cases hm : next.normalize t with
      | error e =>
        rw [hm] at hn
        exact absurd hn (by simp [Except.map])
      | ok m =>
        rw [hm] at hn
        exact ⟨m, rfl, Except.ok.inj hn⟩
    have hnormal := Policy.normalize_ok hm
    have hafter : perm ∈ (db.replacePolicy uuid (some m)).authorize t wide id ↔
        m.Grants t id (standing t (db.people t) id) perm :=
      mem_authorize_written h hm (hf m rfl) (hheld m rfl)
    rw [hafter] at hx
    cases hp : db.loadPolicy with
    | none =>
      rw [hp] at hx
      by_cases hin : perm ∈ wide
      · exact ⟨touched_of_wide (by simp) hin, hwide perm hin⟩
      · have hgrants : m.Grants t id (standing t (db.people t) id) perm := by
          by_contra hno
          exact hx (iff_of_false hin hno)
        obtain ⟨name, -, hrole⟩ := hgrants
        obtain ⟨hperm, hgives⟩ := hnormal.gives_iff.1 hrole
        exact ⟨touched_of_roles name hperm fun hiff => absurd (hiff.2 hgives)
          (by simp [Gives, rolesByName]), hperm⟩
    | some p =>
      rw [hp] at hx
      have hloaded := loaded h.policy hp
      by_cases hold : p.Grants t id (standing t (db.people t) id) perm
      · have hno : ¬ m.Grants t id (standing t (db.people t) id) perm :=
          fun hnew => hx (iff_of_true hold hnew)
        have hperm : perm ∈ permissions := hold.elim fun _ hg => (hloaded.gives hg.2).1
        exact ⟨touched_of_lost hloaded hnormal hold hno, hperm⟩
      · have hnew : m.Grants t id (standing t (db.people t) id) perm := by
          by_contra hno
          exact hx (iff_of_false hold hno)
        have hperm : perm ∈ permissions := hnew.elim fun _ hg => (hnormal.gives_iff.1 hg.2).1
        exact ⟨touched_of_gained hloaded hnormal hnew hold, hperm⟩

end

theorem BrowserAccess.known_wide {t : Texts} {cfg : Option (BrowserAccess t)} :
    ∀ p ∈ BrowserAccess.wide cfg, p ∈ Auth.permissions := by
  intro p hp
  cases cfg with
  | none => exact absurd hp (by simp [BrowserAccess.wide])
  | some b => exact b.known p hp

/-- Whoever may change the policy holds whatever anybody gains or loses by it. -/
theorem checkPolicyChange_bounds {t : Texts} {db : AuthDb} {cfg : Option (BrowserAccess t)}
    {keys : List ApiKey} {now : Int} {holds : List String} {next n : Option Policy}
    {uuid : String → String} (h : db.WellFormed t) (hn : normalizeNext t next = .ok n)
    (hf : ∀ q, n = some q → db.uuidTaken uuid q = false)
    (hheld : ∀ q, n = some q → db.KeepsHeld q)
    (hc : (db.loadGuard cfg keys now).checkPolicyChange holds next = .ok ()) (id : Identity)
    (perm : String)
    (hx : ¬ (perm ∈ db.authorize t (BrowserAccess.wide cfg) id ↔
      perm ∈ (db.replacePolicy uuid n).authorize t (BrowserAccess.wide cfg) id)) :
    perm ∈ holds := by
  obtain ⟨htouched, hperm⟩ := AuthDb.touched_of_differs h BrowserAccess.known_wide hn
    (fun q hq => AuthDb.fresh_of_not_taken (hf q hq)) hheld hx
  exact needs_ok hc perm htouched hperm

/-! ## A house -/

/-- Texts that are all in small letters. -/
def plainTexts : Texts where
  lower := fun c => c
  lower_lower := fun _ => rfl
  lower_at := rfl
  isAddress := fun s => '@' ∈ s.toList
  isIssuer := fun s => s ≠ ""
  isIssuer_empty := rfl
  equalFold := fun a b => a = b

/-- One provider, which gives nothing by itself. -/
def houseAccess : BrowserAccess plainTexts where
  provider := .direct [.oidc "https://idp"]
  origin := "https://house"
  permissions := []
  valid := by decide
  known := by simp

/-- The owner manages access, and a member may chat. -/
def housePolicy (defaultRole : Option String) : Policy where
  roles :=
    [{ name := "admin", description := "", permissions := ["models:read", "access:manage"] },
      { name := "member", description := "", permissions := ["inference:chat"] }]
  bindings := [{ kind := .email, role := "admin", issuer := "https://idp", email := "owner@house" }]
  defaultRole := defaultRole

def houseDrawn : Drawn where
  user := "u1"
  role := fun name => name

def houseMoves : List AccessMove := [.change (.applyPolicy (housePolicy none)) houseDrawn]

def houseDb : AuthDb := (accessTables plainTexts).after {} houseMoves

theorem houseDb_reachable : Reachable (accessTables plainTexts) houseDb :=
  reachable_after rfl
    (show ((accessTables plainTexts).run {} houseMoves).isSome = true by decide)

/-- Who makes members of everybody must hold what a member may do. -/
theorem house_opened : "inference:chat" ∈ (["access:manage", "inference:chat"] : List String) := by
  have hn : normalizeNext plainTexts (some (housePolicy (some "member"))) =
      .ok (some (housePolicy (some "member"))) := by decide
  have hf : ∀ q, some (housePolicy (some "member")) = some q →
      houseDb.uuidTaken houseDrawn.role q = false := by
    intro q hq
    obtain rfl := Option.some.inj hq
    decide
  have hheld : ∀ q, some (housePolicy (some "member")) = some q → houseDb.KeepsHeld q := by
    intro q hq
    obtain rfl := Option.some.inj hq
    unfold AuthDb.KeepsHeld
    decide
  have hc : (houseDb.loadGuard (some houseAccess) [] 0).checkPolicyChange
      ["access:manage", "inference:chat"] (some (housePolicy (some "member"))) = .ok () := by
    decide
  refine checkPolicyChange_bounds (AuthDb.wellFormed_of_reachable houseDb_reachable) hn hf hheld hc
    { issuer := "https://idp", subject := "s" } "inference:chat" ?_
  decide

end LocalBase.Auth
