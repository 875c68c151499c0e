import LocalBase.Auth.PolicyChange
import Mathlib.Data.List.Sort

/-!
# A stored policy is the policy

What is loaded is what was stored, in some order, and has its revision. Only the
bindings can be told apart less than in the policy: an address that has a provider
for a role is not read without one, and the tables have no subject of an address.
-/

namespace LocalBase.Auth

open Fuel Machine Records

namespace AuthDb

variable {t : Texts} {db : AuthDb} {uuid : String → String} {p n : Policy}

/-! ## Nothing is loaded twice -/

theorem normalizeBindings_distinct {roles : List Role} {bs bs' seen : List Binding} {i : Nat}
    (hi : normalizeBindings t roles i seen bs = .ok bs') :
    (bs'.map Binding.shown).Nodup ∧ ∀ b ∈ bs', b.shown ∉ seen := by
  induction bs generalizing i seen bs' with
  | nil =>
    obtain rfl := Except.ok.inj hi
    exact ⟨List.nodup_nil, fun b hb => absurd hb List.not_mem_nil⟩
  | cons b bs ih =>
    rw [normalizeBindings] at hi
    split at hi
    · exact absurd hi (by simp)
    · obtain ⟨b', -, hi⟩ := bind_eq_ok.1 hi
      split at hi
      · exact absurd hi (by simp)
      · next hseen =>
        obtain ⟨rest, hrest, hi⟩ := bind_eq_ok.1 hi
        obtain rfl := Except.ok.inj hi
        obtain ⟨hdistinct, hnew⟩ := ih hrest
        refine ⟨List.nodup_cons.2 ⟨fun hmem => ?_, hdistinct⟩, List.forall_mem_cons.2
          ⟨hseen, fun c hc hs => hnew c hc (List.mem_cons_of_mem _ hs)⟩⟩
        obtain ⟨c, hc, hcs⟩ := List.mem_map.1 hmem
        exact hnew c hc (hcs ▸ List.mem_cons_self)

theorem normalize_distinct (hi : p.normalize t = .ok n) : (n.bindings.map Binding.shown).Nodup := by
  unfold Policy.normalize at hi
  split at hi
  · exact absurd hi (by simp)
  · split at hi
    · exact absurd hi (by simp)
    · obtain ⟨roles, -, hi⟩ := bind_eq_ok.1 hi
      split at hi
      · exact absurd hi (by simp)
      · obtain ⟨bindings, hbindings, hi⟩ := bind_eq_ok.1 hi
        split at hi
        · obtain rfl := Except.ok.inj hi
          exact (normalizeBindings_distinct hbindings).1
        · exact absurd hi (by simp)

theorem nodup_rows {β : Type} {row : Binding → Option β} (hd : (n.bindings.map Binding.shown).Nodup)
    (hrow : ∀ b ∈ n.bindings, ∀ c ∈ n.bindings, ∀ r, row b = some r → row c = some r →
      b.shown = c.shown) : (n.bindings.filterMap row).Nodup := by
  refine List.pairwise_filterMap.2 ((List.pairwise_map.1 hd).imp_of_mem ?_)
  rintro b c hb hc hne r hr r' hr' rfl
  exact hne (hrow b hb c hc r hr hr')

theorem nodup_issuersOf (h : db.PolicyFormed t) (hf : db.Fresh uuid n) (hn : p.Normal t n)
    (hd : (n.bindings.map Binding.shown).Nodup) (kind : BindingKind) (row : AddressRow) :
    ((db.writePolicy uuid n).issuersOf kind row).Nodup := by
  have hrows : (db.writePolicy uuid n).bindingIssuers.Nodup := by
    refine nodup_rows hd fun b hb c hc r hbr hcr => ?_
    obtain ⟨-, -, rfl⟩ := issuerRow_address.1 hbr
    obtain ⟨-, -, hrc⟩ := issuerRow_address.1 hcr
    obtain ⟨hk, hr, ha, hi⟩ := IssuerRow.mk.inj hrc
    rw [b.shown_eq, c.shown_eq, hk, hi, ha, (roleId_bound h hf hn hb hc).1 hr]
  unfold issuersOf
  split
  · exact List.nodup_singleton _
  · refine (hrows.filter _).map_on fun a ha b hb hab => ?_
    have ha := (List.mem_filter.1 ha).2
    have hb := (List.mem_filter.1 hb).2
    simp only [Bool.and_eq_true, decide_eq_true_eq] at ha hb
    obtain ⟨kind', role, value, issuer⟩ := a
    obtain ⟨⟨rfl, rfl⟩, rfl⟩ := ha
    obtain ⟨kind', role, value, issuer'⟩ := b
    obtain ⟨⟨rfl, rfl⟩, rfl⟩ := hb
    obtain rfl : issuer = issuer' := hab
    rfl

theorem nodup_loadAddress (h : db.PolicyFormed t) (hf : db.Fresh uuid n) (hn : p.Normal t n)
    (hd : (n.bindings.map Binding.shown).Nodup) {kind : BindingKind} {rows : List AddressRow}
    (hnodup : rows.Nodup) (hrows : ∀ row, row ∈ rows ↔
      ∃ b ∈ n.bindings, b.kind = kind ∧ row = ⟨db.roleId uuid b.role, b.address⟩) :
    (rows.flatMap fun row => ((db.writePolicy uuid n).issuersOf kind row).map fun issuer =>
      Binding.plain kind ((db.writePolicy uuid n).nameOf row.role) issuer row.value).Nodup := by
  refine List.nodup_flatMap.2 ⟨fun row _ => ?_, hnodup.imp_of_mem fun hrow hrow' hne => ?_⟩
  · exact (nodup_issuersOf h hf hn hd kind row).map fun i j hij => (Binding.plain_inj.1 hij).2.2.1
  · intro c hc hc'
    obtain ⟨i, -, rfl⟩ := List.mem_map.1 hc
    obtain ⟨j, -, hplain⟩ := List.mem_map.1 hc'
    obtain ⟨b, hb, -, rfl⟩ := (hrows _).1 hrow
    obtain ⟨b', hb', -, rfl⟩ := (hrows _).1 hrow'
    obtain ⟨-, hrole, -, haddress⟩ := Binding.plain_inj.1 hplain
    rw [nameOf_written h hf hn (hn.bound b hb), nameOf_written h hf hn (hn.bound b' hb')] at hrole
    exact hne (congrArg₂ AddressRow.mk (congrArg (db.roleId uuid) hrole.symm) haddress.symm)

theorem nodup_loadBindings (h : db.PolicyFormed t) (hf : db.Fresh uuid n) (hn : p.Normal t n)
    (hd : (n.bindings.map Binding.shown).Nodup) : (db.writePolicy uuid n).loadBindings.Nodup := by
  have hsubject : ((db.writePolicy uuid n).subjectBindings.map
      (db.writePolicy uuid n).loadSubject).Nodup := by
    refine List.Nodup.map_on (fun row hrow row' hrow' hload => ?_) (nodup_rows hd ?_)
    · obtain ⟨b, hb, -, rfl⟩ := mem_subjectBindings.1 hrow
      obtain ⟨c, hc, -, rfl⟩ := mem_subjectBindings.1 hrow'
      have hrole := congrArg Binding.role hload
      change (db.writePolicy uuid n).nameOf _ = (db.writePolicy uuid n).nameOf _ at hrole
      rw [nameOf_written h hf hn (hn.bound b hb), nameOf_written h hf hn (hn.bound c hc)] at hrole
      have hissuer := congrArg Binding.issuer hload
      have hsub := congrArg Binding.subject hload
      exact congr (congrArg₂ SubjectRow.mk (congrArg (db.roleId uuid) hrole) hissuer) hsub
    · intro b hb c hc r hbr hcr
      obtain ⟨hbk, rfl⟩ := subjectRow_eq_some.1 hbr
      obtain ⟨hck, hrow⟩ := subjectRow_eq_some.1 hcr
      obtain ⟨hr, hi, hs⟩ := SubjectRow.mk.inj hrow
      simp only [Binding.shown, hbk, hck, (roleId_bound h hf hn hb hc).1 hr, hi, hs]
  have hkind {kind : BindingKind} {rows : List AddressRow} (load : AddressRow → String → Binding)
      (hload : ∀ row i, (load row i).kind = kind) {c : Binding} (hc : c ∈ rows.flatMap fun row =>
        ((db.writePolicy uuid n).issuersOf kind row).map (load row)) : c.kind = kind := by
    obtain ⟨row, -, hc⟩ := List.mem_flatMap.1 hc
    obtain ⟨i, -, rfl⟩ := List.mem_map.1 hc
    exact hload row i
  have hemail := nodup_loadAddress h hf hn hd (List.nodup_dedup _) fun _ => mem_emailBindings
  have hdomain := nodup_loadAddress h hf hn hd (List.nodup_dedup _) fun _ => mem_domainBindings
  refine List.nodup_append.2 ⟨List.nodup_append.2 ⟨hsubject, hemail, ?_⟩, hdomain, ?_⟩
  · rintro a ha b hb rfl
    obtain ⟨row, -, rfl⟩ := List.mem_map.1 ha
    exact absurd (hkind (loadEmail _) (fun _ _ => rfl) hb) (by simp [loadSubject])
  · rintro a ha b hb rfl
    have hb := hkind (loadDomain _) (fun _ _ => rfl) hb
    rcases List.mem_append.1 ha with ha | ha
    · obtain ⟨row, -, rfl⟩ := List.mem_map.1 ha
      exact absurd hb (by simp [loadSubject])
    · exact absurd ((hkind (loadEmail _) (fun _ _ => rfl) ha).symm.trans hb) (by simp)

end AuthDb

/-! ## Policies in any order -/

/-- The two roles are the same but for the order of the permissions. -/
structure Role.Like (r q : Role) : Prop where
  name : r.name = q.name
  description : r.description = q.description
  permissions : r.permissions.Perm q.permissions

/-- The two policies are the same but for the order of what they list. -/
structure Policy.Like (p q : Policy) : Prop where
  roles : ∃ rs, p.roles.Perm rs ∧ List.Forall₂ Role.Like rs q.roles
  bindings : p.bindings.Perm q.bindings
  defaultRole : p.defaultRole = q.defaultRole

/-! ## The revision -/

def Role.sorted (r : Role) : Role := { r with permissions := r.permissions.mergeSort (· ≤ ·) }

/-- `Revision`: `text` is the JSON of what a binding shows, and `sum` the checksum of all. -/
def revision (text : Binding → String) (sum : List Role → List String → Option String → String)
    (p : Policy) : String :=
  sum ((p.roles.mergeSort fun a b => a.name ≤ b.name).map Role.sorted)
    ((p.bindings.mergeSort fun a b => text a.shown ≤ text b.shown).map fun b => text b.shown)
    p.defaultRole

theorem mergeSort_eq_of_perm {α : Type} {key : α → String} {xs ys : List α} (h : xs.Perm ys)
    (hkey : ∀ x ∈ ys, ∀ y ∈ ys, key x = key y → x = y) :
    xs.mergeSort (fun a b => key a ≤ key b) = ys.mergeSort fun a b => key a ≤ key b := by
  have hsorted (zs : List α) :
      (zs.mergeSort fun a b => key a ≤ key b).Pairwise fun a b => key a ≤ key b := by
    refine (List.pairwise_mergeSort (fun a b c hab hbc => ?_) (fun a b => ?_) zs).imp fun hab =>
      of_decide_eq_true hab
    · exact decide_eq_true (String.le_trans (of_decide_eq_true hab) (of_decide_eq_true hbc))
    · rw [Bool.or_eq_true, decide_eq_true_eq, decide_eq_true_eq]
      exact String.le_total (key a) (key b)
  have hperm (zs : List α) : (zs.mergeSort fun a b => key a ≤ key b).Perm zs :=
    List.mergeSort_perm zs _
  refine List.Perm.eq_of_pairwise (fun a b ha hb hab hba => ?_) (hsorted xs) (hsorted ys)
    ((hperm xs).trans (h.trans (hperm ys).symm))
  exact hkey a (h.subset ((hperm xs).subset ha)) b ((hperm ys).subset hb)
    (String.le_antisymm hab hba)

theorem Role.Like.sorted_eq {r q : Role} (h : r.Like q) : r.sorted = q.sorted := by
  have hperms : r.permissions.mergeSort (· ≤ ·) = q.permissions.mergeSort (· ≤ ·) :=
    mergeSort_eq_of_perm h.permissions fun _ _ _ _ he => he
  unfold Role.sorted
  rw [hperms]
  exact congrArg₂ (fun name description => Role.mk name description _) h.name h.description

theorem Policy.Like.revision {text : Binding → String}
    {sum : List Role → List String → Option String → String} {p q : Policy} (h : p.Like q)
    (hq : Keyed Role.name q.roles) : revision text sum p = revision text sum q := by
  have hroles (zs : List Role) : (zs.mergeSort fun a b => a.name ≤ b.name).map Role.sorted =
      (zs.map Role.sorted).mergeSort fun a b => a.name ≤ b.name :=
    List.map_mergeSort fun _ _ _ _ => rfl
  have hbindings (zs : List Binding) :
      (zs.mergeSort fun a b => text a.shown ≤ text b.shown).map (fun b => text b.shown) =
        (zs.map fun b => text b.shown).mergeSort fun a b => a ≤ b :=
    List.map_mergeSort fun _ _ _ _ => rfl
  obtain ⟨rs, hperm, hlike⟩ := h.roles
  have hsorted : ∀ {rs qs : List Role}, List.Forall₂ Role.Like rs qs →
      rs.map Role.sorted = qs.map Role.sorted := by
    intro rs qs hall
    induction hall with
    | nil => rfl
    | cons hrq _ ih => rw [List.map_cons, List.map_cons, hrq.sorted_eq, ih]
  unfold Auth.revision
  rw [hroles, hroles, hbindings, hbindings, h.defaultRole]
  congr 1
  · refine mergeSort_eq_of_perm (hsorted hlike ▸ hperm.map _) ?_
    intro a ha b hb hab
    obtain ⟨r, hr, rfl⟩ := List.mem_map.1 ha
    obtain ⟨r', hr', rfl⟩ := List.mem_map.1 hb
    rw [hq r hr r' hr' hab]
  · exact mergeSort_eq_of_perm (h.bindings.map _) fun _ _ _ _ h => h

/-! ## The round trip -/

/-- What the tables can tell of the bindings: an address or a domain has no subject, and
where a binding names no provider, no other one of the same role does for what it is
about. -/
def Policy.Told (p : Policy) : Prop :=
  ∀ b ∈ p.bindings, (b.kind ≠ .subject → b.subject = "") ∧ (b.issuer = "" → ¬ p.Vouched b)

theorem Binding.shown_shown (b : Binding) : b.shown.shown = b.shown := by
  obtain ⟨kind, role, issuer, subject, email, domain⟩ := b
  cases kind with
  | subject | email | emailDomain | other => rfl

namespace AuthDb

variable {t : Texts} {db : AuthDb} {uuid : String → String} {p n : Policy}

theorem shown_self {b : Binding} (hb : b.Proper t) :
    b.shown = b ↔ (b.kind ≠ .subject → b.subject = "") := by
  obtain ⟨kind, role, issuer, subject, email, domain⟩ := b
  unfold Binding.Proper at hb
  cases kind with
  | subject =>
    obtain ⟨-, -, rfl, rfl⟩ := hb
    simp [Binding.shown]
  | email =>
    obtain ⟨-, -, rfl⟩ := hb
    simp [Binding.shown, eq_comm]
  | emailDomain =>
    obtain ⟨-, -, rfl⟩ := hb
    simp [Binding.shown, eq_comm]
  | other => exact absurd hb id

theorem loadBindings_perm_iff (h : db.PolicyFormed t) (hf : db.Fresh uuid n) (hn : p.Normal t n)
    (hd : (n.bindings.map Binding.shown).Nodup) :
    (db.writePolicy uuid n).loadBindings.Perm n.bindings ↔ n.Told := by
  rw [List.perm_ext_iff_of_nodup (nodup_loadBindings h hf hn hd) (List.Nodup.of_map _ hd)]
  have hmem := fun c => mem_loadBindings_iff (c := c) h hf hn
  constructor
  · intro hsame b hb
    obtain ⟨c, hc, rfl, halone⟩ := (hmem b).1 ((hsame b).2 hb)
    -- The two show the same, so they are the same.
    have hcb : c = c.shown := List.inj_on_of_nodup_map hd hc hb c.shown_shown.symm
    rw [← hcb]
    exact ⟨(shown_self (Normal.proper hn c hc)).1 hcb.symm, halone⟩
  · intro htold c
    rw [hmem]
    constructor
    · rintro ⟨b, hb, rfl, -⟩
      rwa [(shown_self (Normal.proper hn b hb)).2 (htold b hb).1]
    · intro hc
      exact ⟨c, hc, (shown_self (Normal.proper hn c hc)).2 (htold c hc).1, (htold c hc).2⟩

/-- What the tables have after a transaction: what it leaves, or what there was. -/
def committed (db : AuthDb) : Except AuthError AuthDb → AuthDb
  | .ok db' => db'
  | .error _ => db

theorem heldElsewhere_none (hheld : db.KeepsHeld n) : db.heldElsewhere n = none := by
  unfold heldElsewhere
  rw [List.find?_eq_none]
  intro r hr hgone
  rw [Bool.and_eq_true, List.all_eq_true, List.any_eq_true] at hgone
  obtain ⟨hall, u, hu, hid⟩ := hgone
  obtain ⟨q, hq, hname⟩ := hheld u hu r hr (of_decide_eq_true hid)
  exact of_decide_eq_true (hall q hq) hname

theorem applyPolicy_of_normal (hi : p.normalize t = .ok n) (huuid : db.uuidTaken uuid n = false)
    (hheld : db.KeepsHeld n) : db.applyPolicy t uuid p = .ok (db.writePolicy uuid n) := by
  unfold applyPolicy
  simp only [hi, huuid, heldElsewhere_none hheld]
  rfl

/-- A policy that is applied is loaded as it was, in some order, if and only if the
tables can tell its bindings; and one that is not applied changes nothing. -/
theorem load_applied_iff (text : Binding → String)
    (sum : List Role → List String → Option String → String)
    (h : Reachable (accessTables t) db) (hi : p.normalize t = .ok n)
    (huuid : db.uuidTaken uuid n = false) (hheld : db.KeepsHeld n) :
    (∀ p' e, db.applyPolicy t uuid p' = .error e →
      (db.committed (db.applyPolicy t uuid p')).loadPolicy = db.loadPolicy) ∧
    ((∃ db' q, db.applyPolicy t uuid p = .ok db' ∧ db'.loadPolicy = some q ∧ q.Like n ∧
        revision text sum q = revision text sum n) ↔ n.Told) := by
  have hformed := (wellFormed_of_reachable h).policy
  have hf := fresh_of_not_taken huuid
  have hn := Policy.normalize_ok hi
  have hd := normalize_distinct hi
  have happly := applyPolicy_of_normal hi huuid hheld
  refine ⟨fun p' e he => by rw [he]; rfl, ?_⟩
  rw [← loadBindings_perm_iff hformed hf hn hd]
  have hload := loadPolicy_written hformed hf hn
  constructor
  · rintro ⟨db', q, hq, hq', hlike, -⟩
    obtain rfl := Except.ok.inj (happly.symm.trans hq)
    obtain rfl := Option.some.inj (hload.symm.trans hq')
    exact hlike.bindings
  · intro hperm
    have hlike : Policy.Like ⟨n.roles, (db.writePolicy uuid n).loadBindings, n.defaultRole⟩ n :=
      ⟨⟨n.roles, .refl _, List.forall₂_same.2 fun _ _ => ⟨rfl, rfl, .refl _⟩⟩, hperm, rfl⟩
    exact ⟨_, _, happly, hload, hlike, hlike.revision hn.names⟩

end AuthDb

/-! ### An address with a provider and without -/

/-- Everybody is a member, and the manager's address is told. -/
theorem house_loaded : (housePolicy (some "member")).Told ∧
    ∃ db' q,
      houseDb.applyPolicy plainTexts houseDrawn.role (housePolicy (some "member")) = .ok db' ∧
      db'.loadPolicy = some q ∧ q.Like (housePolicy (some "member")) ∧
      revision (fun b => b.role) (fun _ roles _ => String.join roles) q =
        revision (fun b => b.role) (fun _ roles _ => String.join roles)
          (housePolicy (some "member")) := by
  have hi : (housePolicy (some "member")).normalize plainTexts =
      .ok (housePolicy (some "member")) := by decide
  have huuid : houseDb.uuidTaken houseDrawn.role (housePolicy (some "member")) = false := by
    decide
  have hheld : houseDb.KeepsHeld (housePolicy (some "member")) := by
    unfold AuthDb.KeepsHeld
    decide
  have htold : (housePolicy (some "member")).Told := by
    intro b hb
    obtain rfl := List.mem_singleton.1 hb
    exact ⟨fun _ => rfl, fun h => absurd h (by decide)⟩
  exact ⟨htold, (AuthDb.load_applied_iff (fun b => b.role) (fun _ roles _ => String.join roles)
    houseDb_reachable hi huuid hheld).2.2 htold⟩

/-- The manager's address, with the provider and with none. -/
def twicePolicy : Policy :=
  { housePolicy none with
    bindings := (housePolicy none).bindings ++
      [{ kind := .email, role := "admin", email := "owner@house" }] }

/-- Of the two bindings one is loaded. -/
theorem twice_loaded_once :
    twicePolicy.normalize plainTexts = .ok twicePolicy ∧ houseDb.KeepsHeld twicePolicy ∧
      ∃ db' q, houseDb.applyPolicy plainTexts houseDrawn.role twicePolicy = .ok db' ∧
        db'.loadPolicy = some q ∧ q.bindings = (housePolicy none).bindings ∧
        ¬ q.bindings.Perm twicePolicy.bindings := by
  have hheld : houseDb.KeepsHeld twicePolicy := by
    unfold AuthDb.KeepsHeld
    decide
  have hi : twicePolicy.normalize plainTexts = .ok twicePolicy := by decide
  have huuid : houseDb.uuidTaken houseDrawn.role twicePolicy = false := by decide
  have happly := AuthDb.applyPolicy_of_normal hi huuid hheld
  have hload : (houseDb.writePolicy houseDrawn.role twicePolicy).loadPolicy =
      some (housePolicy none) := by decide
  refine ⟨hi, hheld, _, _, happly, hload, rfl, fun hperm => ?_⟩
  exact absurd hperm.length_eq (by decide)

end LocalBase.Auth
