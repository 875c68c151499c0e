import LocalBase.Auth.Stored

/-!
# What is loaded of a policy that is stored

The roles and the default role come back as they were. Of the bindings come back
those that name a provider, and of those that name none the ones that stand alone:
where another binding of the same address and role names one, the address has a
provider, and is not read without it.
-/

namespace LocalBase.Auth

open Fuel Records

/-- What a binding is about: a subject, an address or a domain. -/
def Binding.address (b : Binding) : String :=
  match b.kind with
  | .subject => b.subject
  | .email => b.email
  | _ => b.domain

/-- A binding that has nothing but what its JSON shows. -/
def Binding.plain (kind : BindingKind) (role issuer address : String) : Binding :=
  match kind with
  | .subject => { kind := kind, role := role, issuer := issuer, subject := address }
  | .email => { kind := kind, role := role, issuer := issuer, email := address }
  | _ => { kind := kind, role := role, issuer := issuer, domain := address }

theorem Binding.shown_eq (b : Binding) : b.shown = plain b.kind b.role b.issuer b.address := by
  obtain ⟨kind, role, issuer, subject, email, domain⟩ := b
  cases kind with
  | subject | email | emailDomain | other => rfl

theorem Binding.plain_eq (kind : BindingKind) (role issuer address : String) :
    (plain kind role issuer address).kind = kind ∧ (plain kind role issuer address).role = role ∧
      (plain kind role issuer address).issuer = issuer ∧
      (plain kind role issuer address).address = address := by
  cases kind with
  | subject | email | emailDomain | other => exact ⟨rfl, rfl, rfl, rfl⟩

variable {kind : BindingKind}

theorem Binding.plain_inj {kind' : BindingKind}
    {role role' issuer issuer' address address' : String} :
    plain kind role issuer address = plain kind' role' issuer' address' ↔
      kind = kind' ∧ role = role' ∧ issuer = issuer' ∧ address = address' := by
  constructor
  · intro h
    obtain ⟨hk, hr, hi, ha⟩ := plain_eq kind role issuer address
    obtain ⟨hk', hr', hi', ha'⟩ := plain_eq kind' role' issuer' address'
    rw [h] at hk hr hi ha
    exact ⟨hk.symm.trans hk', hr.symm.trans hr', hi.symm.trans hi', ha.symm.trans ha'⟩
  · rintro ⟨rfl, rfl, rfl, rfl⟩
    rfl

/-- The two are about the same, for one role. -/
def Binding.Beside (b c : Binding) : Prop :=
  c.kind = b.kind ∧ c.role = b.role ∧ c.address = b.address

/-- A binding of the policy names a provider for what `b` is about. -/
def Policy.Vouched (p : Policy) (b : Binding) : Prop :=
  ∃ c ∈ p.bindings, b.Beside c ∧ c.issuer ≠ ""

namespace AuthDb

variable {t : Texts} {db : AuthDb} {uuid : String → String} {p n : Policy} {c b : Binding}

theorem nameOf_written (h : db.PolicyFormed t) (hf : db.Fresh uuid n) (hn : p.Normal t n)
    {name : String} (hname : ∃ r ∈ n.roles, r.name = name) :
    (db.writePolicy uuid n).nameOf (db.roleId uuid name) = name := by
  obtain ⟨r, hr, rfl⟩ := hname
  have hrow : db.roleRow uuid r ∈ (db.writePolicy uuid n).roles := List.mem_map.2 ⟨r, hr, rfl⟩
  exact (nameOf_eq (h.writePolicy hf hn) (hasRole_written ⟨r, hr, rfl⟩) hrow).2 rfl

theorem roleId_bound (h : db.PolicyFormed t) (hf : db.Fresh uuid n) (hn : p.Normal t n)
    (hb : b ∈ n.bindings) (hc : c ∈ n.bindings) :
    db.roleId uuid b.role = db.roleId uuid c.role ↔ b.role = c.role := by
  refine ⟨fun hid => ?_, fun he => by rw [he]⟩
  obtain ⟨r, hr, hrb⟩ := hn.bound b hb
  obtain ⟨q, hq, hqc⟩ := hn.bound c hc
  rw [← hrb, ← hqc] at hid ⊢
  exact roleId_inj h hf hr hq hid

theorem issuerRow_address {i : IssuerRow} :
    db.issuerRow uuid b = some i ↔ b.issuer ≠ "" ∧ (b.kind = .email ∨ b.kind = .emailDomain) ∧
      i = ⟨b.kind, db.roleId uuid b.role, b.address, b.issuer⟩ := by
  rw [issuerRow_eq_some]
  refine and_congr_right fun _ => ?_
  unfold Binding.address
  cases hk : b.kind with
  | subject | email | emailDomain | other => simp

theorem empty_mem_issuersOf (h : db.PolicyFormed t) {b : AddressRow} :
    "" ∈ db.issuersOf kind b ↔
      ¬ ∃ i ∈ db.bindingIssuers, i.kind = kind ∧ i.role = b.role ∧ i.value = b.value := by
  unfold issuersOf
  split
  · next hnil =>
    rw [List.map_eq_nil_iff, List.filter_eq_nil_iff] at hnil
    simpa [and_assoc] using hnil
  · next hcons =>
    refine iff_of_false (fun hempty => ?_) fun hno => hcons ?_
    · obtain ⟨i, hi, hie⟩ := List.mem_map.1 hempty
      exact h.issuer i (List.mem_filter.1 hi).1 hie
    · rw [List.map_eq_nil_iff, List.filter_eq_nil_iff]
      simpa [and_assoc] using hno

theorem issuers_written (h : db.PolicyFormed t) (hf : db.Fresh uuid n) (hn : p.Normal t n)
    (hb : b ∈ n.bindings) (hk : b.kind = .email ∨ b.kind = .emailDomain)
    (issuer : String → Prop) :
    (∃ i ∈ (db.writePolicy uuid n).bindingIssuers, i.kind = b.kind ∧
        i.role = db.roleId uuid b.role ∧ i.value = b.address ∧ issuer i.issuer) ↔
      ∃ c ∈ n.bindings, b.Beside c ∧ c.issuer ≠ "" ∧ issuer c.issuer := by
  constructor
  · rintro ⟨i, hi, hkind, hrole, hvalue, hissuer⟩
    obtain ⟨c, hc, hrow⟩ := List.mem_filterMap.1 hi
    obtain ⟨hne, -, rfl⟩ := issuerRow_address.1 hrow
    exact ⟨c, hc, ⟨hkind, (roleId_bound h hf hn hc hb).1 hrole, hvalue⟩, hne, hissuer⟩
  · rintro ⟨c, hc, ⟨hkind, hrole, hvalue⟩, hne, hissuer⟩
    rw [← hkind] at hk
    refine ⟨_, List.mem_filterMap.2 ⟨c, hc, issuerRow_address.2 ⟨hne, hk, rfl⟩⟩, hkind, ?_,
      hvalue, hissuer⟩
    exact congrArg (db.roleId uuid) hrole

/-- The providers of an address are the ones that the bindings about it name, or none. -/
theorem mem_issuersOf_written (h : db.PolicyFormed t) (hf : db.Fresh uuid n) (hn : p.Normal t n)
    (hb : b ∈ n.bindings) (hk : b.kind = .email ∨ b.kind = .emailDomain) {issuer : String} :
    issuer ∈ (db.writePolicy uuid n).issuersOf b.kind ⟨db.roleId uuid b.role, b.address⟩ ↔
      (issuer = "" → ¬ n.Vouched b) ∧
        (issuer ≠ "" → ∃ c ∈ n.bindings, b.Beside c ∧ c.issuer = issuer) := by
  have hformed := h.writePolicy hf hn
  by_cases hi : issuer = ""
  · have hrows := issuers_written h hf hn hb hk fun _ => True
    subst hi
    rw [empty_mem_issuersOf hformed]
    unfold Policy.Vouched
    simpa using not_congr hrows
  · have hrows := issuers_written h hf hn hb hk fun i => i = issuer
    rw [← and_iff_left (a := issuer ∈ _) hi, mem_issuersOf hformed, hrows]
    constructor
    · rintro ⟨c, hc, hbc, -, hissuer⟩
      exact ⟨fun he => absurd he hi, fun _ => ⟨c, hc, hbc, hissuer⟩⟩
    · rintro ⟨-, hnamed⟩
      obtain ⟨c, hc, hbc, rfl⟩ := hnamed hi
      exact ⟨c, hc, hbc, hi, rfl⟩

theorem mem_loadAddress (h : db.PolicyFormed t) (hf : db.Fresh uuid n) (hn : p.Normal t n)
    (hk : kind = .email ∨ kind = .emailDomain) {rows : List AddressRow}
    (hrows : ∀ row, row ∈ rows ↔
      ∃ b ∈ n.bindings, b.kind = kind ∧ row = ⟨db.roleId uuid b.role, b.address⟩) :
    c ∈ rows.flatMap (fun row => ((db.writePolicy uuid n).issuersOf kind row).map fun issuer =>
        .plain kind ((db.writePolicy uuid n).nameOf row.role) issuer row.value) ↔
      ∃ b ∈ n.bindings, b.kind = kind ∧ b.shown = c ∧ (b.issuer = "" → ¬ n.Vouched b) := by
  have hshown : ∀ b ∈ n.bindings, b.kind = kind → .plain kind
      ((db.writePolicy uuid n).nameOf (db.roleId uuid b.role)) b.issuer b.address = b.shown := by
    intro b hb hbk
    rw [nameOf_written h hf hn (hn.bound b hb), b.shown_eq, hbk]
  rw [List.mem_flatMap]
  constructor
  · rintro ⟨row, hrow, hmem⟩
    obtain ⟨issuer, hissuer, rfl⟩ := List.mem_map.1 hmem
    obtain ⟨b, hb, rfl, rfl⟩ := (hrows row).1 hrow
    obtain ⟨halone, hnamed⟩ := (mem_issuersOf_written h hf hn hb hk).1 hissuer
    by_cases hi : issuer = ""
    · -- The binding names no provider itself, or it would have one.
      have hempty : b.issuer = "" := by
        by_contra hne
        exact halone hi ⟨b, hb, ⟨rfl, rfl, rfl⟩, hne⟩
      refine ⟨b, hb, rfl, ?_, fun _ => halone hi⟩
      rw [← hshown b hb rfl, hempty, hi]
    · obtain ⟨c, hc, ⟨hck, hcr, hca⟩, rfl⟩ := hnamed hi
      refine ⟨c, hc, hck, ?_, fun he => absurd he hi⟩
      rw [← hshown c hc hck, hcr, hca]
  · rintro ⟨b, hb, rfl, rfl, halone⟩
    refine ⟨_, (hrows _).2 ⟨b, hb, rfl, rfl⟩, List.mem_map.2 ⟨b.issuer, ?_, hshown b hb rfl⟩⟩
    exact (mem_issuersOf_written h hf hn hb hk).2
      ⟨halone, fun _ => ⟨b, hb, ⟨rfl, rfl, rfl⟩, rfl⟩⟩

theorem mem_emailBindings {row : AddressRow} : row ∈ (db.writePolicy uuid n).emailBindings ↔
    ∃ b ∈ n.bindings, b.kind = .email ∧ row = ⟨db.roleId uuid b.role, b.address⟩ := by
  show row ∈ (n.bindings.filterMap (db.emailRow uuid)).dedup ↔ _
  rw [List.mem_dedup, List.mem_filterMap]
  refine exists_congr fun b => and_congr_right fun _ => ?_
  rw [emailRow_eq_some]
  refine and_congr_right fun hk => ?_
  simp only [Binding.address, hk]

theorem mem_domainBindings {row : AddressRow} : row ∈ (db.writePolicy uuid n).domainBindings ↔
    ∃ b ∈ n.bindings, b.kind = .emailDomain ∧ row = ⟨db.roleId uuid b.role, b.address⟩ := by
  show row ∈ (n.bindings.filterMap (db.domainRow uuid)).dedup ↔ _
  rw [List.mem_dedup, List.mem_filterMap]
  refine exists_congr fun b => and_congr_right fun _ => ?_
  rw [domainRow_eq_some]
  refine and_congr_right fun hk => ?_
  simp only [Binding.address, hk]

theorem mem_subjectBindings {row : SubjectRow} :
    row ∈ (db.writePolicy uuid n).subjectBindings ↔
      ∃ b ∈ n.bindings, b.kind = .subject ∧ row = ⟨db.roleId uuid b.role, b.issuer, b.subject⟩ := by
  show row ∈ n.bindings.filterMap (db.subjectRow uuid) ↔ _
  rw [List.mem_filterMap]
  exact exists_congr fun b => and_congr_right fun _ => subjectRow_eq_some

theorem mem_loadBindings_iff (h : db.PolicyFormed t) (hf : db.Fresh uuid n) (hn : p.Normal t n) :
    c ∈ (db.writePolicy uuid n).loadBindings ↔
      ∃ b ∈ n.bindings, b.shown = c ∧ (b.issuer = "" → ¬ n.Vouched b) := by
  have hsubject : c ∈ (db.writePolicy uuid n).subjectBindings.map
        (db.writePolicy uuid n).loadSubject ↔
      ∃ b ∈ n.bindings, b.kind = .subject ∧ b.shown = c := by
    have hshown : ∀ b ∈ n.bindings, b.kind = .subject → (db.writePolicy uuid n).loadSubject
        ⟨db.roleId uuid b.role, b.issuer, b.subject⟩ = b.shown := by
      intro b hb hk
      simp only [Binding.shown, loadSubject, hk, nameOf_written h hf hn (hn.bound b hb)]
    rw [List.mem_map]
    constructor
    · rintro ⟨row, hrow, rfl⟩
      obtain ⟨b, hb, hk, rfl⟩ := mem_subjectBindings.1 hrow
      exact ⟨b, hb, hk, (hshown b hb hk).symm⟩
    · rintro ⟨b, hb, hk, rfl⟩
      exact ⟨_, mem_subjectBindings.2 ⟨b, hb, hk, rfl⟩, hshown b hb hk⟩
  unfold loadBindings
  rw [List.mem_append, List.mem_append, hsubject]
  refine Iff.trans (or_congr (or_congr Iff.rfl
    (mem_loadAddress h hf hn (.inl rfl) fun _ => mem_emailBindings))
    (mem_loadAddress h hf hn (.inr rfl) fun _ => mem_domainBindings)) ?_
  constructor
  · rintro ((⟨b, hb, hk, hs⟩ | ⟨b, hb, -, hs⟩) | ⟨b, hb, -, hs⟩)
    · -- A subject always names its provider.
      have hproper := Normal.proper hn b hb
      unfold Binding.Proper at hproper
      rw [hk] at hproper
      exact ⟨b, hb, hs, fun he => absurd he hproper.1⟩
    · exact ⟨b, hb, hs⟩
    · exact ⟨b, hb, hs⟩
  · rintro ⟨b, hb, hs⟩
    have hproper := Normal.proper hn b hb
    unfold Binding.Proper at hproper
    split at hproper
    · next hk => exact .inl (.inl ⟨b, hb, hk, hs.1⟩)
    · next hk => exact .inl (.inr ⟨b, hb, hk, hs⟩)
    · next hk => exact .inr ⟨b, hb, hk, hs⟩
    · exact absurd hproper id

theorem mem_loadBindings (h : db.PolicyFormed t) (hf : db.Fresh uuid n) (hn : p.Normal t n)
    (hc : c.issuer ≠ "") :
    c ∈ (db.writePolicy uuid n).loadBindings ↔ ∃ b ∈ n.bindings, b.shown = c := by
  rw [mem_loadBindings_iff h hf hn]
  refine exists_congr fun b => and_congr_right fun _ => and_iff_left_of_imp ?_
  rintro rfl he
  rw [(Binding.shown_matches t ⟨"", "", ""⟩ b).2.1] at hc
  exact absurd he hc

theorem loadPolicy_written (h : db.PolicyFormed t) (hf : db.Fresh uuid n) (hn : p.Normal t n) :
    (db.writePolicy uuid n).loadPolicy = some
      { roles := n.roles
        bindings := (db.writePolicy uuid n).loadBindings
        defaultRole := n.defaultRole } := by
  have hroles : (n.roles.map (db.roleRow uuid)).map (fun r =>
      (⟨r.name, r.description, canonical r.permissions⟩ : Role)) = n.roles := by
    rw [List.map_map]
    refine (List.map_congr_left fun r hr => ?_).trans (List.map_id _)
    rw [hn.roles] at hr
    obtain ⟨r, -, rfl⟩ := List.mem_map.1 hr
    show (⟨r.name, r.description, canonical (canonical r.permissions)⟩ : Role) = r.canonical
    rw [canonical_canonical]
    rfl
  have hdefault : (n.defaultRole.map (db.roleId uuid)).bind (fun id =>
      ((db.writePolicy uuid n).role id).map AuthRole.name) = n.defaultRole := by
    cases hd : n.defaultRole with
    | none => rfl
    | some d =>
      obtain ⟨r, hr, rfl⟩ := hn.default d hd
      have hrow : (db.writePolicy uuid n).role (db.roleId uuid r.name) =
          some (db.roleRow uuid r) :=
        (role_eq_some (h.writePolicy hf hn)).2 ⟨List.mem_map.2 ⟨r, hr, rfl⟩, rfl⟩
      rw [Option.map_some, Option.bind_some, hrow]
      rfl
  show some (Policy.mk _ _ _) = _
  exact congrArg some (congrArg₂ (fun roles d => Policy.mk roles _ d) hroles hdefault)

theorem load_written (h : db.PolicyFormed t) (hf : db.Fresh uuid n) (hn : p.Normal t n) :
    ∃ q, (db.writePolicy uuid n).loadPolicy = some q ∧
      ∀ id s perm, q.Grants t id s perm ↔ n.Grants t id s perm := by
  have hbinds : ∀ id name, (∃ b ∈ (db.writePolicy uuid n).loadBindings,
        b.issuer ≠ "" ∧ b.role = name ∧ b.matches t id = true) ↔ n.Binds t id name := by
    intro id name
    constructor
    · rintro ⟨c, hc, hissuer, hrole, hm⟩
      obtain ⟨b, hb, rfl⟩ := (mem_loadBindings h hf hn hissuer).1 hc
      obtain ⟨hbm, hbi, hbr⟩ := Binding.shown_matches t id b
      exact ⟨b, hb, hbi ▸ hissuer, hbr ▸ hrole, hbm ▸ hm⟩
    · rintro ⟨b, hb, hissuer, hrole, hm⟩
      obtain ⟨hbm, hbi, hbr⟩ := Binding.shown_matches t id b
      rw [← hbi] at hissuer
      exact ⟨b.shown, (mem_loadBindings h hf hn hissuer).2 ⟨b, hb, rfl⟩, hissuer, hbr ▸ hrole,
        hbm ▸ hm⟩
  refine ⟨_, loadPolicy_written h hf hn, fun id s perm => exists_congr fun name => ?_⟩
  exact and_congr (and_congr_right fun _ => or_congr Iff.rfl (or_congr (hbinds id name) Iff.rfl))
    Iff.rfl

end AuthDb

end LocalBase.Auth
