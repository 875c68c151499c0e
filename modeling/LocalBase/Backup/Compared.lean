import LocalBase.Lib.Records
import LocalBase.Backup.Keys

/-!
# What a comparison of keys leaves

Each round of the comparison settles one row of the staged keys, by what the
root has of that key, and leaves the others. So what a comparison leaves is read
off row by row, and both rules of a restore are questions about one row: what a
file says a key may do does not come in unnamed, and a secret the root has
revoked or replaced does not come back.
-/

namespace LocalBase.Backup

open Auth

section

variable (unmarshal : String → Option (List String)) (bringBack : List String)

/-- What a restore without a root's keys leaves of a key. -/
def heldRow (id : String) (k : ComparedKey) : Option ComparedKey :=
  if k.revoked.isSome ∨ k.beyondRequests unmarshal = [] ∨ id ∈ bringBack then some k else none

/-- What a comparison leaves of a key the root does not have. -/
def missingRow (id : String) (k : ComparedKey) : Option ComparedKey :=
  if k.revoked.isSome ∨ id ∈ bringBack then some k else none

/-- The root's version of a key, with the file's permissions where it has none. -/
def ComparedKey.kept (was k : ComparedKey) : ComparedKey :=
  { was with scopes := was.scopes.orElse fun _ => k.scopes }

/-- What a comparison leaves of a key that both have. -/
def bothRow (was : ComparedKey) (id : String) (k : ComparedKey) : Option ComparedKey :=
  if was.scopes = none ∧ k.revoked = none ∧ k.beyondRequests unmarshal ≠ [] then
    if id ∈ bringBack then some k else none
  else if was.differences k = [] ∨ id ∈ bringBack then some k
  else some (was.kept k)

/-- What a comparison leaves of a key. -/
def comparedRow (now : Keys) (id : String) (k : ComparedKey) : Option ComparedKey :=
  if now.entries = [] then heldRow unmarshal bringBack id k
  else (now.lookup id).elim (missingRow bringBack id k)
    fun was => bothRow unmarshal bringBack was id k

end

variable {unmarshal : String → Option (List String)} {printable : String → String}
  {fails : String → Bool} {bringBack : List String} {k was : ComparedKey} {staged now : Keys}
  {c : Comparing} {report : Report}

def Comparing.row (c : Comparing) (id : String) : Option ComparedKey := c.staged.lookup id

/-! ## One round -/

theorem deleteKey_ok {staged' : Keys} {id : String}
    (h : deleteKey fails staged id = .ok staged') : staged' = staged.erase id := by
  unfold deleteKey at h
  split at h
  · simp at h
  · injection h with h
    exact h.symm

theorem updateKey_ok {staged' : Keys} {id : String}
    (h : updateKey fails staged id was = .ok staged') (hk : staged.lookup id = some k) :
    staged' = staged.insert id (was.kept k) := by
  unfold updateKey at h
  split at h
  · simp at h
  · rw [hk] at h
    injection h with h
    exact h.symm

theorem updateKey_other {staged' : Keys} {id i : String}
    (h : updateKey fails staged id was = .ok staged') (hi : i ≠ id) :
    staged'.lookup i = staged.lookup i := by
  unfold updateKey at h
  split at h
  · simp at h
  · split at h
    · injection h with h
      rw [h]
    · injection h with h
      rw [← h, AList.lookup_insert_ne hi]

theorem holdBack_ok {c' : Comparing} {id : String} {beyond : List String}
    (h : holdBack fails bringBack c id k beyond = .ok c') :
    c'.staged = if id ∈ bringBack then c.staged else c.staged.erase id := by
  unfold holdBack at h
  split at h
  · next hn =>
    injection h with h
    rw [if_pos hn, ← h]
    rfl
  · next hn =>
    rw [if_neg hn]
    cases hd : deleteKey fails c.staged id with
    | error e => rw [hd] at h; exact absurd h (by simp [bind, Except.bind])
    | ok staged =>
      rw [hd] at h
      injection h with h
      rw [← h, ← deleteKey_ok hd]

theorem compareMissing_ok {c' : Comparing} {id : String}
    (h : compareMissing unmarshal fails bringBack c id k = .ok c') :
    c'.staged = if k.revoked.isSome ∨ id ∈ bringBack then c.staged else c.staged.erase id := by
  unfold compareMissing at h
  split at h
  · next hr =>
    injection h with h
    rw [if_pos (Or.inl hr), h]
  · next hr =>
    split at h
    · next hn =>
      injection h with h
      rw [if_pos (Or.inr hn), ← h]
      rfl
    · next hn =>
      rw [if_neg (not_or.2 ⟨hr, hn⟩)]
      cases hd : deleteKey fails c.staged id with
      | error e => rw [hd] at h; exact absurd h (by simp [bind, Except.bind])
      | ok staged =>
        rw [hd] at h
        injection h with h
        rw [← h, ← deleteKey_ok hd]

theorem compareBoth_ok {c' : Comparing} {id : String}
    (h : compareBoth fails bringBack c id was k = .ok c') :
    ((was.differences k = [] ∨ id ∈ bringBack) ∧ c'.staged = c.staged) ∨
      (¬ (was.differences k = [] ∨ id ∈ bringBack) ∧
        updateKey fails c.staged id was = .ok c'.staged) := by
  unfold compareBoth at h
  simp only [] at h
  split at h
  · next hw =>
    injection h with h
    exact .inl ⟨.inl hw, by rw [h]⟩
  · next hw =>
    split at h
    · next hn =>
      injection h with h
      exact .inl ⟨.inr hn, by rw [← h]; rfl⟩
    · next hn =>
      refine .inr ⟨not_or.2 ⟨hw, hn⟩, ?_⟩
      cases hu : updateKey fails c.staged id was with
      | error e => rw [hu] at h; exact absurd h (by simp [bind, Except.bind])
      | ok staged =>
        rw [hu] at h
        injection h with h
        rw [← h]

theorem lookup_ite_erase {p : Prop} [Decidable p] {id : String} (hk : staged.lookup id = some k) :
    (if p then staged else staged.erase id).lookup id = if p then some k else none := by
  split
  · exact hk
  · rw [AList.lookup_erase]

theorem lookup_ite_erase_ne {p : Prop} [Decidable p] {id i : String}
    (hi : i ≠ id) : (if p then staged else staged.erase id).lookup i = staged.lookup i := by
  split
  · rfl
  · rw [AList.lookup_erase_ne hi]

theorem holdBackKey_settles :
    Rows.Settles Comparing.row (heldRow unmarshal bringBack)
      (holdBackKey unmarshal fails bringBack) := by
  constructor
  · intro c c' r h hr
    unfold holdBackKey at h
    unfold heldRow
    split at h
    · next hv =>
      injection h with h
      rw [if_pos (Or.inl hv), ← h, hr]
    · next hv =>
      split at h
      · next hb =>
        injection h with h
        rw [if_pos (Or.inr (Or.inl hb)), ← h, hr]
      · next hb =>
        unfold Comparing.row at hr ⊢
        rw [holdBack_ok h, lookup_ite_erase hr]
        simp [hv, hb]
  · intro c c' r i h hi
    unfold holdBackKey at h
    split at h
    · injection h with h
      rw [h]
    · split at h
      · injection h with h
        rw [h]
      · unfold Comparing.row
        rw [holdBack_ok h, lookup_ite_erase_ne hi]

theorem compareKey_settles (hnow : now.entries ≠ []) :
    Rows.Settles Comparing.row (comparedRow unmarshal bringBack now)
      (compareKey unmarshal fails bringBack now) := by
  constructor
  · intro c c' r h hr
    unfold compareKey at h
    unfold comparedRow
    rw [if_neg hnow]
    unfold Comparing.row at hr ⊢
    split at h
    · next hl =>
      rw [compareMissing_ok h, lookup_ite_erase hr, hl]
      rfl
    · next was hl =>
      rw [hl]
      show _ = bothRow unmarshal bringBack was r.1 r.2
      unfold bothRow
      split at h
      · next hv =>
        rw [if_pos hv, holdBack_ok h, lookup_ite_erase hr]
      · next hv =>
        rw [if_neg hv]
        obtain ⟨hd, he⟩ | ⟨hd, he⟩ := compareBoth_ok h
        · rw [if_pos hd, he, hr]
        · rw [if_neg hd, updateKey_ok he hr, AList.lookup_insert]
  · intro c c' r i h hi
    unfold compareKey at h
    unfold Comparing.row
    split at h
    · rw [compareMissing_ok h, lookup_ite_erase_ne hi]
    · split at h
      · rw [holdBack_ok h, lookup_ite_erase_ne hi]
      · obtain ⟨-, he⟩ | ⟨-, he⟩ := compareBoth_ok h
        · rw [he]
        · exact updateKey_other he hi

/-! ## The whole comparison -/

theorem walked_row {settle : String → ComparedKey → Option ComparedKey}
    {round : Comparing → (Σ _ : String, ComparedKey) → Except CompareError Comparing}
    (hs : Rows.Settles Comparing.row settle round)
    (h : staged.entries.foldlM round { staged := staged, report := report } = .ok c)
    (id : String) : c.staged.lookup id = (staged.lookup id).bind (settle id) := by
  cases hl : staged.lookup id with
  | none =>
    have hi : id ∉ staged.entries.keys := AList.lookup_eq_none.1 hl
    exact (hs.untouched h hi).trans hl
  | some k =>
    have hr : (⟨id, k⟩ : Σ _ : String, ComparedKey) ∈ staged.entries :=
      AList.mem_lookup_iff.1 hl
    exact hs.walked h staged.nodupKeys (fun r hr => AList.mem_lookup_iff.2 hr) hr

theorem compareKeys_ok {compared : Bool}
    (h : compareKeys unmarshal printable fails bringBack now staged report = .ok (c, compared))
    (id : String) :
    c.staged.lookup id =
      (staged.lookup id).bind (comparedRow unmarshal bringBack now id) := by
  unfold compareKeys at h
  split at h
  · next hnow =>
    unfold holdBackKeys at h
    cases hf : staged.entries.foldlM (holdBackKey unmarshal fails bringBack)
        { staged := staged, report := report } with
    | error e => rw [hf] at h; exact absurd h (by simp [bind, Except.bind])
    | ok m =>
      rw [hf] at h
      cases hn : checkKeyNames printable bringBack m.used with
      | error e => simp [bind, Except.bind, hn] at h
      | ok u =>
        simp only [bind, Except.bind, hn, pure, Except.pure, Except.ok.injEq,
          Prod.mk.injEq] at h
        rw [← h.1, walked_row holdBackKey_settles hf]
        congr 1
        funext k
        rw [comparedRow, if_pos hnow]
  · next hnow =>
    cases hf : staged.entries.foldlM (compareKey unmarshal fails bringBack now)
        { staged := staged, report := report } with
    | error e => rw [hf] at h; exact absurd h (by simp [bind, Except.bind])
    | ok m =>
      rw [hf] at h
      cases hn : checkKeyNames printable bringBack m.used with
      | error e => simp [bind, Except.bind, hn] at h
      | ok u =>
        simp only [bind, Except.bind, hn, pure, Except.pure, Except.ok.injEq,
          Prod.mk.injEq] at h
        rw [← h.1]
        exact walked_row (compareKey_settles hnow) hf id

theorem differences_eq_nil (h : was.differences k = []) :
    was.name = k.name ∧ was.keyPrefix = k.keyPrefix ∧ was.hash = k.hash ∧
      was.rotated = k.rotated ∧ was.expires = k.expires ∧
      (was.scopes = none ∨ was.scopes = k.scopes) ∧
      was.revoked.isSome = k.revoked.isSome := by
  unfold ComparedKey.differences at h
  simp only [List.append_eq_nil_iff, ite_eq_right_iff, reduceCtorEq, imp_false] at h
  obtain ⟨⟨⟨⟨⟨h1, h2⟩, h3⟩, h4⟩, h5⟩, h6⟩ := h
  rw [not_or, not_or, not_not, not_not, not_not] at h3
  refine ⟨not_not.1 h6, h3.2.1, h3.1, h3.2.2, not_not.1 h5, ?_, ?_⟩
  · rw [not_and, not_not] at h4
    cases hs : was.scopes with
    | none => exact .inl rfl
    | some s => exact .inr (hs ▸ h4 (by rw [hs]; rfl))
  · cases hw : was.revoked <;> cases hk : k.revoked <;> simp [hw, hk] at h1 h2 ⊢

/-! ## What a file says does not come in unnamed -/

variable (unmarshal) in
/-- Every key that works and can do more than make requests is named, or the root
has it with those permissions. -/
def NothingUnnamed (bringBack : List String) (now staged : Keys) : Prop :=
  ∀ id k, staged.lookup id = some k → k.revoked = none →
    (∃ s ∈ k.scopeList unmarshal, s ∉ defaultKeyScopes) →
    id ∈ bringBack ∨ ∃ was, now.lookup id = some was ∧ was.scopes.isSome ∧
      was.scopeList unmarshal = k.scopeList unmarshal

variable (unmarshal) in
/-- A key the backup has revoked and the root has not, whose permissions the root
cannot say. -/
def Revived (bringBack : List String) (now staged : Keys) : Prop :=
  ∃ id was k, now.lookup id = some was ∧ was.revoked = none ∧ was.scopes = none ∧
    staged.lookup id = some k ∧ k.revoked.isSome ∧
    (∃ s ∈ k.scopeList unmarshal, s ∉ defaultKeyScopes) ∧ id ∉ bringBack

theorem beyondRequests_ne_nil :
    k.beyondRequests unmarshal ≠ [] ↔ ∃ s ∈ k.scopeList unmarshal, s ∉ defaultKeyScopes := by
  unfold ComparedKey.beyondRequests
  rw [ne_eq, ← List.length_eq_zero_iff, List.length_insertionSort, List.length_eq_zero_iff,
    List.filter_eq_nil_iff]
  simp only [decide_eq_true_eq, not_not, not_forall, exists_prop]

theorem scopeList_congr {a b : ComparedKey} (h : a.scopes = b.scopes) :
    a.scopeList unmarshal = b.scopeList unmarshal := by
  unfold ComparedKey.scopeList
  rw [h]

variable (unmarshal) in
/-- What an unnamed key that works can have come from. -/
inductive Came (now : Keys) (id : String) (b k : ComparedKey) : Prop
  /-- A new root, and a key that only makes requests. -/
  | held (hnow : now.entries = []) (hk : k = b) (hb : b.beyondRequests unmarshal = [])
  /-- Both have it, and they do not differ. -/
  | same (was : ComparedKey) (hw : now.lookup id = some was) (hk : k = b)
      (hd : was.differences k = [])
      (hv : was.scopes = none → b.beyondRequests unmarshal = [])
  /-- Both have it, and the root's version stands. -/
  | kept (was : ComparedKey) (hw : now.lookup id = some was) (hk : k = was.kept b)
      (hv : was.scopes = none → b.revoked = none → b.beyondRequests unmarshal = [])

theorem came {id : String} {b : ComparedKey}
    (h : comparedRow unmarshal bringBack now id b = some k) (hr : k.revoked = none)
    (hn : id ∉ bringBack) : Came unmarshal now id b k := by
  unfold comparedRow at h
  split at h
  · next hnow =>
    unfold heldRow at h
    split at h
    · next ho =>
      injection h with h
      subst h
      refine .held hnow rfl ?_
      simpa [hr, hn] using ho
    · exact absurd h (by simp)
  · cases hw : now.lookup id with
    | none =>
      rw [hw] at h
      change missingRow bringBack id b = some k at h
      unfold missingRow at h
      split at h
      · next ho =>
        injection h with h
        subst h
        simp [hr, hn] at ho
      · exact absurd h (by simp)
    | some was =>
      rw [hw] at h
      change bothRow unmarshal bringBack was id b = some k at h
      unfold bothRow at h
      rw [if_neg hn] at h
      split at h
      · exact absurd h (by simp)
      · next hv =>
        rw [not_and, not_and, not_not] at hv
        split at h
        · next ho =>
          injection h with h
          subst h
          exact .same was hw rfl (ho.resolve_right hn) fun hs => hv hs hr
        · injection h with h
          exact .kept was hw h.symm hv

theorem comparedRow_of_lookup {compared : Bool} {id : String}
    (h : compareKeys unmarshal printable fails bringBack now staged report = .ok (c, compared))
    (hk : c.staged.lookup id = some k) :
    ∃ b, staged.lookup id = some b ∧ comparedRow unmarshal bringBack now id b = some k := by
  rw [compareKeys_ok h id] at hk
  exact Option.bind_eq_some_iff.1 hk

/-- A key the root has not revoked and the backup has comes back, with what the
file says it may do, where the root cannot say. -/
theorem revived_row {id : String} {b : ComparedKey} (hw : now.lookup id = some was)
    (hr : was.revoked = none) (hb : b.revoked.isSome) (hn : id ∉ bringBack) :
    comparedRow unmarshal bringBack now id b = some (was.kept b) := by
  have hnow : now.entries ≠ [] := fun he => by
    have hm : (⟨id, was⟩ : Σ _ : String, ComparedKey) ∈ now.entries :=
      AList.mem_lookup_iff.1 hw
    rw [he] at hm
    exact absurd hm (by simp)
  have hd : was.differences b ≠ [] := fun hd => by
    have hs := (differences_eq_nil hd).2.2.2.2.2.2
    rw [hr, hb] at hs
    exact absurd hs (by simp)
  unfold comparedRow
  rw [if_neg hnow, hw]
  show bothRow unmarshal bringBack was id b = _
  unfold bothRow
  rw [if_neg, if_neg (not_or.2 ⟨hd, hn⟩)]
  rintro ⟨-, hb', -⟩
  rw [hb'] at hb
  exact absurd hb (by simp)

/-- A comparison lets in no permission unnamed exactly when the backup has
revoked no key that the root still uses and cannot say the permissions of. -/
theorem compareKeys_nothingUnnamed {now staged : Keys} {report : Report} {c : Comparing}
    {compared : Bool}
    (h : compareKeys unmarshal printable fails bringBack now staged report =
      .ok (c, compared)) :
    NothingUnnamed unmarshal bringBack now c.staged ↔
      ¬ Revived unmarshal bringBack now staged := by
  constructor
  · rintro hu ⟨id, was, b, hw, hr, hs, hb, hbr, hbeyond, hn⟩
    have hrow : c.staged.lookup id = some (was.kept b) := by
      rw [compareKeys_ok h id, hb]
      exact revived_row hw hr hbr hn
    have hscopes : (was.kept b).scopes = b.scopes := by
      show was.scopes.orElse _ = _
      rw [hs]
      rfl
    obtain hin | ⟨was', hw', hsome, -⟩ := hu id _ hrow hr (by
      rw [scopeList_congr hscopes]
      exact hbeyond)
    · exact hn hin
    · rw [hw] at hw'
      injection hw' with hw'
      rw [← hw', hs] at hsome
      exact absurd hsome (by simp)
  · intro hrev id k hk hr hbeyond
    by_cases hn : id ∈ bringBack
    · exact .inl hn
    obtain ⟨b, hb, hrow⟩ := comparedRow_of_lookup h hk
    right
    obtain ⟨-, hkb, hb0⟩ | ⟨was, hw, hkb, hd, hv⟩ | ⟨was, hw, hkb, hv⟩ := came hrow hr hn
    · rw [hkb] at hbeyond
      exact absurd hb0 (beyondRequests_ne_nil.2 hbeyond)
    · rw [hkb] at hbeyond
      have hsome : was.scopes ≠ none := fun hs =>
        absurd (hv hs) (beyondRequests_ne_nil.2 hbeyond)
      have hsame := (differences_eq_nil hd).2.2.2.2.2.1.resolve_left hsome
      exact ⟨was, hw, Option.isSome_iff_ne_none.2 hsome, scopeList_congr hsame⟩
    · cases hs : was.scopes with
      | some s =>
        refine ⟨was, hw, by rw [hs]; rfl, scopeList_congr ?_⟩
        rw [hkb, ComparedKey.kept, hs]
        rfl
      | none =>
        have hkscopes : k.scopes = b.scopes := by
          rw [hkb, ComparedKey.kept, hs]
          rfl
        rw [scopeList_congr hkscopes] at hbeyond
        have hwr : was.revoked = none := by
          rw [hkb] at hr
          exact hr
        have hbr : b.revoked ≠ none := fun hbr =>
          absurd (hv hs hbr) (beyondRequests_ne_nil.2 hbeyond)
        exact absurd ⟨id, was, b, hw, hwr, hs, hb, Option.isSome_iff_ne_none.2 hbr,
          hbeyond, hn⟩ hrev

/-- A root older than key permissions, with one key. -/
def oldRoot : Keys :=
  AList.singleton "key_1" ⟨"ops", "p", "h", "r", none, none, none⟩

/-- A backup that has it revoked, with a permission to manage keys. -/
def revokedBackup : Keys :=
  AList.singleton "key_1" ⟨"ops", "p", "h", "r", some "[\"keys:manage\"]", none, some "t"⟩

/-- The lists of permissions of `revokedBackup`. -/
def readsList (text : String) : Option (List String) :=
  if text = "[\"keys:manage\"]" then some ["keys:manage"] else none

/-- What `compareKeys` makes of them. -/
def revokedBackupCompared : Comparing where
  staged := AList.singleton "key_1" ⟨"ops", "p", "h", "r", some "[\"keys:manage\"]", none, none⟩
  report := { keysKept :=
    [⟨"key_1", "ops", "revoked in this backup and not on this root"⟩] }

theorem compared_revokedBackup :
    compareKeys readsList id (fun _ => false) [] oldRoot revokedBackup {} =
      .ok (revokedBackupCompared, false) := by
  rfl

/-- The key comes back with every permission the file claims for it. -/
theorem revokedBackup_unnamed :
    ∃ c compared, compareKeys readsList id (fun _ => false) [] oldRoot revokedBackup {} =
      .ok (c, compared) ∧ ¬ NothingUnnamed readsList [] oldRoot c.staged := by
  refine ⟨_, _, compared_revokedBackup, fun h => ?_⟩
  obtain hin | ⟨was, hw, hsome, -⟩ := h "key_1" _ rfl rfl ⟨"keys:manage", by decide, by decide⟩
  · exact absurd hin (by simp)
  · obtain rfl : _ = was := Option.some.inj hw
    exact absurd hsome (by decide)

theorem compareKeys_nothingUnnamed_one :
    NothingUnnamed readsList [] oldRoot revokedBackupCompared.staged ↔
      ¬ Revived readsList [] oldRoot revokedBackup :=
  compareKeys_nothingUnnamed compared_revokedBackup

/-! ## No secret comes back -/

/-- Whatever works after a comparison with a root that has keys, and is not
named, the root has and uses, with the same secret and the same life. -/
theorem compareKeys_same_secret {now staged : Keys} {report : Report} {c : Comparing}
    {compared : Bool} (hnow : now.entries ≠ [])
    (h : compareKeys unmarshal printable fails bringBack now staged report =
      .ok (c, compared)) {id : String} {k : ComparedKey}
    (hk : c.staged.lookup id = some k) (hr : k.revoked = none) (hn : id ∉ bringBack) :
    ∃ was, now.lookup id = some was ∧ was.revoked = none ∧ was.hash = k.hash ∧
      was.keyPrefix = k.keyPrefix ∧ was.expires = k.expires ∧ was.rotated = k.rotated := by
  obtain ⟨b, hb, hrow⟩ := comparedRow_of_lookup h hk
  obtain ⟨hempty, -, -⟩ | ⟨was, hw, hkb, hd, -⟩ | ⟨was, hw, hkb, -⟩ := came hrow hr hn
  · exact absurd hempty hnow
  · subst hkb
    obtain ⟨-, hp, hh, hrot, he, -, hrev⟩ := differences_eq_nil hd
    rw [hr] at hrev
    exact ⟨was, hw, by simpa using hrev, hh, hp, he, hrot⟩
  · rw [hkb] at hr ⊢
    exact ⟨was, hw, hr, rfl, rfl, rfl, rfl⟩

theorem compareKeys_same_secret_one :
    ∃ was, oldRoot.lookup "key_1" = some was ∧ was.revoked = none ∧ was.hash = "h" ∧
      was.keyPrefix = "p" ∧ was.expires = none ∧ was.rotated = "r" :=
  compareKeys_same_secret (k := ⟨"ops", "p", "h", "r", some "[\"keys:manage\"]", none, none⟩)
    (by decide) compared_revokedBackup rfl rfl (by decide)

end LocalBase.Backup
