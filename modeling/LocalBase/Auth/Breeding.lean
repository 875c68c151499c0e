import LocalBase.Auth.Keys
import Mathlib.Logic.Relation

/-!
# What a key can make of itself

A key that may manage keys makes others, replaces the secret of others and so
comes to hold them, and does the same with every key it holds. None of this ends
with more than the first key had: what is held keeps within its permissions and
its life, and so does whatever any other key gains.

A scope that is no permission gives nothing, and the checks do not look at it:
rotating a key hands over whatever such scopes it had.
-/

namespace LocalBase.Auth

/-- The table, and the keys whose secret the caller has. -/
structure KeyState where
  table : KeyTable
  held : List String

/-- Who a key acts as: it holds what it resolves to. -/
def callerOf (k : ApiKey) : KeyCaller where
  holds := canonical k.scopes
  key := some k

/-- One request made with a key that is held, which its check allowed and whose
write went through. The check and the write read the clock `now`. -/
inductive KeyStep (format : Int → String) (blank : String → Bool) : KeyState → KeyState → Prop
  | create {st : KeyState} {id : String} {k : ApiKey} {now : Int} {asked scopes : List String}
      {days : Int} {newId name : String} {secret : Secret} {table : KeyTable} {key : ApiKey}
      (hid : id ∈ st.held) (hk : st.table id = some k) (hs : validScopes asked = some scopes)
      (hc : (callerOf k).checkCreate now scopes days = .ok ())
      (hw : createApiKeyExpiring format blank now newId secret st.table name scopes days =
        .ok (table, key)) :
      KeyStep format blank st ⟨table, newId :: st.held⟩
  | rotate {st : KeyState} {id target : String} {k goal : ApiKey} {now : Int} {secret : Secret}
      {table : KeyTable} {key : ApiKey}
      (hid : id ∈ st.held) (hk : st.table id = some k) (ht : st.table target = some goal)
      (hc : (callerOf k).checkRotate goal = .ok ())
      (hw : rotateApiKey format now secret st.table target = .ok (table, key)) :
      KeyStep format blank st ⟨table, target :: st.held⟩
  | setScopes {st : KeyState} {id target : String} {k goal : ApiKey}
      {asked scopes : List String} {table : KeyTable} {key : ApiKey}
      (hid : id ∈ st.held) (hk : st.table id = some k) (ht : st.table target = some goal)
      (hs : validScopes asked = some scopes)
      (hc : (callerOf k).checkSetScopes goal scopes = .ok ())
      (hw : setApiKeyScopes st.table target scopes = .ok (table, key)) :
      KeyStep format blank st ⟨table, st.held⟩

/-- A key within the permissions `scopes` and the life `bound`. -/
structure ApiKey.Within (k : ApiKey) (scopes : List String) (bound : Option Int) : Prop where
  known : ∀ p ∈ k.scopes, p ∈ permissions → p ∈ scopes
  ends : EndsWithin (keyExpiry k.expiresAt) bound

/-- Every key that is held is within them. -/
def KeyState.HeldWithin (st : KeyState) (scopes : List String) (bound : Option Int) : Prop :=
  ∀ id ∈ st.held, ∃ k, st.table id = some k ∧ k.Within scopes bound

/-- Every permission a key has in `st'` and did not have in `st` is one of them,
on a key that ends in time. -/
def GainsWithin (st st' : KeyState) (scopes : List String) (bound : Option Int) : Prop :=
  ∀ id k', st'.table id = some k' → ∀ p ∈ k'.scopes,
    (∀ k, st.table id = some k → p ∉ k.scopes) →
    p ∈ scopes ∧ EndsWithin (keyExpiry k'.expiresAt) bound

variable {format : Int → String} {blank : String → Bool} {scopes : List String}
  {bound : Option Int} {id : String} {key k : ApiKey} {st : KeyState} {given : List String}

/-! ## The writes -/

theorem validScopes_known {asked : List String} (h : validScopes asked = some given) :
    ∀ p ∈ given, p ∈ permissions := by
  unfold validScopes at h
  split at h
  · injection h with h
    rw [← h]
    exact fun p hp => (mem_canonical.1 hp).1
  · exact absurd h (by simp)

theorem createApiKeyExpiring_ok {now : Int} {newId name : String} {secret : Secret}
    {t table : KeyTable} {days : Int}
    (h : createApiKeyExpiring format blank now newId secret t name given days =
      .ok (table, key)) :
    t newId = none ∧ table = Function.update t newId (some key) ∧ key.scopes = given ∧
      key.expiresAt =
        if 0 < days then some (stamp format (now + daysDuration days)) else none := by
  unfold createApiKeyExpiring at h
  split at h
  · simp at h
  · split at h
    · simp at h
    · split at h
      · simp at h
      · next hfresh =>
        simp only [Except.ok.injEq, Prod.mk.injEq] at h
        obtain ⟨rfl, rfl⟩ := h
        exact ⟨by simpa using hfresh, rfl, rfl, rfl⟩

theorem rotateApiKey_ok {now : Int} {target : String} {secret : Secret} {t table : KeyTable}
    {goal : ApiKey} (ht : t target = some goal)
    (h : rotateApiKey format now secret t target = .ok (table, key)) :
    table = Function.update t target (some key) ∧ key.scopes = goal.scopes ∧
      key.expiresAt = goal.expiresAt := by
  unfold rotateApiKey at h
  simp only [ht, Except.ok.injEq, Prod.mk.injEq] at h
  obtain ⟨rfl, rfl⟩ := h
  exact ⟨rfl, rfl, rfl⟩

theorem setApiKeyScopes_ok {target : String} {t table : KeyTable} {goal : ApiKey}
    (ht : t target = some goal) (h : setApiKeyScopes t target given = .ok (table, key)) :
    table = Function.update t target (some key) ∧ key.scopes = given ∧
      key.expiresAt = goal.expiresAt := by
  unfold setApiKeyScopes at h
  simp only [ht, Except.ok.injEq, Prod.mk.injEq] at h
  obtain ⟨rfl, rfl⟩ := h
  exact ⟨rfl, rfl, rfl⟩

theorem stamp_endsWithin (t : Int) : EndsWithin (keyExpiry (some (stamp format t))) (some t) := by
  intro e he
  injection he with he
  refine ⟨t / 1000000 * 1000000, rfl, ?_⟩
  omega

/-! ## One step -/

theorem heldWithin_update {held : List String} (h : st.HeldWithin scopes bound)
    (hkey : id ∈ held → key.Within scopes bound) (hheld : ∀ i ∈ held, i = id ∨ i ∈ st.held) :
    KeyState.HeldWithin ⟨Function.update st.table id (some key), held⟩ scopes bound := by
  intro i hi
  by_cases he : i = id
  · subst he
    exact ⟨key, Function.update_self .., hkey hi⟩
  · obtain ⟨k, hk, hw⟩ := h i ((hheld i hi).resolve_left he)
    exact ⟨k, (Function.update_of_ne he ..).trans hk, hw⟩

theorem gainsWithin_update {held : List String}
    (h : ∀ p ∈ key.scopes, (∀ k, st.table id = some k → p ∉ k.scopes) →
      p ∈ scopes ∧ EndsWithin (keyExpiry key.expiresAt) bound) :
    GainsWithin st ⟨Function.update st.table id (some key), held⟩ scopes bound := by
  intro i k' hk' p hp hnew
  by_cases he : i = id
  · subst he
    change Function.update st.table i (some key) i = some k' at hk'
    rw [Function.update_self] at hk'
    have hkk : key = k' := Option.some.inj hk'
    rw [← hkk] at hp ⊢
    exact h p hp hnew
  · have hk : st.table i = some k' := (Function.update_of_ne he ..).symm.trans hk'
    exact absurd hp (hnew k' hk)

theorem callerOf_holds (hw : k.Within scopes bound) {p : String}
    (hp : p ∈ (callerOf k).holds) : p ∈ scopes :=
  hw.known p (mem_canonical.1 hp).2 (mem_canonical.1 hp).1

theorem callerOf_ends (hw : k.Within scopes bound) {ends : Option Int}
    (h : (callerOf k).checkLife ends = .ok ()) : EndsWithin ends bound :=
  (checkLife_ok rfl h).trans hw.ends

theorem keyStep_within {st' : KeyState} (h : KeyStep format blank st st')
    (hst : st.HeldWithin scopes bound) :
    st'.HeldWithin scopes bound ∧ GainsWithin st st' scopes bound := by
  cases h with
  | @create id k now asked given days newId name secret table key hid hk hs hc hw =>
    obtain ⟨k₁, hk₁, hwithin⟩ := hst id hid
    obtain rfl : k = k₁ := Option.some.inj (hk.symm.trans hk₁)
    obtain ⟨hgiven, hlife⟩ := checkCreate_ok hc
    obtain ⟨-, rfl, hscopes, hexpires⟩ := createApiKeyExpiring_ok hw
    have hends : EndsWithin (keyExpiry key.expiresAt) bound := by
      have hlife := callerOf_ends hwithin hlife
      rw [hexpires]
      split
      · next hd =>
        rw [if_pos hd] at hlife
        exact (stamp_endsWithin _).trans hlife
      · next hd =>
        rw [if_neg hd] at hlife
        exact hlife
    have hin : ∀ p ∈ key.scopes, p ∈ scopes := fun p hp => by
      rw [hscopes] at hp
      exact callerOf_holds hwithin (hgiven p hp (validScopes_known hs p hp))
    refine ⟨heldWithin_update hst (fun _ => ⟨fun p hp _ => hin p hp, hends⟩) ?_, ?_⟩
    · exact fun i hi => List.mem_cons.1 hi
    · exact gainsWithin_update fun p hp _ => ⟨hin p hp, hends⟩
  | @rotate id target k goal now secret table key hid hk ht hc hw =>
    obtain ⟨k₁, hk₁, hwithin⟩ := hst id hid
    obtain rfl : k = k₁ := Option.some.inj (hk.symm.trans hk₁)
    obtain ⟨htarget, hlife⟩ := checkRotate_ok hc
    obtain ⟨rfl, hscopes, hexpires⟩ := rotateApiKey_ok ht hw
    refine ⟨heldWithin_update hst (fun _ => ⟨?_, ?_⟩) fun i hi => List.mem_cons.1 hi, ?_⟩
    · intro p hp hknown
      rw [hscopes] at hp
      exact callerOf_holds hwithin (checkTarget_ok htarget p hp hknown)
    · rw [hexpires]
      exact callerOf_ends hwithin hlife
    · refine gainsWithin_update fun p hp hnew => ?_
      rw [hscopes] at hp
      exact absurd hp (hnew goal ht)
  | @setScopes id target k goal asked given table key hid hk ht hs hc hw =>
    obtain ⟨k₁, hk₁, hwithin⟩ := hst id hid
    obtain rfl : k = k₁ := Option.some.inj (hk.symm.trans hk₁)
    obtain ⟨-, hgiven, hadd⟩ := checkSetScopes_ok hc
    obtain ⟨rfl, hscopes, hexpires⟩ := setApiKeyScopes_ok ht hw
    have hin : ∀ p ∈ key.scopes, p ∈ scopes := fun p hp => by
      rw [hscopes] at hp
      exact callerOf_holds hwithin (hgiven p hp (validScopes_known hs p hp))
    refine ⟨heldWithin_update hst (fun hi => ⟨fun p hp _ => hin p hp, ?_⟩) ?_, ?_⟩
    · -- A key that is held ends in time already.
      obtain ⟨g, hg, hgw⟩ := hst target hi
      rw [hexpires]
      obtain rfl : goal = g := Option.some.inj (ht.symm.trans hg)
      exact hgw.ends
    · exact fun i hi => .inr hi
    · refine gainsWithin_update fun p hp hnew => ⟨hin p hp, ?_⟩
      rw [hscopes] at hp
      obtain hkept | hlife := hadd
      · exact absurd (hkept p hp (validScopes_known hs p hp)) (hnew goal ht)
      · rw [hexpires]
        exact callerOf_ends hwithin hlife

/-! ## Every run -/

/-- Where requests made with the key `id`, and with whatever they hand over, get to. -/
def KeyRun (format : Int → String) (blank : String → Bool) (t : KeyTable) (id : String) :
    KeyState → Prop :=
  Relation.ReflTransGen (KeyStep format blank) ⟨t, [id]⟩

theorem keyRun_heldWithin {t : KeyTable} (hk : t id = some k) (h : KeyRun format blank t id st) :
    st.HeldWithin k.scopes (keyExpiry k.expiresAt) := by
  induction h with
  | refl =>
    intro i hi
    rw [List.mem_singleton.1 hi]
    exact ⟨k, hk, fun p hp _ => hp, endsWithin_refl _⟩
  | tail _ hstep ih => exact (keyStep_within hstep ih).1

/-- Whatever is held keeps within the first key, in every permission it has and
in its life, and so does everything that any key gains on the way. -/
theorem keyRun_within {t : KeyTable} {id : String} {k : ApiKey} (hk : t id = some k)
    {st : KeyState} (h : KeyRun format blank t id st) :
    st.HeldWithin k.scopes (keyExpiry k.expiresAt) ∧
      ∀ st', KeyStep format blank st st' →
        GainsWithin st st' k.scopes (keyExpiry k.expiresAt) := by
  have hheld := keyRun_heldWithin hk h
  exact ⟨hheld, fun st' hstep => (keyStep_within hstep hheld).2⟩

/-! ## A scope that is no permission -/

def manageKey : ApiKey :=
  ⟨"key_1", "ops", "p1", "h1", ["keys:manage"], "t", "t", none, none⟩

/-- A key with a scope that is no permission. -/
def sharedKey : ApiKey :=
  ⟨"key_2", "app", "p2", "h2", ["keys:share"], "t", "t", none, none⟩

def twoKeys : KeyTable :=
  Function.update (Function.update (fun _ => none) "key_1" (some manageKey)) "key_2"
    (some sharedKey)

/-- What rotating `sharedKey` leaves. -/
def sharedKeyRotated : KeyState where
  table := Function.update twoKeys "key_2" (some
    { sharedKey with keyPrefix := "p3", keyHash := "h3", lastRotatedAt := "t" })
  held := ["key_2", "key_1"]

theorem sharedKeyRotated_run :
    KeyRun (fun _ => "t") (fun _ => false) twoKeys "key_1" sharedKeyRotated :=
  .single (@KeyStep.rotate _ _ ⟨twoKeys, ["key_1"]⟩ "key_1" "key_2" manageKey sharedKey 0
    ⟨"p3", "h3"⟩ _ { sharedKey with keyPrefix := "p3", keyHash := "h3", lastRotatedAt := "t" }
    (by decide) (by decide) (by decide) rfl rfl)

theorem keyRun_within_two :
    sharedKeyRotated.HeldWithin manageKey.scopes (keyExpiry manageKey.expiresAt) ∧
      ∀ st', KeyStep (fun _ => "t") (fun _ => false) sharedKeyRotated st' →
        GainsWithin sharedKeyRotated st' manageKey.scopes (keyExpiry manageKey.expiresAt) :=
  keyRun_within (by decide) sharedKeyRotated_run

/-- The key that is handed over has a scope that the first does not. -/
theorem sharedKeyRotated_scopes :
    ∃ st, KeyRun (fun _ => "t") (fun _ => false) twoKeys "key_1" st ∧
      twoKeys "key_1" = some manageKey ∧
      ∃ id ∈ st.held, ∃ k, st.table id = some k ∧ ∃ p ∈ k.scopes, p ∉ manageKey.scopes :=
  ⟨sharedKeyRotated, sharedKeyRotated_run, by decide, "key_2", by decide,
    { sharedKey with keyPrefix := "p3", keyHash := "h3", lastRotatedAt := "t" }, by decide,
    "keys:share", by decide, by decide⟩

end LocalBase.Auth
