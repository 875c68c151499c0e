import LocalBase.Auth.Permissions
import Mathlib.Logic.Function.Basic

/-!
# API keys, and who may change them

A key is made, rotated or given other permissions by somebody who holds a key
themselves, or by a person or the host, whose authority does not end on a date.
Times are nanoseconds; a time that is stored is a text, and may not read.
-/

namespace LocalBase.Auth

/-- A stored time: its text, and when that is, if it reads. -/
structure Stamp where
  text : String
  reads : Option Int
deriving DecidableEq

/-- A row of `api_keys`. -/
structure ApiKey where
  id : String
  name : String
  keyPrefix : String
  keyHash : String
  scopes : List String
  createdAt : String
  lastRotatedAt : String
  expiresAt : Option Stamp
  revokedAt : Option String
deriving DecidableEq

/-- When a key's expiry falls. A value that cannot be read counts as no expiry. -/
def keyExpiry (stored : Option Stamp) : Option Int := stored.bind Stamp.reads

/-! ## The checks -/

def errWiderKey : AccessError where
  code := "exceeds-caller-permissions"
  message := "This API key has permissions you don't hold, so you can't rotate, revoke or " ++
    "change it. Ask someone who holds them, or use `local-base keys` on the host."

def errOutlasts (expiresAt : String) : AccessError where
  code := "exceeds-caller-expiry"
  message := "This API key expires at " ++ expiresAt ++ ", and a key it creates or changes " ++
    "can't outlast it. Choose an earlier expiry, or use a signed-in session or " ++
    "`local-base keys` on the host."

structure KeyCaller where
  holds : List String
  /-- The key that makes the change: none for a person or the host. -/
  key : Option ApiKey

/-- `expiresDays` days of 24 hours, as a 64-bit count of nanoseconds. -/
def daysDuration (expiresDays : Int) : Int := Int.bmod (expiresDays * 86400000000000) (1 <<< 64)

namespace KeyCaller

/-- Refuses a life longer than the calling key's own. `until` is none for a key
that never expires. -/
def checkLife (c : KeyCaller) (ends : Option Int) : Except AccessError Unit :=
  match c.key with
  | none => .ok ()
  | some key =>
    match keyExpiry key.expiresAt with
    | some own =>
      if ends.all fun t => own < t then
        .error (errOutlasts ((key.expiresAt.map Stamp.text).getD ""))
      else .ok ()
    | none => .ok ()

def checkTarget (c : KeyCaller) (target : ApiKey) : Except AccessError Unit :=
  if missing c.holds target.scopes ≠ [] then .error errWiderKey else .ok ()

/-- Judges a new key: `expiresDays` is 0 for one that never expires. -/
def checkCreate (c : KeyCaller) (now : Int) (scopes : List String) (expiresDays : Int) :
    Except AccessError Unit :=
  if missing c.holds scopes ≠ [] then .error (grantRefused (missing c.holds scopes))
  else c.checkLife (if 0 < expiresDays then some (now + daysDuration expiresDays) else none)

/-- Judges replacing a key's secret: the caller gets the new one. -/
def checkRotate (c : KeyCaller) (target : ApiKey) : Except AccessError Unit := do
  c.checkTarget target
  c.checkLife (keyExpiry target.expiresAt)

/-- Judges replacing a key's permissions. Adding to a key that outlasts the caller
would give them a longer life; removing from one would not. -/
def checkSetScopes (c : KeyCaller) (target : ApiKey) (scopes : List String) :
    Except AccessError Unit := do
  c.checkTarget target
  if missing c.holds scopes ≠ [] then .error (grantRefused (missing c.holds scopes))
  else if missing target.scopes scopes = [] then .ok ()
  else c.checkLife (keyExpiry target.expiresAt)

end KeyCaller

/-! ## The table -/

/-- The rows of `api_keys`, by id. -/
abbrev KeyTable := String → Option ApiKey

/-- What is drawn for a new secret. -/
structure Secret where
  keyPrefix : String
  keyHash : String

inductive StoreError
  | emptyName
  | negativeDays
  | notFound (id : String)
  /-- The statement failed. -/
  | statement

/-- A key's expiry as it is written: whole milliseconds. -/
def stamp (format : Int → String) (t : Int) : Stamp where
  text := format t
  reads := some (t / 1000000 * 1000000)

/-- `CreateAPIKeyExpiring`, with the id and the secret it draws. -/
def createApiKeyExpiring (format : Int → String) (blank : String → Bool) (now : Int)
    (id : String) (secret : Secret) (t : KeyTable) (name : String) (scopes : List String)
    (expiresDays : Int) : Except StoreError (KeyTable × ApiKey) :=
  if blank name then .error .emptyName
  else if expiresDays < 0 then .error .negativeDays
  else if (t id).isSome then .error .statement
  else
    let k : ApiKey :=
      { id := id
        name := name
        keyPrefix := secret.keyPrefix
        keyHash := secret.keyHash
        scopes := scopes
        createdAt := format now
        lastRotatedAt := format now
        expiresAt :=
          if 0 < expiresDays then some (stamp format (now + daysDuration expiresDays)) else none
        revokedAt := none }
    .ok (Function.update t id (some k), k)

/-- `RotateAPIKey`. -/
def rotateApiKey (format : Int → String) (now : Int) (secret : Secret) (t : KeyTable)
    (id : String) : Except StoreError (KeyTable × ApiKey) :=
  match t id with
  | none => .error (.notFound id)
  | some k =>
    let k : ApiKey :=
      { k with
        keyPrefix := secret.keyPrefix
        keyHash := secret.keyHash
        lastRotatedAt := format now }
    .ok (Function.update t id (some k), k)

/-- `SetAPIKeyScopes`. -/
def setApiKeyScopes (t : KeyTable) (id : String) (scopes : List String) :
    Except StoreError (KeyTable × ApiKey) :=
  match t id with
  | none => .error (.notFound id)
  | some k =>
    let k : ApiKey := { k with scopes := scopes }
    .ok (Function.update t id (some k), k)

/-- The permissions a request names: known ones only, in canonical order. -/
def validScopes (scopes : List String) : Option (List String) :=
  if scopes.all fun s => s ∈ permissions then some (canonical scopes) else none

/-! ## What the checks say -/

/-- A key that ends by the time the caller's does, where that ends at all. -/
def EndsWithin (ends bound : Option Int) : Prop :=
  ∀ e, bound = some e → ∃ t, ends = some t ∧ t ≤ e

theorem EndsWithin.trans {a b c : Option Int} (hab : EndsWithin a b) (hbc : EndsWithin b c) :
    EndsWithin a c := by
  intro e he
  obtain ⟨t, ht, hte⟩ := hbc e he
  obtain ⟨s, hs, hst⟩ := hab t ht
  exact ⟨s, hs, Int.le_trans hst hte⟩

theorem endsWithin_refl (a : Option Int) : EndsWithin a a := fun e he =>
  ⟨e, he, Int.le_refl e⟩

variable {c : KeyCaller}

theorem checkLife_ok {ends : Option Int} {key : ApiKey} (hk : c.key = some key)
    (h : c.checkLife ends = .ok ()) :
    EndsWithin ends (keyExpiry key.expiresAt) := by
  intro e he
  unfold KeyCaller.checkLife at h
  rw [hk] at h
  simp only [he] at h
  split at h
  · simp at h
  · next hall =>
    cases ends with
    | none => exact absurd rfl hall
    | some t =>
      simp only [Option.all_some, decide_eq_true_eq] at hall
      exact ⟨t, rfl, by omega⟩

variable {target : ApiKey}

theorem checkTarget_ok (h : c.checkTarget target = .ok ()) :
    ∀ p ∈ target.scopes, p ∈ permissions → p ∈ c.holds := by
  unfold KeyCaller.checkTarget at h
  split at h
  · simp at h
  · next hm =>
    rw [not_not, missing_eq_nil] at hm
    exact hm

theorem checkCreate_ok {now : Int} {scopes : List String} {expiresDays : Int}
    (h : c.checkCreate now scopes expiresDays = .ok ()) :
    (∀ p ∈ scopes, p ∈ permissions → p ∈ c.holds) ∧
      c.checkLife (if 0 < expiresDays then some (now + daysDuration expiresDays) else none) =
        .ok () := by
  unfold KeyCaller.checkCreate at h
  split at h
  · simp at h
  · next hm =>
    rw [not_not, missing_eq_nil] at hm
    exact ⟨hm, h⟩

theorem checkRotate_ok (h : c.checkRotate target = .ok ()) :
    c.checkTarget target = .ok () ∧ c.checkLife (keyExpiry target.expiresAt) = .ok () := by
  unfold KeyCaller.checkRotate at h
  cases ht : c.checkTarget target with
  | error e => rw [ht] at h; exact absurd h (by simp [bind, Except.bind])
  | ok u =>
    rw [ht] at h
    exact ⟨rfl, h⟩

theorem checkSetScopes_ok {scopes : List String} (h : c.checkSetScopes target scopes = .ok ()) :
    c.checkTarget target = .ok () ∧ (∀ p ∈ scopes, p ∈ permissions → p ∈ c.holds) ∧
      ((∀ p ∈ scopes, p ∈ permissions → p ∈ target.scopes) ∨
        c.checkLife (keyExpiry target.expiresAt) = .ok ()) := by
  unfold KeyCaller.checkSetScopes at h
  cases ht : c.checkTarget target with
  | error e => rw [ht] at h; exact absurd h (by simp [bind, Except.bind])
  | ok u =>
    rw [ht] at h
    change (if missing c.holds scopes ≠ [] then _ else _) = Except.ok () at h
    split at h
    · simp at h
    · next hm =>
      rw [not_not, missing_eq_nil] at hm
      refine ⟨rfl, hm, ?_⟩
      split at h
      · next hadd => exact .inl (missing_eq_nil.1 hadd)
      · exact .inr h

end LocalBase.Auth
