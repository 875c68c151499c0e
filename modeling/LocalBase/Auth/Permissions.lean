import Mathlib.Data.List.Basic

/-!
# Permissions

What a key, a role or a provider can give, and what is missing of it.
-/

namespace LocalBase.Auth

def permissions : List String :=
  ["inference:chat", "inference:embeddings", "inference:decision", "inference:image",
    "inference:video", "inference:speech", "inference:transcription", "models:read",
    "models:manage", "configuration:read", "configuration:manage", "keys:read",
    "keys:manage", "access:read", "access:manage", "sessions:read", "sessions:revoke",
    "system:read", "system:manage"]

/-- What a new key gets, unless scopes are given. -/
def defaultKeyScopes : List String := permissions.take 8

/-- The known permissions of a list, in canonical order, each once. -/
def canonical (scopes : List String) : List String :=
  permissions.filter fun p => p ∈ scopes

/-- What `want` asks for that `holds` lacks. -/
def missing (holds want : List String) : List String :=
  (canonical want).filter fun p => p ∉ holds

def joinComma (words : List String) : String := String.intercalate ", " words

/-- A refusal, with the code a caller can tell it by. -/
structure AccessError where
  code : String
  message : String
deriving DecidableEq

def grantRefused (missing : List String) : AccessError where
  code := "exceeds-caller-permissions"
  message := "You can only grant permissions you hold. You don't hold: " ++ joinComma missing ++ "."

@[simp] theorem mem_canonical {p : String} {scopes : List String} :
    p ∈ canonical scopes ↔ p ∈ permissions ∧ p ∈ scopes := by
  simp [canonical]

theorem mem_missing {p : String} {holds want : List String} :
    p ∈ missing holds want ↔ (p ∈ permissions ∧ p ∈ want) ∧ p ∉ holds := by
  simp [missing]

theorem missing_eq_nil {holds want : List String} :
    missing holds want = [] ↔ ∀ p ∈ want, p ∈ permissions → p ∈ holds := by
  rw [List.eq_nil_iff_forall_not_mem]
  constructor
  · intro h p hw hp
    by_contra hh
    exact h p (mem_missing.2 ⟨⟨hp, hw⟩, hh⟩)
  · intro h p hm
    obtain ⟨⟨hp, hw⟩, hh⟩ := mem_missing.1 hm
    exact hh (h p hw hp)

theorem canonical_eq_iff {a b : List String} :
    canonical a = canonical b ↔ ∀ p ∈ permissions, (p ∈ a ↔ p ∈ b) := by
  constructor
  · intro h p hp
    have hm : p ∈ canonical a ↔ p ∈ canonical b := by rw [h]
    rwa [mem_canonical, mem_canonical, and_iff_right hp, and_iff_right hp] at hm
  · intro h
    exact List.filter_congr fun p hp => decide_eq_decide.2 (h p hp)

theorem canonical_canonical (scopes : List String) :
    canonical (canonical scopes) = canonical scopes := by
  rw [canonical_eq_iff]
  intro p hp
  rw [mem_canonical]
  exact and_iff_right hp

end LocalBase.Auth
