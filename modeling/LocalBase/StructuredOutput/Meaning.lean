import Mathlib.Data.List.Forall2
import LocalBase.StructuredOutput.Safe

/-!
# What an answer that passes means

A declarative reading of the accepted subset, by draft 7: a schema is a
reference, or every one of its keywords holds of the value. The check agrees
with it. Where it answers true the value satisfies the schema; where it answers
false the value does not, unless the check ran into one of its limits.

Each step of the check is shown to tell whether a proposition holds, up to the
limits. The limits are shared by all the calls of a check, so what a call tells
depends on the state it is called in, and only the calls that stay within them
have to be right about a false.
-/

namespace LocalBase.StructuredOutput

variable {go : Go} {root s : Object} {n : Nat} {v : Json}

/-! ## The meaning of a schema -/

inductive HasType : Json → String → Prop
  | null : HasType .null "null"
  | boolean (b : Bool) : HasType (.bool b) "boolean"
  | string (t : String) : HasType (.str t) "string"
  | number (n : Number) : HasType (.num n) "number"
  | integer (n : Number) : n.value.den = 1 → HasType (.num n) "integer"
  | array (xs : List Json) : HasType (.arr xs) "array"
  | object (m : Object) : HasType (.obj m) "object"

/-- Equality of JSON values: numbers by what they denote, objects by member. -/
inductive Same : Json → Json → Prop
  | null : Same .null .null
  | bool (b : Bool) : Same (.bool b) (.bool b)
  | num {n n' : Number} : n.value = n'.value → Same (.num n) (.num n')
  | str (t : String) : Same (.str t) (.str t)
  | arr {xs ys : List Json} : List.Forall₂ Same xs ys → Same (.arr xs) (.arr ys)
  | obj {m m' : Object} : (∀ k, m.has k = m'.has k) →
      (∀ k x y, m.lookup k = some x → m'.lookup k = some y → Same x y) →
      Same (.obj m) (.obj m')

/-- The keywords that say something of the value without its parts' schemas. -/
structure Fits (s : Object) (v : Json) : Prop where
  type : ∀ x, s.lookup "type" = some x → ∃ t ∈ schemaTypesOf s, HasType v t
  const : ∀ l, s.lookup "const" = some l → Same l v
  enum : ∀ ls, s.lookup "enum" = some (.arr ls) → ∃ l ∈ ls, Same l v
  required : ∀ names, s.lookup "required" = some (.arr names) →
    ∀ m, v = .obj m → ∀ t, .str t ∈ names → Object.has m t = true
  minItems : ∀ n, s.lookup "minItems" = some (.num n) →
    ∀ xs, v = .arr xs → n.value ≤ (xs.length : ℚ)
  maxItems : ∀ n, s.lookup "maxItems" = some (.num n) →
    ∀ xs, v = .arr xs → (xs.length : ℚ) ≤ n.value
  maxLength : ∀ n, s.lookup "maxLength" = some (.num n) →
    ∀ t, v = .str t → (t.length : ℚ) ≤ n.value
  minimum : ∀ n, s.lookup "minimum" = some (.num n) → ∀ x, v = .num x → n.value ≤ x.value
  maximum : ∀ n, s.lookup "maximum" = some (.num n) → ∀ x, v = .num x → x.value ≤ n.value
  exclusiveMinimum : ∀ n, s.lookup "exclusiveMinimum" = some (.num n) →
    ∀ x, v = .num x → n.value < x.value
  exclusiveMaximum : ∀ n, s.lookup "exclusiveMaximum" = some (.num n) →
    ∀ x, v = .num x → x.value < n.value

def propertyAt (s : Object) (k : String) : Option Object :=
  ((s.object? "properties").getD []).object? k

mutual

/-- The value satisfies the schema. -/
inductive Sat (root : Object) : Object → Json → Prop
  | ref {s t : Object} {v : Json} {r : String} : s.lookup "$ref" = some (.str r) →
      schemaAt root r = some t → Sat root t v → Sat root s v
  | keywords {s : Object} {v : Json} : s.lookup "$ref" = none → AnyOf root s v → Fits s v →
      (∀ m, v = .obj m → ∀ k x, (k, x) ∈ m → ∀ p, propertyAt s k = some p → Sat root p x) →
      (∀ m, v = .obj m → ∀ k x, (k, x) ∈ m → propertyAt s k = none →
        s.lookup "additionalProperties" ≠ some (.bool false)) →
      (∀ m, v = .obj m → ∀ k x, (k, x) ∈ m → propertyAt s k = none →
        ∀ p, s.lookup "additionalProperties" = some (.obj p) → Sat root p x) →
      (∀ xs, v = .arr xs → ∀ p, s.lookup "items" = some (.obj p) → ∀ x ∈ xs, Sat root p x) →
      Sat root s v

/-- The value satisfies an alternative, where there are any. -/
inductive AnyOf (root : Object) : Object → Json → Prop
  | absent {s : Object} {v : Json} : s.lookup "anyOf" = none → AnyOf root s v
  | alternative {s m : Object} {v : Json} {alts : List Json} :
      s.lookup "anyOf" = some (.arr alts) → .obj m ∈ alts → Sat root m v → AnyOf root s v

end

/-! ## Types and literals -/

section Exact

variable (hexact : ∀ n, go.float64 n = some n.value)

include hexact

theorem matchesType_iff {t : String} :
    matchesType go v t = true ↔ HasType v t := by
  constructor
  · intro h
    unfold matchesType at h
    split at h
    · exact .null
    · exact .boolean _
    · exact .string _
    · cases v with
      | num n => exact .number n
      | _ => cases h
    · cases v with
      | num n =>
        rw [number, hexact] at h
        exact .integer n (by simpa [integral] using h)
      | _ => cases h
    · exact .array _
    · exact .object _
    · cases h
  · intro h
    cases h with
    | number n => simp [matchesType, number, hexact]
    | integer n hn => simp [matchesType, number, hexact, integral, hn]
    | _ => rfl

theorem jsonEqual_num {n : Number} :
    jsonEqual go (.num n) v = true ↔ Same (.num n) v := by
  constructor
  · intro h
    cases v with
    | num m =>
      simp only [jsonEqual, number, hexact, beq_iff_eq] at h
      exact .num h
    | _ => simp [jsonEqual, number, hexact] at h
  · intro h
    cases h with
    | num heq => simp [jsonEqual, number, hexact, heq]

theorem jsonEqual_iff {l : Json} (hl : scalar l = true) :
    jsonEqual go l v = true ↔ Same l v := by
  cases l with
  | num n => exact jsonEqual_num hexact
  | arr xs => cases hl
  | obj m => cases hl
  | null =>
    constructor
    · intro h
      cases v with
      | null => exact .null
      | num m => simp [jsonEqual, number, hexact] at h
      | bool b => cases b <;> simp [jsonEqual, number, marshal] at h
      | _ => simp [jsonEqual, number, marshal, quote, enclose] at h
    · rintro ⟨⟩
      rfl
  | bool b =>
    constructor
    · intro h
      cases v with
      | bool b' =>
        cases b <;> cases b' <;>
          first
          | exact .bool _
          | simp [jsonEqual, number, marshal] at h
      | num m => simp [jsonEqual, number, hexact] at h
      | _ => cases b <;> simp [jsonEqual, number, marshal, quote, enclose] at h
    · rintro ⟨⟩
      cases b <;> rfl
  | str t =>
    constructor
    · intro h
      cases v with
      | str t' =>
        simp only [jsonEqual, number, marshal, beq_iff_eq] at h
        rw [quote_injective h]
        exact .str _
      | num m => simp [jsonEqual, number, hexact] at h
      | bool b => cases b <;> simp [jsonEqual, number, marshal, quote] at h
      | _ => simp [jsonEqual, number, marshal, quote, enclose] at h
    · rintro ⟨⟩
      simp [jsonEqual, number]

end Exact

/-! ## The keywords -/

theorem literalIssue_none (h : literalIssue go s = none) :
    (s.has "enum" = false ∧ s.has "const" = false) ∨
      ((s.has "enum" && s.has "const") = false ∧ literalsMatchType go s = true) := by
  unfold literalIssue at h
  simp only at h
  generalize (if s.has "enum" then "enum" else "const") = primary at h
  split at h
  · next hno => exact Or.inl (by simpa using hno)
  · split at h
    · cases h
    · next hboth =>
      split at h
      · cases h
      · split at h
        · cases h
        · next hmatch => exact Or.inr ⟨by simpa using hboth, by simpa using hmatch⟩

theorem Checked.literals (hs : Checked go root s) :
    (∀ l, s.lookup "const" = some l → scalar l = true) ∧
      ∀ ls, s.lookup "enum" = some (.arr ls) → ∀ l ∈ ls, scalar l = true := by
  rcases hs.native with ⟨_, hissue⟩ | ⟨_, hissue, _⟩
  · refine ⟨fun l hl => ?_, fun ls hls => ?_⟩
    · rw [refIssue_lookup hissue (by decide) (by decide)] at hl
      cases hl
    · rw [refIssue_lookup hissue (by decide) (by decide)] at hls
      cases hls
  · rcases literalIssue_none (constraintIssue_none hissue).2.1 with hno | ⟨hboth, hmatch⟩
    · refine ⟨fun l hl => ?_, fun ls hls => ?_⟩
      · rw [lookup_of_has hno.2] at hl
        cases hl
      · rw [lookup_of_has hno.1] at hls
        cases hls
    · simp only [literalsMatchType, List.all_eq_true, Bool.and_eq_true] at hmatch
      refine ⟨fun l hl => ?_, fun ls hls l hmem => ?_⟩
      · have hconst : s.has "const" = true := by simp [Object.has, hl]
        rw [hconst, Bool.and_true] at hboth
        have henum : s.array? "enum" = none := by
          simp [Object.array?, lookup_of_has hboth]
        exact (hmatch l (by simp [henum, hl])).1
      · exact (hmatch l (by simpa [Object.array?_eq_some.mpr hls] using hmem)).1

/-- `type`, `const` and `enum`. -/
structure Literal (s : Object) (v : Json) : Prop where
  type : ∀ x, s.lookup "type" = some x → ∃ t ∈ schemaTypesOf s, HasType v t
  const : ∀ l, s.lookup "const" = some l → Same l v
  enum : ∀ ls, s.lookup "enum" = some (.arr ls) → ∃ l ∈ ls, Same l v

section Exact

variable (hexact : ∀ n, go.float64 n = some n.value)

include hexact

theorem literalOk_iff (hs : Checked go root s) :
    literalOk go s v = true ↔ Literal s v := by
  obtain ⟨hconst, henum⟩ := hs.literals
  have htype : (!s.has "type" || matchesAnyType go v (schemaTypesOf s)) = true ↔
      ∀ x, s.lookup "type" = some x → ∃ t ∈ schemaTypesOf s, HasType v t := by
    cases ht : s.lookup "type" with
    | none => simp [Object.has, ht]
    | some x => simp [Object.has, ht, matchesAnyType, List.any_eq_true, matchesType_iff hexact]
  have hconst' : (s.lookup "const").all (jsonEqual go · v) = true ↔
      ∀ l, s.lookup "const" = some l → Same l v := by
    cases hl : s.lookup "const" with
    | none => simp
    | some l => simp [jsonEqual_iff hexact (hconst l hl)]
  have henum' : ((s.array? "enum").all fun ls => ls.any (jsonEqual go · v)) = true ↔
      ∀ ls, s.lookup "enum" = some (.arr ls) → ∃ l ∈ ls, Same l v := by
    simp only [← Object.array?_eq_some]
    cases hls : s.array? "enum" with
    | none => simp
    | some ls =>
      have hiff : ∀ l ∈ ls, jsonEqual go l v = true ↔ Same l v := fun l hl =>
        jsonEqual_iff hexact (henum ls (Object.array?_eq_some.mp hls) l hl)
      simp only [Option.all_some, List.any_eq_true, Option.some.injEq, forall_eq']
      exact exists_congr fun l => and_congr_right fun hl => hiff l hl
  rw [literalOk, Bool.and_eq_true, Bool.and_eq_true, htype, hconst', henum']
  exact ⟨fun h => ⟨h.1.1, h.1.2, h.2⟩, fun h => ⟨⟨h.type, h.const⟩, h.enum⟩⟩

theorem numberAt_all {k : String} {p : ℚ → Bool} :
    (numberAt go s k).all p = true ↔
      ∀ n, s.lookup k = some (.num n) → p n.value = true := by
  unfold numberAt
  cases s.lookup k with
  | none => simp
  | some v => cases v <;> simp [number, hexact]

theorem countOk_iff (count : Nat) :
    countOk go s count = true ↔
      (∀ n, s.lookup "minItems" = some (.num n) → n.value ≤ (count : ℚ)) ∧
        ∀ n, s.lookup "maxItems" = some (.num n) → (count : ℚ) ≤ n.value := by
  simp [countOk, numberAt_all hexact]

theorem lengthOk_iff {t : String} :
    lengthOk go s t = true ↔
      ∀ n, s.lookup "maxLength" = some (.num n) → (t.length : ℚ) ≤ n.value := by
  simp [lengthOk, numberAt_all hexact]

theorem boundsOk_iff {f : ℚ} :
    boundsOk go s f = true ↔
      ((∀ n, s.lookup "minimum" = some (.num n) → n.value ≤ f) ∧
        (∀ n, s.lookup "maximum" = some (.num n) → f ≤ n.value)) ∧
      (∀ n, s.lookup "exclusiveMinimum" = some (.num n) → n.value < f) ∧
        ∀ n, s.lookup "exclusiveMaximum" = some (.num n) → f < n.value := by
  simp [boundsOk, numberAt_all hexact, and_assoc]

end Exact

/-! ## A schema that is its keywords -/

/-- A member is of its property's schema, or is no property of an open object. -/
def Member (root s : Object) (k : String) (x : Json) : Prop :=
  match propertyAt s k with
  | none => closed s = false
  | some p => Sat root p x

theorem closed_iff : closed s = false ↔ s.lookup "additionalProperties" ≠ some (.bool false) := by
  constructor
  · intro h hno
    rw [closed, hno] at h
    cases h
  · intro h
    by_contra hclosed
    exact h (closed_lookup (Bool.not_eq_false _ ▸ hclosed))

/-- What an object, an array, a string or a number has to meet besides. -/
def Parts (root s : Object) (v : Json) : Prop :=
  match v with
  | .obj m =>
    (∀ t, .str t ∈ (s.array? "required").getD [] → Object.has m t = true) ∧
      ∀ e ∈ m, Member root s e.1 e.2
  | .arr xs =>
    ((∀ n, s.lookup "minItems" = some (.num n) → n.value ≤ (xs.length : ℚ)) ∧
      ∀ n, s.lookup "maxItems" = some (.num n) → (xs.length : ℚ) ≤ n.value) ∧
    ∀ p, s.object? "items" = some p → ∀ x ∈ xs, Sat root p x
  | .str t => ∀ n, s.lookup "maxLength" = some (.num n) → (t.length : ℚ) ≤ n.value
  | .num x =>
    ((∀ n, s.lookup "minimum" = some (.num n) → n.value ≤ x.value) ∧
      (∀ n, s.lookup "maximum" = some (.num n) → x.value ≤ n.value)) ∧
    (∀ n, s.lookup "exclusiveMinimum" = some (.num n) → n.value < x.value) ∧
      ∀ n, s.lookup "exclusiveMaximum" = some (.num n) → x.value < n.value
  | _ => True

theorem sat_iff (hr : Readable go root s) (href : s.string? "$ref" = none)
    (hany : s.array? "anyOf" = none) :
    Sat root s v ↔ Literal s v ∧ Parts root s v := by
  have href' : s.lookup "$ref" = none := by
    rw [Option.eq_none_iff_forall_not_mem]
    intro x hx
    obtain ⟨r, _, rfl, _⟩ := hr.ref x hx
    rw [Object.string?_eq_some.mpr hx] at href
    cases href
  have hany' : s.lookup "anyOf" = none := by
    rw [Option.eq_none_iff_forall_not_mem]
    intro x hx
    obtain ⟨alts, rfl, _⟩ := hr.anyOf x hx
    rw [Object.array?_eq_some.mpr hx] at hany
    cases hany
  constructor
  · intro h
    cases h with
    | ref hlookup =>
      rw [hlookup] at href'
      cases href'
    | keywords _ _ hfits hmembers hclosed _ hitems =>
      refine ⟨⟨hfits.type, hfits.const, hfits.enum⟩, ?_⟩
      cases v with
      | obj m =>
        refine ⟨fun t ht => ?_, fun e he => ?_⟩
        · cases hreq : s.array? "required" with
          | none => simp [hreq] at ht
          | some names =>
            rw [hreq] at ht
            exact hfits.required names (Object.array?_eq_some.mp hreq) m rfl t ht
        · unfold Member
          split
          · next hp => exact closed_iff.mpr (hclosed m rfl e.1 e.2 he hp)
          · next p hp => exact hmembers m rfl e.1 e.2 he p hp
      | arr xs =>
        exact ⟨⟨fun n hn => hfits.minItems n hn xs rfl, fun n hn => hfits.maxItems n hn xs rfl⟩,
          fun p hp => hitems xs rfl p (Object.object?_eq_some.mp hp)⟩
      | str t => exact fun n hn => hfits.maxLength n hn t rfl
      | num x =>
        exact ⟨⟨fun n hn => hfits.minimum n hn x rfl, fun n hn => hfits.maximum n hn x rfl⟩,
          fun n hn => hfits.exclusiveMinimum n hn x rfl,
          fun n hn => hfits.exclusiveMaximum n hn x rfl⟩
      | _ => trivial
  · rintro ⟨hliteral, hparts⟩
    refine .keywords href' (.absent hany') ?_ ?_ ?_ ?_ ?_
    · constructor
      · exact hliteral.type
      · exact hliteral.const
      · exact hliteral.enum
      · rintro names hnames m rfl t ht
        exact hparts.1 t (by simpa [Object.array?_eq_some.mpr hnames] using ht)
      · rintro n hn xs rfl
        exact hparts.1.1 n hn
      · rintro n hn xs rfl
        exact hparts.1.2 n hn
      · rintro n hn t rfl
        exact hparts n hn
      · rintro n hn x rfl
        exact hparts.1.1 n hn
      · rintro n hn x rfl
        exact hparts.1.2 n hn
      · rintro n hn x rfl
        exact hparts.2.1 n hn
      · rintro n hn x rfl
        exact hparts.2.2 n hn
    · rintro m rfl k x hm p hp
      have hmember := hparts.2 (k, x) hm
      simp only [Member, hp] at hmember
      exact hmember
    · rintro m rfl k x hm hp
      have hmember := hparts.2 (k, x) hm
      simp only [Member, hp] at hmember
      exact closed_iff.mp hmember
    · rintro m rfl k x hm hp p hadd
      cases hr.additionalProperties _ hadd
    · rintro xs rfl p hp
      exact hparts.2 p (Object.object?_eq_some.mpr hp)

theorem sat_ref {r : String} {t : Object} (href : s.string? "$ref" = some r)
    (hat : schemaAt root r = some t) : Sat root s v ↔ Sat root t v := by
  rw [Object.string?_eq_some] at href
  constructor
  · intro h
    cases h with
    | ref hlookup hat' ht =>
      rw [href] at hlookup
      cases hlookup
      rw [hat] at hat'
      cases hat'
      exact ht
    | keywords hno =>
      rw [href] at hno
      cases hno
  · exact fun ht => .ref href hat ht

theorem sat_anyOf (hs : Checked go root s) (href : s.string? "$ref" = none) {alts : List Json}
    (hany : s.array? "anyOf" = some alts) :
    Sat root s v ↔ ∃ m, .obj m ∈ alts ∧ Sat root m v := by
  rw [Object.array?_eq_some] at hany
  constructor
  · intro h
    cases h with
    | ref hlookup =>
      rw [Object.string?_eq_some.mpr hlookup] at href
      cases href
    | keywords _ halts =>
      cases halts with
      | absent hno =>
        rw [hany] at hno
        cases hno
      | alternative hany' hm hsat =>
        rw [hany] at hany'
        cases hany'
        exact ⟨_, hm, hsat⟩
  · rintro ⟨m, hm, hsat⟩
    have halone : ∀ k, k ≠ "anyOf" → annotationKeywords.contains k = false →
        s.lookup k = none := by
      intro k hk hann
      rcases hs.native with ⟨_, hissue⟩ | ⟨_, hissue, _⟩
      · rw [refIssue_lookup hissue (by decide) (by decide)] at hany
        cases hany
      · have hissue' := (constraintIssue_none hissue).1
        have hhas : s.has "anyOf" = true := by simp [Object.has, hany]
        rw [anyOfIssue, hhas, Bool.true_and] at hissue'
        have hsib : hasValidationSiblings s "anyOf" false = false := by
          by_contra hsib
          rw [Bool.not_eq_false] at hsib
          rw [hsib] at hissue'
          cases hissue'
        exact lookup_of_siblings hsib hk rfl hann
    have hprop : ∀ k, propertyAt s k = none := by
      intro k
      simp [propertyAt, Object.object?, halone "properties" (by decide) (by decide)]
    have hempty : ∀ k, k ≠ "anyOf" → annotationKeywords.contains k = false →
        ∀ x, s.lookup k ≠ some x := by
      intro k hk hann x hx
      rw [halone k hk hann] at hx
      cases hx
    have hfits : Fits s v := by
      constructor
      all_goals
        intro x hx
        exact absurd hx (hempty _ (by decide) (by decide) _)
    refine .keywords (halone _ (by decide) (by decide)) (.alternative hany hm hsat) hfits
      ?_ ?_ ?_ ?_
    · intro _ _ k x _ p hp
      rw [hprop k] at hp
      cases hp
    · exact fun _ _ _ _ _ _ => hempty _ (by decide) (by decide) _
    · exact fun _ _ _ _ _ _ p hp => absurd hp (hempty _ (by decide) (by decide) _)
    · exact fun _ _ p hp => absurd hp (hempty _ (by decide) (by decide) _)

/-! ## What a run tells -/

/-- A true answer is right, and so is a false one of a run that ended within
the limits, as it then was all along. -/
def Tells (P : Prop) (c : Check) (r : Run (Bool × Check)) : Prop :=
  ∀ b c', r = .ok (b, c') →
    (b = true → P) ∧ (c'.stopped = false → c.stopped = false ∧ (b = true ↔ P))

section Tells

variable {P Q : Prop} {c : Check} {r : Run (Bool × Check)}

theorem tells_ok {b : Bool} (h : b = true ↔ P) : Tells P c (.ok (b, c)) := by
  rintro _ _ ⟨⟩
  exact ⟨h.mp, fun hc => ⟨hc, h⟩⟩

theorem Tells.of_iff (h : Tells P c r) (hiff : Q ↔ P) :
    Tells Q c r := by
  intro b c' hr
  obtain ⟨h1, h2⟩ := h b c' hr
  exact ⟨fun hb => hiff.mpr (h1 hb), fun hc' => ⟨(h2 hc').1, (h2 hc').2.trans hiff.symm⟩⟩

theorem Tells.and {next : Bool × Check → Run (Bool × Check)} (h : Tells P c r)
    (htrue : ∀ c, Tells Q c (next (true, c)))
    (hfalse : ∀ c, next (false, c) = .ok (false, c)) : Tells (P ∧ Q) c (r >>= next) := by
  intro b c'' hrun
  obtain ⟨⟨b', c'⟩, hr, hnext⟩ := Fuel.bind_eq_ok.mp hrun
  obtain ⟨h1, h2⟩ := h b' c' hr
  cases b' with
  | true =>
    obtain ⟨h3, h4⟩ := htrue c' b c'' hnext
    refine ⟨fun hb => ⟨h1 rfl, h3 hb⟩, fun hc'' => ?_⟩
    obtain ⟨hc', hiff⟩ := h4 hc''
    exact ⟨(h2 hc').1, hiff.trans ⟨fun hq => ⟨h1 rfl, hq⟩, And.right⟩⟩
  | false =>
    rw [hfalse] at hnext
    cases hnext
    refine ⟨fun hb => (by cases hb), fun hc' => ?_⟩
    obtain ⟨hc, hiff⟩ := h2 hc'
    exact ⟨hc, ⟨fun hb => (by cases hb), fun hpq => hiff.mpr hpq.1⟩⟩

theorem Tells.or {next : Bool × Check → Run (Bool × Check)} (h : Tells P c r)
    (hfalse : ∀ c, Tells Q c (next (false, c)))
    (htrue : ∀ c, next (true, c) = .ok (true, c)) : Tells (P ∨ Q) c (r >>= next) := by
  intro b c'' hrun
  obtain ⟨⟨b', c'⟩, hr, hnext⟩ := Fuel.bind_eq_ok.mp hrun
  obtain ⟨h1, h2⟩ := h b' c' hr
  cases b' with
  | true =>
    rw [htrue] at hnext
    cases hnext
    refine ⟨fun _ => Or.inl (h1 rfl), fun hc' => ⟨(h2 hc').1, ?_⟩⟩
    exact ⟨fun _ => Or.inl (h1 rfl), fun _ => rfl⟩
  | false =>
    obtain ⟨h3, h4⟩ := hfalse c' b c'' hnext
    refine ⟨fun hb => Or.inr (h3 hb), fun hc'' => ?_⟩
    obtain ⟨hc', hiff⟩ := h4 hc''
    obtain ⟨hc, hno⟩ := h2 hc'
    refine ⟨hc, hiff.trans ⟨Or.inr, fun hpq => ?_⟩⟩
    rcases hpq with hp | hq
    · exact absurd (hno.mpr hp) (by decide)
    · exact hq

theorem tryAlternatives_tells {check : Object → Check → Run (Bool × Check)}
    {P : Object → Prop} {alts : List Json}
    (h : ∀ m, .obj m ∈ alts → ∀ c, Tells (P m) c (check m c)) (c : Check) :
    Tells (∃ m, .obj m ∈ alts ∧ P m) c (tryAlternatives check alts c) := by
  induction alts generalizing c with
  | nil => exact tells_ok (by simp)
  | cons alt alts ih =>
    have hrest := ih fun m hm => h m (List.mem_cons_of_mem _ hm)
    rw [tryAlternatives]
    split
    · next halt =>
      refine (hrest c).of_iff ⟨?_, ?_⟩
      · rintro ⟨m, hm, hp⟩
        rcases List.mem_cons.mp hm with rfl | hm
        · cases halt
        · exact ⟨m, hm, hp⟩
      · rintro ⟨m, hm, hp⟩
        exact ⟨m, List.mem_cons_of_mem _ hm, hp⟩
    · next m halt =>
      rw [Json.object?_eq_some] at halt
      subst halt
      refine Tells.of_iff (Tells.or (h m List.mem_cons_self c) hrest fun _ => rfl) ⟨?_, ?_⟩
      · rintro ⟨m', hm', hp⟩
        rcases List.mem_cons.mp hm' with heq | hm'
        · cases heq
          exact Or.inl hp
        · exact Or.inr ⟨m', hm', hp⟩
      · rintro (hp | ⟨m', hm', hp⟩)
        · exact ⟨m, List.mem_cons_self, hp⟩
        · exact ⟨m', List.mem_cons_of_mem _ hm', hp⟩

theorem checkItems_tells {check : Json → Check → Run (Bool × Check)} {P : Json → Prop}
    (h : ∀ x c, Tells (P x) c (check x c)) (xs : List Json) (c : Check) :
    Tells (∀ x ∈ xs, P x) c (checkItems check xs c) := by
  induction xs generalizing c with
  | nil => exact tells_ok (by simp)
  | cons x xs ih =>
    exact Tells.of_iff (Tells.and (h x c) ih fun _ => rfl) List.forall_mem_cons

theorem checkMembers_tells {check : Object → Json → Check → Run (Bool × Check)}
    (h : ∀ k p, propertyAt s k = some p → ∀ x c, Tells (Sat root p x) c (check p x c))
    (m : Object) (c : Check) :
    Tells (∀ e ∈ m, Member root s e.1 e.2) c (checkMembers check s m c) := by
  induction m generalizing c with
  | nil => exact tells_ok (by simp)
  | cons e m ih =>
    obtain ⟨k, x⟩ := e
    rw [List.forall_mem_cons, Member, checkMembers]
    cases hp : propertyAt s k with
    | none =>
      rw [propertyAt] at hp
      simp only [hp]
      cases hclosed : closed s with
      | true => exact tells_ok (by simp)
      | false => exact (ih c).of_iff (by simp)
    | some p =>
      have hcheck := h k p hp x c
      rw [propertyAt] at hp
      simp only [hp]
      exact Tells.and hcheck ih fun _ => rfl

theorem requiredOk_iff {val : Object} {names : List Json} {b : Bool}
    (hb : requiredOk val names = .ok b) :
    b = true ↔ ∀ t, .str t ∈ names → val.has t = true := by
  induction names with
  | nil =>
    cases hb
    simp
  | cons r rest ih =>
    rw [requiredOk] at hb
    split at hb
    · cases hb
    · next t hr =>
      rw [Json.string?_eq_some] at hr
      subst hr
      split at hb
      · next hhas =>
        rw [ih hb]
        refine ⟨fun h t' ht' => ?_, fun h t' ht' => h t' (List.mem_cons_of_mem _ ht')⟩
        rcases List.mem_cons.mp ht' with heq | ht'
        · cases heq
          exact hhas
        · exact h t' ht'
      · next hhas =>
        cases hb
        refine ⟨fun hf => (by cases hf), fun h => absurd (h t List.mem_cons_self) hhas⟩

end Tells

/-! ## The check -/

section Agreement

variable (hexact : ∀ n, go.float64 n = some n.value) (h : Accepted go root)
  {exceeds : Nat → Nat → Bool}

include hexact h

theorem validKeywords_tells (hs : Checked go root s)
    {check : Object → Json → Check → Run (Bool × Check)}
    (hcheck : ∀ p, Below root p → ∀ x c, Tells (Sat root p x) c (check p x c)) (c : Check) :
    Tells (Literal s v ∧ Parts root s v) c (validKeywords go check s v c) := by
  unfold validKeywords
  split
  · next hno =>
    have hliteral : ¬ Literal s v := by
      rw [← literalOk_iff hexact hs]
      simpa using hno
    exact tells_ok (by simp [hliteral])
  · next hyes =>
    have hliteral : Literal s v := by
      rw [← literalOk_iff hexact hs]
      simpa using hyes
    refine Tells.of_iff (P := Parts root s v) ?_ (and_iff_right hliteral)
    cases v with
    | obj val =>
      obtain ⟨b, hb⟩ := requiredOk_total val (hs.readable h).required_strings
      have hiff := requiredOk_iff hb
      simp only [hb, Bind.bind, Except.bind, Parts]
      cases b with
      | false => exact tells_ok (by simp [← hiff])
      | true =>
        have hmembers := checkMembers_tells (fun k p hp => hcheck p (hs.property hp))
          (go.range c.steps val) c
        refine Tells.of_iff hmembers ?_
        rw [and_iff_right (hiff.mp rfl)]
        exact forall_congr' fun e =>
          imp_congr_left (go.range_perm c.steps val).mem_iff.symm
    | arr xs =>
      have hcount := countOk_iff (s := s) hexact xs.length
      simp only [Parts]
      split
      · next hno =>
        rw [← hcount]
        exact tells_ok (by simp_all)
      · next hyes =>
        rw [← hcount, and_iff_right (by simpa using hyes)]
        split
        · next items hi =>
          exact (checkItems_tells (hcheck items (hs.item hi)) xs c).of_iff (by simp [hi])
        · next hi => exact tells_ok (by simp [hi])
    | str t => exact tells_ok (lengthOk_iff hexact)
    | num x =>
      refine tells_ok ?_
      simp only [number, hexact, Option.all_some]
      exact boundsOk_iff hexact
    | null => exact tells_ok (by simp [number, Parts])
    | bool b => exact tells_ok (by simp [number, Parts])

theorem valid_tells {depth : Nat} {c : Check} (hs : Below root s) :
    Tells (Sat root s v) c (valid go exceeds root n s v depth c) := by
  induction n generalizing s v depth c with
  | zero => exact fun b c' hr => (by cases hr)
  | succ n ih =>
    have hchecked := h.checked hs
    suffices hmeet : Tells (Sat root s v) (c.meet s)
        (valid go exceeds root (n + 1) s v depth c) from hmeet
    rw [valid]
    split
    · -- Past a limit: the answer is false, and the check was stopped.
      rintro _ _ ⟨⟩
      exact ⟨fun hb => (by cases hb), fun hc => (by cases hc)⟩
    · split
      · next r href =>
        obtain ⟨t, hat, ht⟩ := hchecked.target h href
        rw [hat]
        exact (ih ht).of_iff (sat_ref href hat)
      · next href =>
        split
        · next alts hany =>
          exact (tryAlternatives_tells
            (fun m hm c => ih (hchecked.alternative hany hm)) _).of_iff
            (sat_anyOf hchecked href hany)
        · next hany =>
          exact (validKeywords_tells hexact h hchecked (fun p hp x c => ih hp) _).of_iff
            (sat_iff (hchecked.readable h) href hany)

end Agreement

theorem valid_fuel (h : Accepted go root) {depth : Nat} {c : Check} (hs : Below root s)
    (hn : maxValidationDepth + 2 ≤ n + depth) (hdepth : depth ≤ maxValidationDepth + 1) :
    valid go limits root n s v depth c ≠ .error .fuel := by
  induction n generalizing s v depth c with
  | zero => omega
  | succ n ih =>
    have hchecked := h.checked hs
    rw [valid]
    split
    · exact fun hp => (by cases hp)
    · next hlimits =>
      have hle : depth ≤ maxValidationDepth := by
        simp only [limits, Bool.or_eq_true, decide_eq_true_eq, not_or, not_lt] at hlimits
        exact hlimits.2
      split
      · next r href =>
        obtain ⟨t, hat, ht⟩ := hchecked.target h href
        rw [hat]
        exact ih ht (by omega) (by omega)
      · split
        · next alts hany =>
          exact tryAlternatives_total
            (fun m hm c => ih (hchecked.alternative hany hm) (by omega) (by omega)) _
        · exact validKeywords_total h hchecked
            (fun p hp x c => ih hp (by omega) (by omega)) _

/-! ## What it means that a check was stopped -/

/-- A run that ends in `Q` began in it, and the other run ends there as well. -/
def Follows (Q : Check → Prop) (c : Check) (r r' : Run (Bool × Check)) : Prop :=
  ∀ b c', r = .ok (b, c') → Q c' → Q c ∧ r' = .ok (b, c')

section Follows

variable {Q : Check → Prop} {c : Check} {r r' : Run (Bool × Check)}

theorem follows_ok (b : Bool) : Follows Q c (.ok (b, c)) (.ok (b, c)) := by
  rintro _ _ ⟨⟩ hq
  exact ⟨hq, rfl⟩

theorem Follows.bind {next next' : Bool × Check → Run (Bool × Check)} (h : Follows Q c r r')
    (hnext : ∀ b c, Follows Q c (next (b, c)) (next' (b, c))) :
    Follows Q c (r >>= next) (r' >>= next') := by
  intro b c' hrun hq
  obtain ⟨⟨b', c''⟩, hr, hn⟩ := Fuel.bind_eq_ok.mp hrun
  obtain ⟨hq', hn'⟩ := hnext b' c'' b c' hn hq
  obtain ⟨hq'', hr'⟩ := h b' c'' hr hq'
  exact ⟨hq'', by rw [hr']; exact hn'⟩

theorem tryAlternatives_follows {check check' : Object → Check → Run (Bool × Check)}
    (h : ∀ m c, Follows Q c (check m c) (check' m c)) (alts : List Json) (c : Check) :
    Follows Q c (tryAlternatives check alts c) (tryAlternatives check' alts c) := by
  induction alts generalizing c with
  | nil => exact follows_ok false
  | cons alt alts ih =>
    simp only [tryAlternatives]
    split
    · exact ih c
    · refine (h _ c).bind fun b c => ?_
      cases b with
      | true => exact follows_ok true
      | false => exact ih c

theorem checkItems_follows {check check' : Json → Check → Run (Bool × Check)}
    (h : ∀ x c, Follows Q c (check x c) (check' x c)) (xs : List Json) (c : Check) :
    Follows Q c (checkItems check xs c) (checkItems check' xs c) := by
  induction xs generalizing c with
  | nil => exact follows_ok true
  | cons x xs ih =>
    refine (h x c).bind fun b c => ?_
    cases b with
    | true => exact ih c
    | false => exact follows_ok false

theorem checkMembers_follows {check check' : Object → Json → Check → Run (Bool × Check)}
    (h : ∀ p x c, Follows Q c (check p x c) (check' p x c)) (m : Object) (c : Check) :
    Follows Q c (checkMembers check s m c) (checkMembers check' s m c) := by
  induction m generalizing c with
  | nil => exact follows_ok true
  | cons e m ih =>
    simp only [checkMembers]
    split
    · split
      · exact follows_ok false
      · exact ih c
    · refine (h _ _ c).bind fun b c => ?_
      cases b with
      | true => exact ih c
      | false => exact follows_ok false

theorem validKeywords_follows {check check' : Object → Json → Check → Run (Bool × Check)}
    (h : ∀ p x c, Follows Q c (check p x c) (check' p x c)) (c : Check) :
    Follows Q c (validKeywords go check s v c) (validKeywords go check' s v c) := by
  unfold validKeywords
  split
  · exact follows_ok false
  · split
    · cases requiredOk _ ((s.array? "required").getD []) with
      | error e => rintro b c' ⟨⟩
      | ok b =>
        cases b with
        | true => exact checkMembers_follows h _ c
        | false => exact follows_ok false
    · split
      · exact follows_ok false
      · split
        · exact checkItems_follows (h _) _ c
        · exact follows_ok true
    · exact follows_ok _
    · exact follows_ok _

/-- `Q` is lost where a limit stops the check, and otherwise a call changes nothing that
it is about. -/
theorem valid_follows {exceeds exceeds' : Nat → Nat → Bool}
    (hmeet : ∀ (c : Check) s, Q (c.meet s) → Q c)
    (hstop : ∀ (c : Check) s depth, exceeds (c.meet s).steps depth = true → ¬ Q (c.meet s).stop)
    (hle : ∀ steps depth, exceeds steps depth = false → exceeds' steps depth = false)
    {depth : Nat} (c : Check) :
    Follows Q c (valid go exceeds root n s v depth c) (valid go exceeds' root n s v depth c) := by
  induction n generalizing s v depth c with
  | zero => rintro b c' ⟨⟩
  | succ n ih =>
    suffices hfollows : Follows Q (c.meet s) (valid go exceeds root (n + 1) s v depth c)
        (valid go exceeds' root (n + 1) s v depth c) from fun b c' hr hq =>
      ⟨hmeet c s (hfollows b c' hr hq).1, (hfollows b c' hr hq).2⟩
    simp only [valid]
    cases hexceeds : exceeds (c.meet s).steps depth with
    | true =>
      rintro b c' ⟨⟩ hq
      exact absurd hq (hstop c s depth hexceeds)
    | false =>
      rw [hle _ _ hexceeds]
      simp only [Bool.false_eq_true, if_false]
      split
      · split
        · exact follows_ok false
        · exact ih (c.meet s)
      · split
        · exact tryAlternatives_follows (fun _ => ih) _ _
        · exact validKeywords_follows (fun _ _ => ih) _

end Follows

/-- A check was stopped unless it is, call by call, the check without limits. -/
theorem stopped_eq_false_iff {s : Object} {c : Check} {b : Bool}
    (h : check go root s v = .ok (b, c)) :
    c.stopped = false ↔
      valid go noLimits root (maxValidationDepth + 2) s v 0 {} = .ok (b, c) := by
  refine ⟨fun hc => ?_, fun hun => ?_⟩
  · have hsame : Follows (fun c => c.stopped = false) {} (check go root s v)
        (valid go noLimits root (maxValidationDepth + 2) s v 0 {}) :=
      valid_follows (fun _ _ hq => hq) (fun _ _ _ _ hq => by cases hq) (fun _ _ _ => rfl) {}
    exact (hsame b c h hc).2
  · have hnever : Follows (fun c => c.stopped = true) {}
        (valid go noLimits root (maxValidationDepth + 2) s v 0 {})
        (valid go noLimits root (maxValidationDepth + 2) s v 0 {}) :=
      valid_follows (fun _ _ hq => hq) (fun _ _ _ hex => by cases hex) (fun _ _ hno => hno) {}
    cases hc : c.stopped with
    | false => rfl
    | true => cases (hnever b c hun hc).1

/-! ## The answer of a check -/

/-- The check answers, and its answer is that of the declarative reading: true
only for a value that satisfies the schema, and for every such value where it
ran into neither of its limits. -/
theorem check_agrees {go : Go} {n : Nat} {rf : Json} {root : Object}
    (h : prepare go n rf = .ok (.ok (some root)))
    (hexact : ∀ n, go.float64 n = some n.value) (v : Json) :
    ∃ b c, check go root root v = .ok (b, c) ∧ validateSchema go root root v = .ok b ∧
      (b = true → Sat root root v) ∧
      (c.stopped = false → (b = true ↔ Sat root root v)) := by
  have hacc := accepted_of_prepare h
  have htells : Tells (Sat root root v) {} (check go root root v) :=
    valid_tells hexact hacc (.refl root)
  cases hcheck : check go root root v with
  | error e =>
    cases e with
    | panic => exact absurd hcheck (valid_total hacc (.refl root))
    | fuel =>
      exact absurd hcheck (valid_fuel hacc (.refl root) (Nat.le_refl _) (Nat.zero_le _))
  | ok r =>
    obtain ⟨b, c⟩ := r
    obtain ⟨h1, h2⟩ := htells b c hcheck
    refine ⟨b, c, rfl, ?_, h1, fun hc => (h2 hc).2⟩
    rw [validateSchema, hcheck]
    rfl

/-- A list whose elements are a list and a number. -/
def listAnswer : Json := .obj [("p", .arr [.arr [.arr []], .num ⟨"4", 4⟩])]

/-- The answer passes, within the limits. -/
theorem listAnswer_passes :
    ∃ b c, check plainGo listSchema listSchema listAnswer = .ok (b, c) ∧
      b = true ∧ c.stopped = false ∧ Sat listSchema listSchema listAnswer := by
  obtain ⟨b, c, hcheck, _, hsat, _⟩ :=
    check_agrees listSchema_accepted (fun _ => rfl) listAnswer
  have hpasses : (check plainGo listSchema listSchema listAnswer).map
      (fun r => (r.1, r.2.stopped)) = .ok (true, false) := by decide +kernel
  rw [hcheck] at hpasses
  obtain ⟨rfl, hstopped⟩ := Prod.mk.inj (Except.ok.inj hpasses)
  exact ⟨true, c, hcheck, rfl, hstopped, hsat rfl⟩

end LocalBase.StructuredOutput
