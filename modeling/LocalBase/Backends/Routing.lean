import LocalBase.Backends.Assess

/-!
# Routing

For each platform a rule lists backends by id or by engine, in the order in
which automatic selection tries them. It takes the first that may be picked for
the model and plausibly runs one of its variants.

Registered backends can be on the list, by their engine. They are looked at and
passed over.
-/

namespace LocalBase.Backends

/-! ## Preference -/

/-- The list of the first rule for a host. -/
def Registry.prefer (r : Registry) (h : Host) : List String :=
  ((r.rules.find? fun rule => (rule.os = h.os || rule.os = "*") &&
    (rule.arch = h.arch || rule.arch = "*")).map (·.prefer)).getD []

/-- The engine that an entry of a rule is for. -/
def engineOf (entry : String) : Option String :=
  if "engine:".toList.isPrefixOf entry.toList then some (String.ofList (entry.toList.drop 7))
  else none

def addNew (out : List String) (id : String) : List String := if id ∈ out then out else out ++ [id]

/-- The backends that one entry of a rule adds. -/
def Registry.preferEntry (r : Registry) (out : List String) (entry : String) : List String :=
  match engineOf entry with
  | some engine => ((r.all.filter (·.engine = engine)).map (·.id)).foldl addNew out
  | none => if (r.get entry).isSome then addNew out entry else out

/-- `Preference`. -/
def Registry.preference (r : Registry) (h : Host) : List String :=
  (r.prefer h).foldl r.preferEntry []

/-! ## Recommend -/

structure Recommendation where
  backendID : String
  variantID : String
  options : List Finding

section
variable (m : Model) (ins : Inspections) (h : Host)

def rated (d : Definition) (v : Variant) : Finding :=
  assess m (ins.inspected v) d h (ins.missing v)

/-- A variant's finding that automatic selection may choose. -/
def choosable (f : Finding) : Bool := f.rating.isPlausible && f.drops.isEmpty

/-- The variant chosen with a backend. -/
def pick (d : Definition) : Option String :=
  ((m.variants.map (rated m ins h d)).find? choosable).map (·.variantID)

def Host.skips (h : Host) (id : String) : Bool := h.install id = some .missing || h.unpinned id

/-- One backend of the preference, as `Get` answers it: `none` where that is nil
and is asked whether it is automatic. -/
def look (id : String) (d : Option Definition) : Option (Option String) :=
  if h.skips id then some none
  else d.map fun d => if d.automaticFor m.tasks then pick m ins h d else none

/-- The backend and the variant that are chosen, empty when there are none. -/
def Registry.choose (r : Registry) : List String → Option (String × String)
  | [] => some ("", "")
  | id :: ids =>
    match look m ins h id (r.get id) with
    | none => none
    | some (some variantID) => some (id, variantID)
    | some none => r.choose ids

def better (a b : Finding) : Bool :=
  if a.rating.rank ≠ b.rating.rank then b.rating.rank < a.rating.rank
  else a.missing.length < b.missing.length

def bestOf (best : Option Finding) : List Finding → Option Finding
  | [] => best
  | f :: fs => bestOf (if best.all (better f) then some f else best) fs

/-- A backend with its best variant: `none` where there is no variant to take. -/
def option (backendID variantID : String) (d : Definition) : Option Finding :=
  bestOf none ((m.variants.map (rated m ins h d)).filter fun f =>
    !(d.id = backendID && f.variantID ≠ variantID))

def options (backendID variantID : String) : List Definition → Option (List Finding)
  | [] => some []
  | d :: ds => (option m ins h backendID variantID d).bind fun f =>
    (options backendID variantID ds).map fun fs => f :: fs

end

/-- What is recommended comes first, then by the preference, then the rest. -/
def order (chosen : String) (preference : List String) (f : Finding) : Nat :=
  if f.backendID = chosen then 0 else preference.idxOf f.backendID + 1

def precedes (chosen : String) (preference : List String) (a b : Finding) : Bool :=
  if a.rating.rank ≠ b.rating.rank ∧ a.backendID ≠ chosen ∧ b.backendID ≠ chosen then
    b.rating.rank < a.rating.rank
  else order chosen preference a < order chosen preference b

def sortOptions (chosen : String) (preference : List String) (fs : List Finding) : List Finding :=
  fs.insertionSort fun a b => precedes chosen preference b a = false

/-- `Recommend`, in a registry that stays as it is. -/
def Registry.recommend (r : Registry) (m : Model) (h : Host) (ins : Inspections) :
    Option Recommendation :=
  (r.choose m ins h (r.preference h)).bind fun c =>
    (options m ins h c.1 c.2 r.all).map fun fs =>
      ⟨c.1, c.2, sortOptions c.1 (r.preference h) fs⟩

variable {r r' : Registry} {m : Model} {ins : Inspections} {h h' : Host} {d : Definition}

/-! ## Every backend has a best variant -/

theorem bestOf_isSome {best : Option Finding} {fs : List Finding}
    (hf : best.isSome = true ∨ fs ≠ []) : (bestOf best fs).isSome = true := by
  induction fs generalizing best with
  | nil => exact hf.resolve_right fun hne => hne rfl
  | cons f fs ih =>
    refine ih (.inl ?_)
    split
    · rfl
    · next hno =>
      cases best with
      | none => exact absurd rfl hno
      | some b => rfl

/-- A choice of one of the model's variants, or none. -/
def Offered (m : Model) (ins : Inspections) (backendID variantID : String) : Prop :=
  backendID = "" ∨ ∃ v ∈ m.variants, (ins.inspected v).id = variantID

theorem option_isSome {backendID variantID : String} (ho : Offered m ins backendID variantID)
    (hd : d.id ≠ "") : (option m ins h backendID variantID d).isSome = true := by
  refine bestOf_isSome (.inr ?_)
  by_cases hid : d.id = backendID
  · obtain rfl | ⟨v, hv, hvid⟩ := ho
    · exact absurd hid hd
    · refine List.ne_nil_of_mem (a := rated m ins h d v) (List.mem_filter.mpr
        ⟨List.mem_map_of_mem hv, ?_⟩)
      simp [rated, hvid]
  · obtain ⟨v, hv⟩ := List.exists_mem_of_ne_nil _ m.some_variant
    refine List.ne_nil_of_mem (a := rated m ins h d v) (List.mem_filter.mpr
      ⟨List.mem_map_of_mem hv, ?_⟩)
    simp [hid]

theorem options_isSome {backendID variantID : String} (ho : Offered m ins backendID variantID)
    {ds : List Definition} (hds : ∀ d ∈ ds, d.id ≠ "") :
    (options m ins h backendID variantID ds).isSome = true := by
  induction ds with
  | nil => rfl
  | cons d ds ih =>
    obtain ⟨f, hf⟩ := Option.isSome_iff_exists.mp
      (option_isSome (h := h) ho (hds d List.mem_cons_self))
    obtain ⟨fs, hfs⟩ := Option.isSome_iff_exists.mp
      (ih fun e he => hds e (List.mem_cons_of_mem _ he))
    rw [options, hf, hfs]
    rfl

/-! ## The preference -/

theorem mem_addNew {out : List String} {id x : String} :
    x ∈ addNew out id ↔ x ∈ out ∨ x = id := by
  unfold addNew
  split
  · next hmem =>
    constructor
    · exact .inl
    · rintro (hx | rfl)
      · exact hx
      · exact hmem
  · rw [List.mem_append, List.mem_singleton]

theorem mem_foldl_addNew {ids out : List String} {x : String} :
    x ∈ ids.foldl addNew out ↔ x ∈ out ∨ x ∈ ids := by
  induction ids generalizing out with
  | nil => simp
  | cons id ids ih => rw [List.foldl_cons, ih, mem_addNew, List.mem_cons, or_assoc]

theorem preferEntry_registered {out : List String} {entry : String}
    (hout : ∀ id ∈ out, (r.get id).isSome = true) :
    ∀ id ∈ r.preferEntry out entry, (r.get id).isSome = true := by
  intro id hid
  unfold Registry.preferEntry at hid
  split at hid
  · obtain hid | hid := mem_foldl_addNew.mp hid
    · exact hout id hid
    · obtain ⟨d, hd, rfl⟩ := List.mem_map.mp hid
      rw [Registry.get_of_mem (mem_all.mp (List.mem_filter.mp hd).1)]
      rfl
  · split at hid
    · next hget =>
      obtain hid | rfl := mem_addNew.mp hid
      · exact hout id hid
      · exact hget
    · exact hout id hid

theorem preference_registered : ∀ id ∈ r.preference h, (r.get id).isSome = true := by
  have hfold : ∀ (entries out : List String), (∀ id ∈ out, (r.get id).isSome = true) →
      ∀ id ∈ entries.foldl r.preferEntry out, (r.get id).isSome = true := by
    intro entries
    induction entries with
    | nil => exact fun out hout => hout
    | cons entry entries ih => exact fun out hout => ih _ (preferEntry_registered hout)
  exact hfold _ [] fun id hid => by cases hid

end LocalBase.Backends
