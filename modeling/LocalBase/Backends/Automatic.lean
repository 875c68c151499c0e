import LocalBase.Backends.Routing

/-!
# What is chosen automatically

`firstAutomatic` says what automatic selection is for, over built-in backends
alone: the first that is ready here, with the first variant that it runs.
`Recommend` comes to the same in any registry that has these built-ins, so what
a person registered makes no difference to it.
-/

namespace LocalBase.Backends

/-! ## The choice -/

/-- A backend that may be picked for a model, and can run here or be installed as
a pinned package. -/
def Ready (m : Model) (h : Host) (d : Definition) : Bool :=
  d.automaticFor m.tasks &&
    (h.install d.id = some .installed || h.install d.id = some .installable) && !h.unpinned d.id

/-- A variant that a backend plausibly runs, with all that the model needs. -/
def Runs (m : Model) (ins : Inspections) (h : Host) (d : Definition) (v : Variant) : Bool :=
  (rated m ins h d v).rating.isPlausible && m.required.all d.supports

/-- The first that is ready and runs a variant, with the first such variant. -/
def firstAutomatic (ready : Definition → Bool) (runs : Definition → Variant → Bool)
    (variants : List Variant) (inOrder : List Definition) : Option (Definition × Variant) :=
  inOrder.findSome? fun d =>
    if ready d then (variants.find? (runs d)).map fun v => (d, v) else none

/-- The built-in backends in the order of the preference. -/
def Registry.builtInOrder (r : Registry) (h : Host) : List Definition :=
  ((r.preference h).filterMap r.get).filter (·.builtIn)

/-- The ids of the answer, empty when there is none. -/
def answered (ins : Inspections) (chosen : Option (Definition × Variant)) : String × String :=
  (chosen.map fun c => (c.1.id, (ins.inspected c.2).id)).getD ("", "")

/-- A host as `NewHost` describes it: each built-in backend has an install state. -/
def Describes (h : Host) (r : Registry) : Prop :=
  ∀ d ∈ r.defs, d.builtIn = true → (h.install d.id).isSome = true

variable {r r' : Registry} {m : Model} {ins : Inspections} {h h' : Host} {d : Definition}
  {v : Variant}

theorem choosable_rated : choosable (rated m ins h d v) = Runs m ins h d v := by
  rw [choosable, Runs, Bool.eq_iff_iff, Bool.and_eq_true, Bool.and_eq_true]
  refine and_congr_right fun hp => ?_
  have hdrops : (rated m ins h d v).drops = m.drops d := assess_drops hp
  rw [hdrops, Model.drops, List.isEmpty_iff, List.filter_eq_nil_iff, List.all_eq_true]
  exact forall₂_congr fun need _ => by simp

theorem pick_eq : pick m ins h d =
    (m.variants.find? (Runs m ins h d)).map fun v => (ins.inspected v).id := by
  have hsame : choosable ∘ rated m ins h d = Runs m ins h d := funext fun v => choosable_rated
  rw [pick, List.find?_map, hsame, Option.map_map]
  exact congrArg (Option.map · _) (funext fun v => assess_variantID)

/-- What `Recommend` asks before it rates variants. -/
def Allowed (m : Model) (h : Host) (d : Definition) : Bool :=
  d.automaticFor m.tasks && !h.skips d.id

theorem Allowed.builtIn (ha : Allowed m h d = true) : d.builtIn = true := by
  rw [Allowed, Bool.and_eq_true] at ha
  exact Definition.automaticFor_builtIn ha.1

/-- Where the host has the install state, what it does not skip is installed or
installable, and pinned. -/
theorem allowed_eq_ready (hh : (h.install d.id).isSome = true) : Allowed m h d = Ready m h d := by
  obtain ⟨state, hstate⟩ := Option.isSome_iff_exists.mp hh
  unfold Allowed Ready Host.skips
  rw [hstate]
  cases d.automaticFor m.tasks <;> cases h.unpinned d.id <;> cases state <;> rfl

/-- A backend that is registered: only one that is allowed is asked about
variants. -/
theorem look_some : look m ins h d.id (some d) =
    some (if Allowed m h d then pick m ins h d else none) := by
  unfold look Allowed
  cases hauto : d.automaticFor m.tasks <;> cases hskips : h.skips d.id <;> simp [hauto]

theorem choose_eq {ids : List String} (hids : ∀ id ∈ ids, (r.get id).isSome = true) :
    r.choose m ins h ids = some (answered ins (firstAutomatic (Allowed m h) (Runs m ins h)
      m.variants ((ids.filterMap r.get).filter (·.builtIn)))) := by
  induction ids with
  | nil => rfl
  | cons id ids ih =>
    obtain ⟨d, hget⟩ := Option.isSome_iff_exists.mp (hids id List.mem_cons_self)
    obtain ⟨_, rfl⟩ := get_eq_some.mp hget
    have ih := ih fun x hx => hids x (List.mem_cons_of_mem _ hx)
    rw [Registry.choose, hget, look_some, List.filterMap_cons_some hget]
    by_cases hready : Allowed m h d = true
    · rw [if_pos hready, List.filter_cons_of_pos (Allowed.builtIn hready), firstAutomatic,
        List.findSome?_cons, if_pos hready, pick_eq]
      cases m.variants.find? (Runs m ins h d) with
      | none => exact ih
      | some v => rfl
    · rw [if_neg hready]
      cases hbuilt : d.builtIn with
      | false => rw [List.filter_cons_of_neg (by simp [hbuilt]), ih]
      | true =>
        rw [List.filter_cons_of_pos hbuilt, firstAutomatic, List.findSome?_cons,
          if_neg hready, ih]
        rfl

theorem firstAutomatic_mem {ready : Definition → Bool} {runs : Definition → Variant → Bool}
    {variants : List Variant} {inOrder : List Definition}
    (hfirst : firstAutomatic ready runs variants inOrder = some (d, v)) : v ∈ variants := by
  obtain ⟨e, _, he⟩ := List.exists_of_findSome?_eq_some hfirst
  split at he
  · obtain ⟨w, hw, hwv⟩ := Option.map_eq_some_iff.mp he
    cases hwv
    exact List.mem_of_find?_eq_some hw
  · cases he

/-- The choice asks no more than whether the backends are ready and what they run. -/
theorem firstAutomatic_congr {ready ready' : Definition → Bool}
    {runs runs' : Definition → Variant → Bool} {variants : List Variant}
    {inOrder : List Definition} (hready : ∀ d ∈ inOrder, ready d = ready' d)
    (hruns : ∀ d ∈ inOrder, runs d = runs' d) :
    firstAutomatic ready runs variants inOrder = firstAutomatic ready' runs' variants inOrder := by
  induction inOrder with
  | nil => rfl
  | cons d ds ih =>
    have ih := ih (fun e he => hready e (List.mem_cons_of_mem _ he))
      fun e he => hruns e (List.mem_cons_of_mem _ he)
    rw [firstAutomatic, firstAutomatic, List.findSome?_cons, List.findSome?_cons,
      hready d List.mem_cons_self, hruns d List.mem_cons_self]
    cases (if ready' d then (variants.find? (runs' d)).map fun v => (d, v) else none) with
    | some c => rfl
    | none => exact ih

def Registry.automatic (r : Registry) (m : Model) (h : Host) (ins : Inspections) :
    String × String :=
  answered ins (firstAutomatic (Allowed m h) (Runs m ins h) m.variants (r.builtInOrder h))

theorem automatic_offered :
    Offered m ins (r.automatic m h ins).1 (r.automatic m h ins).2 := by
  unfold Registry.automatic
  cases hfirst : firstAutomatic (Allowed m h) (Runs m ins h) m.variants (r.builtInOrder h) with
  | none => exact .inl rfl
  | some c => exact .inr ⟨c.2, firstAutomatic_mem (d := c.1) hfirst, rfl⟩

theorem choose_preference :
    r.choose m ins h (r.preference h) = some (r.automatic m h ins) :=
  choose_eq preference_registered

theorem recommend_answered :
    (r.recommend m h ins).map (fun rec => (rec.backendID, rec.variantID)) =
      some (r.automatic m h ins) := by
  obtain ⟨fs, hfs⟩ := Option.isSome_iff_exists.mp (options_isSome (h := h)
    (@automatic_offered r m ins h)
    fun d hd => r.named d (mem_all.mp hd))
  rw [Registry.recommend, choose_preference, Option.bind_some, hfs]
  rfl

/-! ## Two registries -/

/-- Hosts that say the same of the device and of a registry's built-in backends. -/
structure Agree (r : Registry) (h h' : Host) : Prop where
  os : h.os = h'.os
  arch : h.arch = h'.arch
  accelerators : h.accelerators = h'.accelerators
  install : ∀ d ∈ r.defs, d.builtIn = true → h.install d.id = h'.install d.id
  unpinned : ∀ d ∈ r.defs, d.builtIn = true → h.unpinned d.id = h'.unpinned d.id

def Registry.builtInID (r : Registry) (id : String) : Bool := (r.get id).any (·.builtIn)

theorem builtInID_iff {id : String} :
    r.builtInID id = true ↔ ∃ d ∈ r.defs, d.builtIn = true ∧ d.id = id := by
  rw [Registry.builtInID, Option.any_eq_true]
  constructor
  · rintro ⟨d, hget, hbuilt⟩
    obtain ⟨hmem, hid⟩ := get_eq_some.mp hget
    exact ⟨d, hmem, hbuilt, hid⟩
  · rintro ⟨d, hmem, hbuilt, hid⟩
    exact ⟨d, get_eq_some.mpr ⟨hmem, hid⟩, hbuilt⟩

theorem SameBuiltIns.builtInID (hs : SameBuiltIns r r') : r.builtInID = r'.builtInID := by
  funext id
  rw [Bool.eq_iff_iff, builtInID_iff, builtInID_iff]
  refine exists_congr fun d => ⟨?_, ?_⟩
  · rintro ⟨hmem, hbuilt, hid⟩
    exact ⟨(hs.defs d hbuilt).mp hmem, hbuilt, hid⟩
  · rintro ⟨hmem, hbuilt, hid⟩
    exact ⟨(hs.defs d hbuilt).mpr hmem, hbuilt, hid⟩

theorem builtInID_of_mem (hd : d ∈ r.defs) : r.builtInID d.id = d.builtIn := by
  rw [Registry.builtInID, Registry.get_of_mem hd, Option.any_some]

instance : Std.Total Before where
  total d e := by
    unfold Before
    cases hd : d.builtIn <;> cases he : e.builtIn <;> simp [le_total]

instance : IsTrans Definition Before where
  trans c d e hcd hde := by
    unfold Before at *
    cases hc : c.builtIn <;> cases hd : d.builtIn <;> cases he : e.builtIn <;>
      simp only [hc, hd, he, if_true, Bool.false_eq_true, Bool.true_eq_false, if_false] at *
    · exact le_trans hcd hde
    · exact le_trans hcd hde

theorem SameBuiltIns.all (hs : SameBuiltIns r r') :
    r.all.filter (·.builtIn) = r'.all.filter (·.builtIn) := by
  have hnodup : ∀ r : Registry, (r.all.filter (·.builtIn)).Nodup := fun r =>
    (((List.perm_insertionSort Before r.defs).nodup_iff.mpr
      (List.Nodup.of_map _ r.ids))).filter _
  have hanti : ∀ d e, d ∈ r.all.filter (·.builtIn) → e ∈ r'.all.filter (·.builtIn) →
      Before d e → Before e d → d = e := by
    intro d e hd he hde hed
    have hd' := List.mem_filter.mp hd
    have he' := List.mem_filter.mp he
    unfold Before at hde hed
    rw [hd'.2, he'.2, if_pos rfl] at hde hed
    exact List.inj_on_of_nodup_map r.ids (mem_all.mp hd'.1)
      ((hs.defs e he'.2).mpr (mem_all.mp he'.1)) (le_antisymm hde hed)
  refine List.Perm.eq_of_pairwise hanti ((List.pairwise_insertionSort Before r.defs).filter _)
    ((List.pairwise_insertionSort Before r'.defs).filter _) ?_
  refine (List.perm_ext_iff_of_nodup (hnodup r) (hnodup r')).mpr fun d => ?_
  rw [List.mem_filter, List.mem_filter, mem_all, mem_all]
  exact and_congr_left fun hbuilt => hs.defs d hbuilt

theorem filter_addNew (p : String → Bool) (out : List String) (id : String) :
    (addNew out id).filter p = if p id then addNew (out.filter p) id else out.filter p := by
  unfold addNew
  by_cases hp : p id = true
  · rw [if_pos hp]
    by_cases hid : id ∈ out
    · rw [if_pos hid, if_pos (List.mem_filter.mpr ⟨hid, hp⟩)]
    · rw [if_neg hid, if_neg fun hmem => hid (List.mem_filter.mp hmem).1, List.filter_append,
        List.filter_cons_of_pos hp, List.filter_nil]
  · rw [if_neg hp]
    split
    · rfl
    · rw [List.filter_append, List.filter_cons_of_neg hp, List.filter_nil, List.append_nil]

theorem filter_foldl_addNew (p : String → Bool) (ids out : List String) :
    (ids.foldl addNew out).filter p = (ids.filter p).foldl addNew (out.filter p) := by
  induction ids generalizing out with
  | nil => rfl
  | cons id ids ih =>
    rw [List.foldl_cons, ih, filter_addNew]
    by_cases hp : p id = true
    · rw [if_pos hp, List.filter_cons_of_pos hp, List.foldl_cons]
    · rw [if_neg hp, List.filter_cons_of_neg hp]

theorem engine_builtIns (r : Registry) (engine : String) :
    ((r.all.filter (·.engine = engine)).map (·.id)).filter r.builtInID =
      ((r.all.filter (·.builtIn)).filter (·.engine = engine)).map (·.id) := by
  rw [List.filter_map, List.filter_filter, List.filter_filter]
  refine congrArg (List.map _) (List.filter_congr fun d hd => ?_)
  rw [Function.comp_apply, builtInID_of_mem (mem_all.mp hd), Bool.and_comm]

theorem preferEntry_builtIns (hs : SameBuiltIns r r') {out out' : List String}
    (hout : out.filter r.builtInID = out'.filter r.builtInID) (entry : String) :
    (r.preferEntry out entry).filter r.builtInID =
      (r'.preferEntry out' entry).filter r.builtInID := by
  unfold Registry.preferEntry
  cases engineOf entry with
  | some engine =>
    show (List.foldl addNew out _).filter _ = (List.foldl addNew out' _).filter _
    rw [filter_foldl_addNew, filter_foldl_addNew, hout, engine_builtIns, hs.builtInID,
      engine_builtIns, hs.all]
  | none =>
    show List.filter _ (if _ then _ else _) = List.filter _ (if _ then _ else _)
    by_cases hbuilt : r.builtInID entry = true
    · have hget : (r.get entry).isSome = true := by
        obtain ⟨d, hget, _⟩ := Option.any_eq_true _ _ |>.mp hbuilt
        rw [hget]
        rfl
      have hget' : (r'.get entry).isSome = true := by
        rw [hs.builtInID] at hbuilt
        obtain ⟨d, hget, _⟩ := Option.any_eq_true _ _ |>.mp hbuilt
        rw [hget]
        rfl
      rw [if_pos hget, if_pos hget', filter_addNew, filter_addNew, hout]
    · have hleft : ∀ (c : Prop) [Decidable c] (out : List String),
          (if c then addNew out entry else out).filter r.builtInID =
            out.filter r.builtInID := by
        intro c _ out
        split
        · rw [filter_addNew, if_neg hbuilt]
        · rfl
      rw [hleft, hleft, hout]

theorem preference_builtIns (hs : SameBuiltIns r r') (hos : h.os = h'.os)
    (harch : h.arch = h'.arch) :
    (r.preference h).filter r.builtInID = (r'.preference h').filter r.builtInID := by
  have hprefer : r.prefer h = r'.prefer h' := by
    rw [Registry.prefer, Registry.prefer, hs.rules, hos, harch]
  have hfold : ∀ (entries out out' : List String),
      out.filter r.builtInID = out'.filter r.builtInID →
      (entries.foldl r.preferEntry out).filter r.builtInID =
        (entries.foldl r'.preferEntry out').filter r.builtInID := by
    intro entries
    induction entries with
    | nil => exact fun out out' hout => hout
    | cons entry entries ih =>
      exact fun out out' hout => ih _ _ (preferEntry_builtIns hs hout entry)
  rw [Registry.preference, Registry.preference, hprefer]
  exact hfold _ [] [] rfl

theorem builtIns_of_ids (r : Registry) (ids : List String) :
    (ids.filterMap r.get).filter (·.builtIn) = (ids.filter r.builtInID).filterMap r.get := by
  induction ids with
  | nil => rfl
  | cons id ids ih =>
    cases hget : r.get id with
    | none =>
      have hnot : ¬ r.builtInID id = true := by simp [Registry.builtInID, hget]
      rw [List.filterMap_cons_none hget, List.filter_cons_of_neg hnot, ih]
    | some d =>
      have hid : r.builtInID id = d.builtIn := by rw [Registry.builtInID, hget, Option.any_some]
      rw [List.filterMap_cons_some hget]
      cases hbuilt : d.builtIn with
      | true =>
        rw [List.filter_cons_of_pos hbuilt, List.filter_cons_of_pos (hid.trans hbuilt),
          List.filterMap_cons_some hget, ih]
      | false =>
        rw [List.filter_cons_of_neg (by simp [hbuilt]),
          List.filter_cons_of_neg (by simp [hid, hbuilt]), ih]

theorem builtInOrder_eq (hs : SameBuiltIns r r') (hos : h.os = h'.os) (harch : h.arch = h'.arch) :
    r.builtInOrder h = r'.builtInOrder h' := by
  rw [Registry.builtInOrder, Registry.builtInOrder, builtIns_of_ids, builtIns_of_ids,
    preference_builtIns hs hos harch, ← hs.builtInID]
  refine List.filterMap_congr fun id hid => ?_
  obtain ⟨d, hget, hbuilt⟩ := (Option.any_eq_true _ _).mp (List.mem_filter.mp hid).2
  rw [hget, hs.get hbuilt hget]

theorem mem_builtInOrder (hd : d ∈ r.builtInOrder h) : d ∈ r.defs ∧ d.builtIn = true := by
  obtain ⟨hmem, hbuilt⟩ := List.mem_filter.mp hd
  obtain ⟨id, _, hget⟩ := List.mem_filterMap.mp hmem
  exact ⟨(get_eq_some.mp hget).1, hbuilt⟩

theorem automatic_eq (hs : SameBuiltIns r r') (ha : Agree r h h') :
    r.automatic m h ins = r'.automatic m h' ins := by
  have hready : ∀ d ∈ r.builtInOrder h, Allowed m h d = Allowed m h' d := fun d hd => by
    obtain ⟨hmem, hbuilt⟩ := mem_builtInOrder hd
    rw [Allowed, Allowed, Host.skips, Host.skips, ha.install d hmem hbuilt,
      ha.unpinned d hmem hbuilt]
  have hruns : Runs m ins h = Runs m ins h' := by
    funext d v
    rw [Runs, Runs, rated, rated, assess_rating_congr ha.os ha.arch ha.accelerators]
  rw [Registry.automatic, Registry.automatic, ← builtInOrder_eq hs ha.os ha.arch,
    firstAutomatic_congr hready fun d _ => congrFun hruns d]

/-- Whatever is registered beside them, what is recommended is the first built-in
backend in the order of the preference that is ready and plausibly runs a variant
whole, with the first such variant. -/
theorem recommend_builtIn (hs : SameBuiltIns r r') (ha : Agree r h h') (m : Model)
    (ins : Inspections) :
    (r.recommend m h ins).map (fun rec => (rec.backendID, rec.variantID)) =
        (r'.recommend m h' ins).map (fun rec => (rec.backendID, rec.variantID)) ∧
      (Describes h r → (r.recommend m h ins).map (fun rec => (rec.backendID, rec.variantID)) =
        some (answered ins (firstAutomatic (Ready m h) (Runs m ins h) m.variants
          (r.builtInOrder h)))) := by
  rw [recommend_answered, recommend_answered, automatic_eq hs ha]
  refine ⟨rfl, fun hh => ?_⟩
  rw [← automatic_eq hs ha, Registry.automatic,
    firstAutomatic_congr (fun d hd => ?_) fun _ _ => rfl]
  obtain ⟨hmem, hbuilt⟩ := mem_builtInOrder hd
  exact allowed_eq_ready (hh d hmem hbuilt)

/-! ### A registered MLX backend -/

def metal : Definition where
  id := "llama.cpp-metal"
  adapter := "llama-server/v1"
  tasks := ["chat"]
  formats := ["gguf"]
  architectures := { supported := ["qwen3"] }
  platforms := [⟨"darwin", "arm64", "metal"⟩]
  builtIn := true

def mine : Definition where
  id := "mine"
  engine := "mlx"
  adapter := "process-openai/v1"
  tasks := ["chat"]
  formats := ["gguf"]
  architectures := { supported := ["qwen3"] }
  platforms := [⟨"*", "*", "cpu"⟩]
  declaresAutomatic := some true

def metalOnly : Embedded where
  builtIns := [metal]
  rules := [⟨"darwin", "arm64", ["engine:mlx", "llama.cpp-metal"]⟩]
  ids := List.nodup_singleton _
  named d hd := by
    rw [List.mem_singleton.mp hd]
    decide
  builtIn d hd := by rw [List.mem_singleton.mp hd, metal]

def mineFile : CustomFile where
  name := "mine.json"
  read := .ok mine
  named d hd := by
    cases hd
    decide

def mac : Host where
  os := "darwin"
  arch := "arm64"
  accelerators := ["metal", "cpu"]
  install _ := some .installed

def qwenQ4 : Variant where
  id := "q4"
  format := ⟨"gguf", "inspected", ""⟩
  architecture := ⟨"qwen3", "inspected", ""⟩

def qwen : Model where
  tasks := ["chat"]
  capabilities := []
  variants := [qwenQ4]
  some_variant := List.cons_ne_nil _ _

/-- A registered backend that says it is automatic, of an engine that is
preferred, is not picked. -/
theorem mine_not_picked :
    ((metalOnly.load [mineFile]).recommend qwen mac fun _ => none).map
        (fun rec => (rec.backendID, rec.variantID)) =
      ((metalOnly.load []).recommend qwen mac fun _ => none).map
        (fun rec => (rec.backendID, rec.variantID)) ∧
    ((metalOnly.load [mineFile]).recommend qwen mac fun _ => none).map
        (fun rec => (rec.backendID, rec.variantID)) =
      some (answered (fun _ => none) (firstAutomatic (Ready qwen mac)
        (Runs qwen (fun _ => none) mac) qwen.variants
        ((metalOnly.load [mineFile]).builtInOrder mac))) := by
  have hagree : Agree (metalOnly.load [mineFile]) mac mac :=
    ⟨rfl, rfl, rfl, fun _ _ _ => rfl, fun _ _ _ => rfl⟩
  have hlaw := recommend_builtIn (load_sameBuiltIns metalOnly [mineFile] []) hagree qwen
    fun _ => none
  exact ⟨hlaw.1, hlaw.2 fun _ _ _ => rfl⟩

end LocalBase.Backends
