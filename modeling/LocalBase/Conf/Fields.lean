import LocalBase.Conf.Plan
import LocalBase.Jsjson.RoundTrip

/-!
# The settings of a document

One setting for each value that a document holds, with the path the plan lists it
under. The plan compares the texts of two documents setting by setting.

A setting's text gives the setting away but for strings that are not UTF-8, of which
the writer puts the same character for every byte it cannot read.
-/

namespace LocalBase.Conf

open Jsjson (Value listed stringify keys)

inductive Field where
  | gatewayHost
  | gatewayPort
  | host
  | port
  | ctxSize
  | ctxMode
  | parallel
  | sttHost
  | sttPort
  | allowExperimental
  | selected (k : Kind)
  | active (k : Kind)
  | defaultLLMs
  | systemPercent
  | systemMinimum
  | acceleratorPercent
  | acceleratorMinimum
deriving DecidableEq

namespace Field

def gateway : List Field := [gatewayHost, gatewayPort]

def runtime : List Field := [host, port, ctxSize, ctxMode, parallel, sttHost, sttPort]

def models : List Field :=
  [allowExperimental, selected .llm, selected .stt, selected .tts, selected .image,
    selected .video, active .llm, active .stt, active .tts, active .image, active .video]

def memory : List Field :=
  [systemPercent, systemMinimum, acceleratorPercent, acceleratorMinimum]

def all : List Field := gateway ++ runtime ++ models ++ [defaultLLMs] ++ memory

/-- The section, and the key in it. -/
def place : Field → String × String
  | gatewayHost => ("gateway", "host")
  | gatewayPort => ("gateway", "port")
  | host => ("runtime", "host")
  | port => ("runtime", "port")
  | ctxSize => ("runtime", "ctxSize")
  | ctxMode => ("runtime", "ctxMode")
  | parallel => ("runtime", "parallel")
  | sttHost => ("runtime", "sttHost")
  | sttPort => ("runtime", "sttPort")
  | allowExperimental => ("models", "allowExperimental")
  | selected .llm => ("models", "selectedLlmModels")
  | selected .stt => ("models", "selectedSttModels")
  | selected .tts => ("models", "selectedTtsModels")
  | selected .image => ("models", "selectedImageModels")
  | selected .video => ("models", "selectedVideoModels")
  | active .llm => ("models", "activeLlmModel")
  | active .stt => ("models", "activeSttModel")
  | active .tts => ("models", "activeTtsModel")
  | active .image => ("models", "activeImageModel")
  | active .video => ("models", "activeVideoModel")
  | defaultLLMs => ("models", "defaultLlmModels")
  | systemPercent => ("memory.systemReserve", "percent")
  | systemMinimum => ("memory.systemReserve", "minimumGb")
  | acceleratorPercent => ("memory.acceleratorReserve", "percent")
  | acceleratorMinimum => ("memory.acceleratorReserve", "minimumGb")

def path (f : Field) : String := f.place.1 ++ "." ++ f.place.2

/-- When a change of it takes effect. -/
def activation : Field → String
  | gatewayHost | gatewayPort => "restart-required"
  | systemPercent | systemMinimum | acceleratorPercent | acceleratorMinimum => "restart-required"
  | _ => "hot"

variable (go : Floats)

/-- What a document holds of it. A list of chat models is there only with two or more. -/
def value (c : Config go.Double) : Field → Value go.Double
  | gatewayHost => .str (text c.gatewayHost)
  | gatewayPort => int go c.gatewayPort
  | host => .str (text c.host)
  | port => int go c.port
  | ctxSize => int go c.ctxSize
  | ctxMode => .str c.ctxMode
  | parallel => parallelValue go c.parallel
  | sttHost => .str (text c.sttHost)
  | sttPort => int go c.sttPort
  | allowExperimental => .bool c.allowExperimental
  | selected k => strs go ((c.selected k).insertionSort (· ≤ ·))
  | active k => .str (c.active k)
  | defaultLLMs => if 2 ≤ c.defaultLLMs.length then strs go c.defaultLLMs else .null
  | systemPercent => .num c.systemReserve.percent
  | systemMinimum => .num c.systemReserve.minimumGB
  | acceleratorPercent => .num c.acceleratorReserve.percent
  | acceleratorMinimum => .num c.acceleratorReserve.minimumGB

def change (cur d : Config go.Double) (f : Field) : Change go.Double :=
  ⟨f.path, f.value go cur, f.value go d, f.activation⟩

/-- The texts of a setting differ. -/
def Differs (cur d : Config go.Double) (f : Field) : Prop :=
  stringify go.toDoubles (f.value go cur) ≠ stringify go.toDoubles (f.value go d)

instance (cur d : Config go.Double) : DecidablePred (Differs go cur d) :=
  fun _ => inferInstanceAs (Decidable (_ ≠ _))

end Field

/-! ## Objects with known keys -/

section
variable {go : Floats}

/-- Keys that are all different, none of them an array index. -/
def Plain (ks : List String) : Prop :=
  ks.Nodup ∧ ∀ k ∈ ks, ModelCatalog.arrayIndex k = none

theorem Plain.obj {kv : Object go} (h : Plain (kv.map (·.1))) : obj go kv = kv :=
  Jsjson.foldl_set_append (o := []) h.1

theorem Plain.keys {ks : List String} (h : Plain ks) : keys ks = ks := by
  have hnone : ks.filter (fun k => (ModelCatalog.arrayIndex k).isSome) = [] :=
    List.filter_eq_nil_iff.2 fun k hk => by simp [h.2 k hk]
  have hall : ks.filter (fun k => (ModelCatalog.arrayIndex k).isNone) = ks :=
    List.filter_eq_self.2 fun k hk => by simp [h.2 k hk]
  rw [Jsjson.keys, hnone, hall]
  rfl

theorem Plain.listed {β : Type} {o : List (String × β)} (h : Plain (o.map (·.1))) :
    listed o = o := by
  rw [Jsjson.listed, h.keys, List.filterMap_map]
  refine (List.filterMap_congr fun e he => ?_).trans List.filterMap_some
  show (o.lookup e.1).map _ = _
  rw [(Jsjson.lookup_eq_some h.1).2 he]
  rfl

theorem compareMembers_eq (path : String) (left : Value go.Double) (activation : String)
    (r : Object go) : compareMembers go path left activation r =
      r.map fun e => (e.1, compare go (path ++ "." ++ e.1) (get go left e.1) activation e.2) := by
  induction r with
  | nil => rfl
  | cons e r ih => rw [compareMembers, ih, List.map_cons]

theorem Plain.compare {r : Object go} (h : Plain (r.map (·.1))) (path : String)
    (left : Value go.Double) (activation : String) :
    compare go path left activation (.obj r) =
      r.flatMap fun e => Conf.compare go (path ++ "." ++ e.1) (get go left e.1) activation e.2 := by
  have hnames : (compareMembers go path left activation r).map (·.1) = r.map (·.1) := by
    rw [compareMembers_eq, List.map_map]
    rfl
  have hplain : Plain ((compareMembers go path left activation r).map (·.1)) := by
    rw [hnames]
    exact h
  rw [Conf.compare, hplain.listed, compareMembers_eq, List.flatMap_map]

theorem compare_leaf {right : Value go.Double} (h : ∀ o, right ≠ .obj o) (path : String)
    (left : Value go.Double) (activation : String) :
    compare go path left activation right =
      if stringify go.toDoubles left = stringify go.toDoubles right then []
      else [⟨path, left, right, activation⟩] := by
  cases right with
  | obj o => exact absurd rfl (h o)
  | null | bool | num | str | arr => rfl

theorem get_obj {o : Object go} (h : (o.map (·.1)).Nodup) {k : String} {v : Value go.Double}
    (hv : (k, v) ∈ o) : get go (.obj o) k = v := by
  show (o.lookup k).getD .null = v
  rw [(Jsjson.lookup_eq_some h).2 hv]
  rfl

/-! ## Sections -/

/-- An object that holds some settings. -/
def settings (go : Floats) (c : Config go.Double) (fs : List Field) : Object go :=
  fs.map fun f => (f.place.2, f.value go c)

/-- What is listed of some settings. -/
def differing (go : Floats) (cur d : Config go.Double) (fs : List Field) :
    List (Change go.Double) :=
  (fs.filter fun f => f.Differs go cur d).map (Field.change go cur d)

variable {cur d c : Config go.Double} {fs : List Field}

theorem differing_append (fs fs' : List Field) :
    differing go cur d (fs ++ fs') = differing go cur d fs ++ differing go cur d fs' := by
  rw [differing, List.filter_append, List.map_append]
  rfl

theorem value_ne_obj (c : Config go.Double) (f : Field) (o : Object go) :
    f.value go c ≠ .obj o := by
  cases f with
  | parallel =>
    show parallelValue go c.parallel ≠ _
    unfold parallelValue
    split <;> rintro ⟨⟩
  | defaultLLMs =>
    show (if 2 ≤ c.defaultLLMs.length then strs go c.defaultLLMs else .null) ≠ _
    split <;> rintro ⟨⟩
  | _ => rintro ⟨⟩

theorem names_settings (c : Config go.Double) (fs : List Field) :
    (settings go c fs).map (·.1) = fs.map fun f => f.place.2 := by
  rw [settings, List.map_map]
  rfl

theorem get_settings (h : (fs.map fun f => f.place.2).Nodup) {f : Field} (hf : f ∈ fs) :
    get go (.obj (settings go c fs)) f.place.2 = f.value go c :=
  get_obj (by rwa [names_settings]) (List.mem_map.2 ⟨f, hf, rfl⟩)

theorem compare_settings {name act : String} {left : Value go.Double}
    (h : Plain (fs.map fun f => f.place.2)) (hname : ∀ f ∈ fs, f.place.1 = name)
    (hact : ∀ f ∈ fs, f.activation = act)
    (hleft : ∀ f ∈ fs, get go left f.place.2 = f.value go cur) :
    compare go name left act (.obj (settings go d fs)) = differing go cur d fs := by
  have hplain : Plain ((settings go d fs).map (·.1)) := by rwa [names_settings]
  rw [hplain.compare, settings, List.flatMap_map]
  clear h hplain
  induction fs with
  | nil => rfl
  | cons f fs ih =>
    have hrest := ih (fun f hf => hname f (List.mem_cons_of_mem _ hf))
      (fun f hf => hact f (List.mem_cons_of_mem _ hf))
      fun f hf => hleft f (List.mem_cons_of_mem _ hf)
    have hpath : name ++ "." ++ f.place.2 = f.path := by
      rw [← hname f List.mem_cons_self]
      rfl
    rw [List.flatMap_cons, hrest, hleft f List.mem_cons_self, compare_leaf (value_ne_obj d f),
      hpath, ← hact f List.mem_cons_self, differing, differing, List.filter_cons]
    by_cases hf : f.Differs go cur d
    · rw [if_neg hf, if_pos (decide_eq_true hf)]
      rfl
    · rw [if_pos (not_not.1 hf), if_neg (by simpa using hf)]
      rfl

/-! ## The document -/

/-- The models of a document; the list of chat models only where it is there. -/
def modelFields (c : Config go.Double) : List Field :=
  Field.models ++ if 2 ≤ c.defaultLLMs.length then [.defaultLLMs] else []

theorem obj_settings (h : Plain (fs.map fun f => f.place.2)) :
    obj go (settings go c fs) = settings go c fs :=
  Plain.obj (by rwa [names_settings])

theorem plain_models : Plain ((Field.models ++ [Field.defaultLLMs]).map fun f => f.place.2) :=
  ⟨by decide, by decide⟩

theorem models_eq (c : Config go.Double) :
    (if 2 ≤ c.defaultLLMs.length then
      Jsjson.set "defaultLlmModels" (strs go c.defaultLLMs) (settings go c Field.models)
    else settings go c Field.models) = settings go c (modelFields c) := by
  unfold modelFields
  split
  · next h =>
    have hfresh : "defaultLlmModels" ∉ (settings go c Field.models).map (·.1) := by
      rw [names_settings]
      decide
    have hvalue : Field.defaultLLMs.value go c = strs go c.defaultLLMs := if_pos h
    rw [Jsjson.set_fresh hfresh, settings, settings, List.map_append, List.map_singleton, hvalue]
    rfl
  · rw [List.append_nil]

theorem document_eq (c : Config go.Double) : document go c =
    [("version", int go 1), ("gateway", .obj (settings go c Field.gateway)),
      ("runtime", .obj (settings go c Field.runtime)),
      ("models", .obj (settings go c (modelFields c))),
      ("memory", .obj
        [("systemReserve", .obj (settings go c [.systemPercent, .systemMinimum])),
          ("acceleratorReserve",
            .obj (settings go c [.acceleratorPercent, .acceleratorMinimum]))])] := by
  have hgateway : obj go (settings go c Field.gateway) = settings go c Field.gateway :=
    obj_settings ⟨by decide, by decide⟩
  have hruntime : obj go (settings go c Field.runtime) = settings go c Field.runtime :=
    obj_settings ⟨by decide, by decide⟩
  have hmodels : obj go (settings go c Field.models) = settings go c Field.models :=
    obj_settings ⟨by decide, by decide⟩
  have hsystem : obj go (settings go c [.systemPercent, .systemMinimum]) =
      settings go c [.systemPercent, .systemMinimum] := obj_settings ⟨by decide, by decide⟩
  have haccelerator : obj go (settings go c [.acceleratorPercent, .acceleratorMinimum]) =
      settings go c [.acceleratorPercent, .acceleratorMinimum] :=
    obj_settings ⟨by decide, by decide⟩
  have hmemory : ∀ {a b : Value go.Double}, obj go
      [("systemReserve", a), ("acceleratorReserve", b)] =
      [("systemReserve", a), ("acceleratorReserve", b)] :=
    Plain.obj (show Plain ["systemReserve", "acceleratorReserve"] from ⟨by decide, by decide⟩)
  have hsections : ∀ {a b d e f : Value go.Double}, obj go
      [("version", a), ("gateway", b), ("runtime", d), ("models", e), ("memory", f)] =
      [("version", a), ("gateway", b), ("runtime", d), ("models", e), ("memory", f)] :=
    Plain.obj (show Plain ["version", "gateway", "runtime", "models", "memory"] from
      ⟨by decide, by decide⟩)
  calc document go c = obj go [("version", int go 1),
        ("gateway", .obj (obj go (settings go c Field.gateway))),
        ("runtime", .obj (obj go (settings go c Field.runtime))),
        ("models", .obj (if 2 ≤ c.defaultLLMs.length then
            Jsjson.set "defaultLlmModels" (strs go c.defaultLLMs)
              (obj go (settings go c Field.models))
          else obj go (settings go c Field.models))),
        ("memory", .obj (obj go
          [("systemReserve", .obj (obj go (settings go c [.systemPercent, .systemMinimum]))),
            ("acceleratorReserve",
              .obj (obj go (settings go c [.acceleratorPercent, .acceleratorMinimum])))]))] := rfl
    _ = _ := by
      rw [hgateway, hruntime, hmodels, models_eq, hsystem, haccelerator, hmemory, hsections]

theorem plain_modelFields (c : Config go.Double) :
    Plain ((modelFields c).map fun f => f.place.2) := by
  unfold modelFields
  split
  · exact plain_models
  · exact ⟨by decide, by decide⟩

theorem get_models (c : Config go.Double) {f : Field}
    (hf : f ∈ Field.models ++ [Field.defaultLLMs]) :
    get go (.obj (settings go c (modelFields c))) f.place.2 = f.value go c := by
  by_cases h : 2 ≤ c.defaultLLMs.length
  · have hfields : modelFields c = Field.models ++ [Field.defaultLLMs] := by
      rw [modelFields, if_pos h]
    rw [hfields]
    exact get_settings plain_models.1 hf
  · have hfields : modelFields c = Field.models := by
      rw [modelFields, if_neg h, List.append_nil]
    rw [hfields]
    rcases List.mem_append.1 hf with hf | hf
    · exact get_settings (by decide) hf
    · rw [List.mem_singleton.1 hf]
      exact (if_neg h).symm

theorem lookup_defaults (c : Config go.Double) :
    (settings go c (modelFields c)).lookup "defaultLlmModels" =
      if 2 ≤ c.defaultLLMs.length then some (strs go c.defaultLLMs) else none := by
  unfold modelFields
  split
  · next h =>
    refine (Jsjson.lookup_eq_some ?_).2 (List.mem_map.2 ⟨.defaultLLMs, by simp, ?_⟩)
    · rw [names_settings]
      exact plain_models.1
    · exact Prod.ext rfl (if_pos h)
  · rfl

theorem defaults_differ {c c' : Config go.Double} (h : 2 ≤ c.defaultLLMs.length)
    (h' : ¬ 2 ≤ c'.defaultLLMs.length) : Field.defaultLLMs.Differs go c c' := by
  have hvalue : Field.defaultLLMs.value go c = strs go c.defaultLLMs := if_pos h
  have hnull : Field.defaultLLMs.value go c' = .null := if_neg h'
  rw [Field.Differs, hvalue, hnull]
  intro he
  cases he

theorem compareDefaults_eq (cur d : Config go.Double) :
    compareDefaults go (.obj (settings go cur (modelFields cur)))
        (.obj (settings go d (modelFields d))) =
      if 2 ≤ d.defaultLLMs.length then [] else differing go cur d [Field.defaultLLMs] := by
  simp only [compareDefaults, lookup_defaults]
  by_cases hd : 2 ≤ d.defaultLLMs.length
  · rw [if_pos hd, if_pos hd]
    split <;> rfl
  · rw [if_neg hd, if_neg hd]
    by_cases hc : 2 ≤ cur.defaultLLMs.length
    · have hcur : Field.defaultLLMs.value go cur = strs go cur.defaultLLMs := if_pos hc
      have hnull : Field.defaultLLMs.value go d = .null := if_neg hd
      rw [if_pos hc, differing, List.filter_cons_of_pos (by simpa using defaults_differ hc hd),
        List.filter_nil, List.map_singleton, Field.change, hcur, hnull]
      rfl
    · have hcur : Field.defaultLLMs.value go cur = .null := if_neg hc
      have hnull : Field.defaultLLMs.value go d = .null := if_neg hd
      have hsame : ¬ Field.defaultLLMs.Differs go cur d := by
        rw [Field.Differs, hcur, hnull]
        exact fun h => h rfl
      rw [if_neg hc, differing, List.filter_cons_of_neg (by simpa using hsame)]
      rfl

theorem compare_models (cur d : Config go.Double) :
    compare go "models" (.obj (settings go cur (modelFields cur))) "hot"
        (.obj (settings go d (modelFields d))) ++
      compareDefaults go (.obj (settings go cur (modelFields cur)))
        (.obj (settings go d (modelFields d))) =
      differing go cur d (Field.models ++ [Field.defaultLLMs]) := by
  have hsub : ∀ f ∈ modelFields d, f ∈ Field.models ++ [Field.defaultLLMs] := by
    intro f hf
    unfold modelFields at hf
    split at hf
    · exact hf
    · exact List.mem_append_left _ (by simpa using hf)
  have hname : ∀ f ∈ Field.models ++ [Field.defaultLLMs], f.place.1 = "models" := by decide
  have hact : ∀ f ∈ Field.models ++ [Field.defaultLLMs], f.activation = "hot" := by decide
  rw [compare_settings (plain_modelFields d) (fun f hf => hname f (hsub f hf))
    (fun f hf => hact f (hsub f hf)) fun f hf => get_models cur (hsub f hf), compareDefaults_eq]
  unfold modelFields
  split
  · exact List.append_nil _
  · rw [List.append_nil, differing_append]

theorem changes_eq (cur d : Config go.Double) :
    changes go (some cur) d = differing go cur d Field.all := by
  have hgateway : compare go "gateway" (.obj (settings go cur Field.gateway)) "restart-required"
      (.obj (settings go d Field.gateway)) = differing go cur d Field.gateway :=
    compare_settings ⟨by decide, by decide⟩ (by decide) (by decide)
      fun f hf => get_settings (by decide) hf
  have hruntime : compare go "runtime" (.obj (settings go cur Field.runtime)) "hot"
      (.obj (settings go d Field.runtime)) = differing go cur d Field.runtime :=
    compare_settings ⟨by decide, by decide⟩ (by decide) (by decide)
      fun f hf => get_settings (by decide) hf
  have hsystem : compare go ("memory" ++ "." ++ "systemReserve")
      (.obj (settings go cur [.systemPercent, .systemMinimum])) "restart-required"
      (.obj (settings go d [.systemPercent, .systemMinimum])) =
        differing go cur d [.systemPercent, .systemMinimum] :=
    compare_settings ⟨by decide, by decide⟩ (by decide) (by decide)
      fun f hf => get_settings (by decide) hf
  have haccelerator : compare go ("memory" ++ "." ++ "acceleratorReserve")
      (.obj (settings go cur [.acceleratorPercent, .acceleratorMinimum])) "restart-required"
      (.obj (settings go d [.acceleratorPercent, .acceleratorMinimum])) =
        differing go cur d [.acceleratorPercent, .acceleratorMinimum] :=
    compare_settings ⟨by decide, by decide⟩ (by decide) (by decide)
      fun f hf => get_settings (by decide) hf
  have hmemory : ∀ {a b a' b' : Value go.Double},
      compare go "memory" (.obj [("systemReserve", a), ("acceleratorReserve", b)])
        "restart-required" (.obj [("systemReserve", a'), ("acceleratorReserve", b')]) =
      compare go ("memory" ++ "." ++ "systemReserve") a "restart-required" a' ++
        compare go ("memory" ++ "." ++ "acceleratorReserve") b "restart-required" b' := by
    intro a b a' b'
    have hplain : Plain ((
        [("systemReserve", a'), ("acceleratorReserve", b')] : Object go).map (·.1)) :=
      show Plain ["systemReserve", "acceleratorReserve"] from ⟨by decide, by decide⟩
    rw [hplain.compare]
    exact congrArg _ (List.append_nil _)
  unfold changes
  simp only [Option.map_some, Option.bind_some, document_eq]
  show compare go "gateway" (.obj (settings go cur Field.gateway)) "restart-required"
      (.obj (settings go d Field.gateway)) ++
    compare go "runtime" (.obj (settings go cur Field.runtime)) "hot"
      (.obj (settings go d Field.runtime)) ++
    compare go "models" (.obj (settings go cur (modelFields cur))) "hot"
      (.obj (settings go d (modelFields d))) ++
    compareDefaults go (.obj (settings go cur (modelFields cur)))
      (.obj (settings go d (modelFields d))) ++
    compare go "memory" (.obj _) "restart-required" (.obj _) = _
  rw [hgateway, hruntime, hmemory, hsystem, haccelerator,
    List.append_assoc _ (compare go "models" _ _ _), compare_models, ← differing_append,
    ← differing_append, ← differing_append, ← differing_append]
  rfl

end

end LocalBase.Conf
