import Mathlib.Data.List.Sort
import Mathlib.Data.String.Basic
import LocalBase.Lib.Records

/-!
# Backends

The registry: the definitions this build has, and the ones a person registered.
A registered one never takes the id of a built-in one, and routing picks only
built-in ones.
-/

namespace LocalBase.Backends

structure Platform where
  os : String
  arch : String
  accelerator : String
deriving DecidableEq

/-- How a backend rates the architectures it names. -/
structure Architectures where
  supported : List String := []
  likely : List String := []
  unsupported : List String := []

structure Definition where
  id : String
  name : String := ""
  engine : String := ""
  version : String := ""
  adapter : String := ""
  tasks : List String := []
  capabilities : List String := []
  formats : List String := []
  architectures : Architectures := {}
  precisions : List String := []
  /-- The roles of the files needed for a task or capability. -/
  companions : String → List String := fun _ => []
  platforms : List Platform := []
  declaresAutomatic : Option Bool := none
  automaticTasks : List String := []
  builtIn : Bool := false

def adapters : List String :=
  ["llama-server/v1", "sd-server/v1", "whisper-server/v1", "tts-server/v1", "kokoro-onnx/v1",
    "crispasr/v1", "process-openai/v1"]

/-- Whether this build has code to start an adapter. -/
def startable (adapter : String) : Bool := adapter ≠ "kokoro-onnx/v1" && adapter ∈ adapters

/-- Whether routing may pick this backend. -/
def Definition.automatic (d : Definition) : Bool := d.builtIn && d.declaresAutomatic.getD true

/-- Whether routing may pick this backend for a model of these tasks. -/
def Definition.automaticFor (d : Definition) (tasks : List String) : Bool :=
  d.automatic && (d.automaticTasks = [] || tasks.all (· ∈ d.automaticTasks))

def Definition.supports (d : Definition) (need : String) : Bool :=
  need ∈ d.tasks || need ∈ d.capabilities

theorem Definition.automaticFor_builtIn {d : Definition} {tasks : List String}
    (h : d.automaticFor tasks = true) : d.builtIn = true := by
  rw [automaticFor, automatic, Bool.and_eq_true, Bool.and_eq_true] at h
  exact h.1.1

/-! ## The registry -/

/-- For a platform, the backends that automatic selection tries. -/
structure Rule where
  os : String
  arch : String
  prefer : List String

/-- The definitions by their ids, which none is without (`Validate`). -/
structure Registry where
  defs : List Definition
  rules : List Rule
  ids : (defs.map Definition.id).Nodup
  named : ∀ d ∈ defs, d.id ≠ ""

def Registry.get (r : Registry) (id : String) : Option Definition :=
  Records.get Definition.id r.defs id

def Before (d e : Definition) : Prop :=
  if d.builtIn = e.builtIn then d.id ≤ e.id else d.builtIn = true

instance : DecidableRel Before := fun d e =>
  inferInstanceAs (Decidable (if d.builtIn = e.builtIn then d.id ≤ e.id else d.builtIn = true))

def Registry.all (r : Registry) : List Definition := r.defs.insertionSort Before

variable {r : Registry} {d e : Definition} {id : String}

theorem get_eq_some : r.get id = some d ↔ d ∈ r.defs ∧ d.id = id :=
  Records.get_eq_some fun _ ha _ hb hab => List.inj_on_of_nodup_map r.ids ha hb hab

theorem mem_all : d ∈ r.all ↔ d ∈ r.defs := List.mem_insertionSort Before

theorem Registry.get_of_mem (h : d ∈ r.defs) : r.get d.id = some d := get_eq_some.mpr ⟨h, rfl⟩

/-! ## Load -/

structure Embedded where
  builtIns : List Definition
  rules : List Rule
  ids : (builtIns.map Definition.id).Nodup
  named : ∀ d ∈ builtIns, d.id ≠ ""
  builtIn : ∀ d ∈ builtIns, d.builtIn = true

/-- A file of backends.d, and what `ReadCustom` made of it. -/
structure CustomFile where
  name : String
  read : Except String Definition
  named : ∀ d, read = .ok d → d.id ≠ ""

/-- Whether a definition of a file is used. Its `builtIn` is not in the file. -/
def accepts (defs : List Definition) (f : CustomFile) : Except String Definition :=
  f.read.bind fun d =>
    if defs.any fun e => e.id = d.id && e.builtIn then
      .error ("id \"" ++ d.id ++ "\" is a built-in backend")
    else if f.name ≠ d.id ++ ".json" then .error ("file name must be " ++ d.id ++ ".json")
    else .ok { d with builtIn := false }

structure Loaded where
  defs : List Definition
  diagnostics : List String

def Loaded.add (l : Loaded) (f : CustomFile) : Loaded :=
  match accepts l.defs f with
  | .error e => { l with diagnostics := l.diagnostics ++ [f.name ++ ": " ++ e] }
  | .ok d => { l with defs := l.defs.filter (·.id ≠ d.id) ++ [d] }

def Embedded.loadAll (b : Embedded) (files : List CustomFile) : Loaded :=
  files.foldl Loaded.add ⟨b.builtIns, []⟩

/-- The built-ins are there, and nothing else says it is one. -/
structure Kept (b : Embedded) (defs : List Definition) : Prop where
  ids : (defs.map Definition.id).Nodup
  named : ∀ d ∈ defs, d.id ≠ ""
  builtIns : ∀ d, d.builtIn = true → (d ∈ defs ↔ d ∈ b.builtIns)

theorem accepts_ok {defs : List Definition} {f : CustomFile} (h : accepts defs f = .ok d) :
    d.builtIn = false ∧ d.id ≠ "" ∧ ∀ e ∈ defs, e.builtIn = true → e.id ≠ d.id := by
  unfold accepts at h
  cases hread : f.read with
  | error why => rw [hread] at h; cases h
  | ok raw =>
    rw [hread, Except.bind] at h
    split at h
    · cases h
    · next hfree =>
      split at h
      · cases h
      · cases h
        refine ⟨rfl, f.named raw hread, fun e he hbuilt hid =>
          hfree (List.any_eq_true.mpr ⟨e, he, ?_⟩)⟩
        rw [Bool.and_eq_true, decide_eq_true_eq]
        exact ⟨hid, hbuilt⟩

theorem add_kept {b : Embedded} {l : Loaded} (h : Kept b l.defs) (f : CustomFile) :
    Kept b (l.add f).defs := by
  unfold Loaded.add
  cases ha : accepts l.defs f with
  | error why => exact h
  | ok d =>
    obtain ⟨hcustom, hnamed, hfree⟩ := accepts_ok ha
    constructor
    · rw [List.map_append]
      refine List.Nodup.append (h.ids.sublist (List.filter_sublist.map _))
        (List.nodup_singleton _) ?_
      intro id hid hd
      obtain ⟨e, he, rfl⟩ := List.mem_map.mp hid
      have hne := (List.mem_filter.mp he).2
      exact absurd (List.mem_singleton.mp hd) (by simpa using hne)
    · intro e he
      obtain he | he := List.mem_append.mp he
      · exact h.named e (List.mem_filter.mp he).1
      · rw [List.mem_singleton.mp he]
        exact hnamed
    · intro e hbuilt
      rw [← h.builtIns e hbuilt, List.mem_append, List.mem_filter, List.mem_singleton]
      constructor
      · rintro (⟨hmem, _⟩ | rfl)
        · exact hmem
        · rw [hcustom] at hbuilt
          cases hbuilt
      · intro hmem
        exact .inl ⟨hmem, decide_eq_true (hfree e hmem hbuilt)⟩

theorem loadAll_kept (b : Embedded) (files : List CustomFile) :
    Kept b (b.loadAll files).defs := by
  have hfold : ∀ l : Loaded, Kept b l.defs → Kept b (files.foldl Loaded.add l).defs := by
    induction files with
    | nil => exact fun l h => h
    | cons f files ih => exact fun l h => ih _ (add_kept h f)
  exact hfold _ ⟨b.ids, b.named, fun d _ => Iff.rfl⟩

/-- `Load`: the built-ins, and the files that can be used. -/
def Embedded.load (b : Embedded) (files : List CustomFile) : Registry where
  defs := (b.loadAll files).defs
  rules := b.rules
  ids := (loadAll_kept b files).ids
  named := (loadAll_kept b files).named

/-- Registries with the same built-ins and rules. -/
structure SameBuiltIns (r r' : Registry) : Prop where
  rules : r.rules = r'.rules
  defs : ∀ d, d.builtIn = true → (d ∈ r.defs ↔ d ∈ r'.defs)

theorem load_sameBuiltIns (b : Embedded) (files files' : List CustomFile) :
    SameBuiltIns (b.load files) (b.load files') where
  rules := rfl
  defs d hd := ((loadAll_kept b files).builtIns d hd).trans
    ((loadAll_kept b files').builtIns d hd).symm

theorem SameBuiltIns.get {r' : Registry} (h : SameBuiltIns r r') (hd : d.builtIn = true)
    (hget : r.get id = some d) : r'.get id = some d := by
  obtain ⟨hmem, hid⟩ := get_eq_some.mp hget
  exact get_eq_some.mpr ⟨(h.defs d hd).mp hmem, hid⟩

end LocalBase.Backends
