import LocalBase.ModelCatalog.Spec

/-!
# Loading the catalog

Three layers, lowest first: the built-in catalog, the remote feed and the
user's files. A new id adds a model; an existing one is patched, key by key,
and keeps where it came from. Then the feed's entries that name a file another
model uses are taken out.

The embedded catalog is a parameter, its entries in order.
-/

namespace LocalBase.ModelCatalog

open StructuredOutput (Json Number Object)

/-- The tier an entry came from, or the highest that contributed. -/
inductive Tier where
  | builtIn
  | remote
  | user
deriving DecidableEq, Repr

inductive Trust where
  | qualified
  | community
  | user
  | modified
deriving DecidableEq, Repr

structure Spec (F : Type) extends Decoded F where
  trust : Trust
  origin : Tier
  tier : Tier
  layerPath : String
  patchedFields : List String
deriving DecidableEq, Repr

structure Diagnostic where
  tier : Tier
  path : String
  modelID : String
  message : String
deriving DecidableEq, Repr

structure UserFile where
  path : String
  data : Json

/-- The downloaded feed; its annotations name no model. -/
structure RemoteLayer where
  url : String
  entries : List Json

structure Layered where
  raw : Object
  trust : Trust
  origin : Tier
  tier : Tier
  path : String
  patched : List String

/-- What has been composed so far. `seen` is of one layer: the path that an id
was taken from. -/
structure Layers where
  entries : String → Option Layered
  ids : List String
  seen : String → Option String
  diagnostics : List Diagnostic

def set {α : Type} (f : String → Option α) (id : String) (a : α) : String → Option α :=
  fun id' => if id' = id then some a else f id'

@[simp] theorem set_self {α : Type} {f : String → Option α} {id : String} {a : α} :
    set f id a id = some a := if_pos rfl

theorem set_of_ne {α : Type} {f : String → Option α} {id id' : String} {a : α} (h : id' ≠ id) :
    set f id a id' = f id' := if_neg h

/-! ## The built-in layer -/

def textOf (m : Object) (k : String) : String := (m.string? k).getD ""

def builtInEntry (l : Layers) (m : Object) : Layers :=
  let id := textOf m "modelId"
  { l with
    entries := set l.entries id ⟨m, .qualified, .builtIn, .builtIn, "", []⟩
    ids := l.ids ++ [id] }

def builtInLayer (builtIn : List Object) : Layers :=
  builtIn.foldl builtInEntry ⟨fun _ => none, [], fun _ => none, []⟩

section
variable {F : Type} (go : Go F)

/-! ## The remote layer -/

def Layers.report (l : Layers) (tier : Tier) (path modelID message : String) : Layers :=
  { l with diagnostics := l.diagnostics ++ [⟨tier, path, modelID, message⟩] }

def Layers.fromBuiltIn (l : Layers) (id : String) : Bool :=
  ((l.entries id).map fun e => decide (e.origin = .builtIn)).getD false

def unknownFields (unknown : List String) : String :=
  "Unknown field(s): " ++ ", ".intercalate unknown ++ "."

def duplicate (id earlier : String) : String :=
  "Duplicate entry for " ++ go.quote id ++ "; " ++ earlier ++ " wins."

def noObject : String := "The file must contain one JSON object (a model spec)."

def noModelID : String := "The entry needs a non-empty \"modelId\"."

/-- An entry whose id is told and is not the binary's own. -/
def remoteModel (path : String) (data : Json) (m : Object) (id : String) (l : Layers) : Layers :=
  if unknownKeys data ≠ [] then l.report .remote path id (unknownFields (unknownKeys data))
  else
    match l.seen id with
    | some earlier => l.report .remote path id (duplicate go id earlier)
    | none =>
      match decodeStrict go m with
      | .error err => l.report .remote path id ("The entry is invalid: " ++ err.text)
      | .ok _ =>
        { l with
          seen := set l.seen id path
          entries := set l.entries id ⟨m, .community, .remote, .remote, path, []⟩
          ids := l.ids ++ [id] }

def remoteEntry (url : String) (l : Layers) (i : Nat) (data : Json) : Layers :=
  let path := url ++ "#models[" ++ toString i ++ "]"
  match data.object? with
  | none => l.report .remote path "" noObject
  | some m =>
    let id := textOf m "modelId"
    if id = "" then l.report .remote path "" noModelID
    else if l.fromBuiltIn id then l
    else remoteModel go path data m id l

/-- The entries from the `i`-th on. -/
def remoteEntries (url : String) (i : Nat) (l : Layers) : List Json → Layers
  | [] => l
  | data :: rest => remoteEntries url (i + 1) (remoteEntry go url l i data) rest

def remoteLayer (l : Layers) (remote : Option RemoteLayer) : Layers :=
  match remote with
  | none => l
  | some remote => remoteEntries go remote.url 0 l remote.entries

/-! ## The user layer -/

/-- `m` over `base`, key by key. -/
def merged (base m : Object) : Object :=
  (base.filter fun kv => (m.lookup kv.1).isNone) ++ m

def changedKeys (base m : Object) : List String :=
  (m.filter fun kv => ¬ sameJSON go (base.lookup kv.1) kv.2).map (·.1)

/-- An entry that a user file is laid over. -/
def patch (base : Layered) (path : String) (m : Object) : Layered :=
  let changed := changedKeys go base.raw m
  { base with
    raw := merged base.raw m
    tier := .user
    path := path
    patched := specKeyOrder.filter fun k => k ∈ changed ∨ k ∈ base.patched
    trust :=
      if (changed.any fun k => k ∈ launchShaped) ∧
          (base.trust = .qualified ∨ base.trust = .community) then .modified
      else base.trust }

/-- A file whose id has not been taken from another. -/
def userModel (path : String) (m : Object) (id : String) (l : Layers) : Layers :=
  match l.entries id with
  | none =>
    match decodeStrict go m with
    | .error err => l.report .user path id ("The entry is invalid: " ++ describeDecodeError err)
    | .ok _ =>
      { l with
        seen := set l.seen id path
        entries := set l.entries id ⟨m, .user, .user, .user, path, []⟩
        ids := l.ids ++ [id] }
  | some base =>
    if base.tier = .builtIn ∧ supersededByBuiltIn go base.raw m then
      { l with seen := set l.seen id path }
    else
      match decodeStrict go (merged base.raw m) with
      | .error err =>
        l.report .user path id ("The patched entry is invalid: " ++ describeDecodeError err)
      | .ok _ =>
        { l with
          seen := set l.seen id path
          entries := set l.entries id (patch go base path m) }

def takeFile (path : String) (m : Object) (id : String) (l : Layers) : Layers :=
  match l.seen id with
  | some earlier => l.report .user path id (duplicate go id earlier)
  | none => userModel go path m id l

def userEntry (l : Layers) (f : UserFile) : Layers :=
  match f.data.object? with
  | none => l.report .user f.path "" noObject
  | some m =>
    let id := textOf m "modelId"
    if id = "" then l.report .user f.path "" noModelID
    else if unknownKeys f.data ≠ [] then
      l.report .user f.path id (unknownFields (unknownKeys f.data))
    else takeFile go f.path m id l

def userLayer (l : Layers) (files : List UserFile) (fileDiags : List Diagnostic) : Layers :=
  files.foldl (userEntry go)
    { l with seen := fun _ => none, diagnostics := l.diagnostics ++ fileDiags }

def composeLayers (builtIn : List Object) (files : List UserFile) (fileDiags : List Diagnostic)
    (remote : Option RemoteLayer) : Layers :=
  userLayer go (remoteLayer go (builtInLayer builtIn) remote) files fileDiags

/-! ## The catalog -/

structure Catalog (F : Type) where
  models : List (Spec F)
  byID : String → Option (Spec F)
  diagnostics : List Diagnostic

/-- The model of an entry; a missing one is not in the list of ids. -/
def specOf (id : String) (e : Option Layered) : Except String (Spec F) :=
  match e with
  | none => .error ("catalog entry " ++ id)
  | some e =>
    match decodeStrict go e.raw with
    | .error err => .error ("catalog entry " ++ id ++ ": " ++ err.text)
    | .ok s =>
      .ok { s with
        trust := e.trust, origin := e.origin, tier := e.tier, layerPath := e.path
        patchedFields := e.patched }

/-- Decode the entries one after another. -/
def addModels (l : Layers) : List String → Catalog F → Except String (Catalog F)
  | [], c => .ok c
  | id :: rest, c => do
      let s ← specOf go id (l.entries id)
      addModels l rest { c with models := c.models ++ [s], byID := set c.byID id s }

def buildCatalog (l : Layers) : Except String (Catalog F) :=
  addModels go l l.ids ⟨[], fun _ => none, l.diagnostics⟩

/-! ## Files taken -/

/-- The model that has a file's name, and the checksum it has it with. -/
structure Owner where
  modelID : String
  sha : String
deriving DecidableEq, Repr

/-- The directory of its kind and the name of a file; a disk may not care about
case. -/
def fileKey (s : Spec F) (a : Artifact) : String := s.kind ++ "/" ++ go.toLower a.filename

def claim (owners : String → Option Owner) (s : Spec F) : String → Option Owner :=
  s.artifacts.foldl (fun owners a =>
    if (owners (fileKey go s a)).isSome then owners
    else set owners (fileKey go s a) ⟨s.modelID, a.sha256⟩) owners

/-- The owner of an artifact's name, if it has it with other bytes. -/
def takenBy (owners : String → Option Owner) (s : Spec F) (a : Artifact) : Option Owner :=
  (owners (fileKey go s a)).filter fun o => a.sha256 = "" || !go.equalFold a.sha256 o.sha

/-- The first file of a model whose name another has, and which. -/
def takes (owners : String → Option Owner) (s : Spec F) : Option (Artifact × Owner) :=
  s.artifacts.findSome? fun a => (takenBy go owners s a).map fun o => (a, o)

/-- The names of all models but the feed's. -/
def firstOwners (models : List (Spec F)) : String → Option Owner :=
  (models.filter fun s => s.origin ≠ .remote).foldl (claim go) fun _ => none

def skipped (s : Spec F) (a : Artifact) (o : Owner) : Diagnostic :=
  ⟨.remote, s.layerPath, s.modelID,
    "Skipped: its file " ++ go.quote a.filename ++ " would replace the one " ++ o.modelID ++
      " uses."⟩

/-- The models one after another, those that stay listed in `c`. -/
def dropTaking (owners : String → Option Owner) : List (Spec F) → Catalog F → Catalog F
  | [], c => c
  | s :: rest, c =>
    if s.origin = .remote then
      match takes go owners s with
      | some (a, o) =>
        dropTaking owners rest { c with
          byID := fun id => if id = s.modelID then none else c.byID id
          diagnostics := c.diagnostics ++ [skipped go s a o] }
      | none => dropTaking (claim go owners s) rest { c with models := c.models ++ [s] }
    else dropTaking owners rest { c with models := c.models ++ [s] }

def dropFeedEntriesTakingFiles (c : Catalog F) : Catalog F :=
  dropTaking go (firstOwners go c.models) c.models { c with models := [] }

def loadLayers (builtIn : List Object) (files : List UserFile) (fileDiags : List Diagnostic)
    (remote : Option RemoteLayer) : Except String (Catalog F) := do
  let c ← buildCatalog go (composeLayers go builtIn files fileDiags remote)
  return dropFeedEntriesTakingFiles go c

end

end LocalBase.ModelCatalog
