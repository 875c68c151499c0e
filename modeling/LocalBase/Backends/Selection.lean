import Mathlib.Logic.Function.Basic
import Mathlib.Logic.Relation
import LocalBase.Backends.Automatic
import LocalBase.Lib.Machine

/-!
# Selections while backends change

`Recommend`, `Resolve` and a launch's gate read the registry many times, each
time under its lock and with the lock given back in between. A reload can come
between any two of the reads. A call is told here by its stages: each waits for
one read, and `next` is that read with what is worked out from it.

Two of the reads ask for a backend that an earlier one found, and do not look
whether it is still there.
-/

namespace LocalBase.Backends

inductive Mode where
  | auto
  | manual
deriving DecidableEq

structure Choice where
  mode : Mode
  backendID : String
  variantID : String

structure Selection where
  mode : Mode
  backendID : String
  variantID : String
  unavailable : Bool := false
  finding : Option Finding := none
  needsDownload : List String := []
  downloadBytes : Int64 := 0
  recommendation : Recommendation

/-! ## Calls -/

/-- What a launch's gate knows of the model, and what a download would come to. -/
structure Launch where
  modelID : String
  imported : Bool
  install : Bool
  installMissing : Bool
  fetch : Except String Unit

inductive Kind where
  | recommend
  | resolve (c : Option Choice)
  | gate (c : Option Choice) (l : Launch)

structure Args where
  model : Model
  host : Host
  inspections : Inspections
  kind : Kind

structure Target where
  manual : Bool
  imported : Bool
  backend : Option Definition := none
  variant : Option Variant := none

inductive GateError where
  | launch (code message : String)
  | notInstalled (modelID : String)
  | fetch (why : String)

inductive Outcome where
  | recommended (rec : Recommendation)
  | selected (s : Selection)
  | gated (t : Target) (err : Option GateError)

/-- The read that a call comes to next, and what it has so far. -/
inductive Stage where
  | rules
  | prefer (entries out : List String)
  | choose (ids : List String)
  | all (backendID variantID : String)
  | rulesAgain (backendID variantID : String) (fs : List Finding)
  | preferAgain (backendID variantID : String) (fs : List Finding) (entries out : List String)
  | check (c : Choice) (rec : Recommendation)
  | rate (s : Selection) (v : Variant)
  | launch (l : Launch) (s : Selection)
  | ended (o : Outcome)
  | panicked

/-! ### The gate -/

/-- Why nothing can be launched, before the backend is looked up. -/
def notSelected (l : Launch) (s : Selection) : Option GateError :=
  if s.unavailable then
    some (.launch "backend_unavailable" ("The backend chosen for " ++ l.modelID ++ " (" ++
      s.backendID ++ ") is no longer registered. Choose another backend for this model."))
  else if s.backendID = "" then
    some (.launch "backend_not_selected" ("No backend is selected for " ++ l.modelID ++
      " on this device. Select a backend to run this model."))
  else none

def Launch.target (l : Launch) (s : Selection) : Target where
  manual := s.mode = .manual
  imported := l.imported

/-- The gate, with what `Get` answers for the selected backend. -/
def Launch.gate (l : Launch) (m : Model) (s : Selection) (d : Option Definition) : Outcome :=
  let t := { l.target s with backend := d, variant := m.variant s.variantID }
  match m.variant s.variantID with
  | none => .gated t (some (.launch "backend_not_selected"
      "The selected variant no longer exists. Select a backend to run this model."))
  | some v =>
    if !l.imported ∧ v.id ≠ "default" ∧ s.needsDownload ≠ [] then
      if !l.install || !l.installMissing then .gated t (some (.notInstalled l.modelID))
      else
        match l.fetch with
        | .error why => .gated t (some (.fetch why))
        | .ok _ => .gated t none
    else if l.imported ∧ s.needsDownload ≠ [] then
      .gated t (some (.launch "model_assets_missing" (l.modelID ++ " is missing files: [" ++
        joined " " s.needsDownload ++ "]. Import them again or choose another variant.")))
    else .gated t none

/-! ### Resolve -/

/-- After `Resolve`. -/
def Args.resolved (a : Args) (s : Selection) : Stage :=
  match a.kind with
  | .recommend => .ended (.selected s)
  | .resolve _ => .ended (.selected s)
  | .gate _ l =>
    match notSelected l s with
    | some e => .ended (.gated (l.target s) (some e))
    | none => .launch l s

/-- With a backend and a variant, up to the rating. -/
def Args.toRate (a : Args) (s : Selection) : Stage :=
  if s.backendID = "" then a.resolved s
  else
    match a.model.variant s.variantID with
    | none => a.resolved s
    | some v => .rate s v

/-- The variant of a manual choice, or the best one for its backend. -/
def chosenVariant (m : Model) (c : Choice) (rec : Recommendation) : String :=
  if c.variantID = "" ∨ m.variant c.variantID = none then
    ((rec.options.filter (·.backendID = c.backendID)).getLast?.map (·.variantID)).getD c.variantID
  else c.variantID

/-- After `Recommend`, for a stored choice. -/
def Args.toResolve (a : Args) (c : Option Choice) (rec : Recommendation) : Stage :=
  match c with
  | some c =>
    if c.mode = .manual then .check c rec
    else a.toRate ⟨.auto, rec.backendID, rec.variantID, false, none, [], 0, rec⟩
  | none => a.toRate ⟨.auto, rec.backendID, rec.variantID, false, none, [], 0, rec⟩

/-- After `Recommend`. -/
def Args.recommended (a : Args) (rec : Recommendation) : Stage :=
  match a.kind with
  | .recommend => .ended (.recommended rec)
  | .resolve c => a.toResolve c rec
  | .gate c _ => a.toResolve c rec

/-- The known sizes of the files that are missing. -/
def downloadBytes (artifacts : List Artifact) (missing : List String) : Int64 :=
  (artifacts.flatMap fun f => (missing.filter (f.filename = ·)).map fun _ => f.sizeBytes).foldl
    (· + ·) 0

/-- A selection with its finding. -/
def Args.rated (a : Args) (s : Selection) (v : Variant) (d : Definition) : Selection :=
  { s with
    finding := some (Backends.rated a.model a.inspections a.host d v)
    needsDownload := a.inspections.missing v
    downloadBytes := downloadBytes (a.inspections.inspected v).artifacts (a.inspections.missing v) }

/-! ### Recommend -/

def toChoose : List String → Stage
  | [] => .all "" ""
  | id :: ids => .choose (id :: ids)

/-- On to the choice, once the preference has been read. -/
def toPrefer : List String → List String → Stage
  | [], out => toChoose out
  | entry :: entries, out => .prefer (entry :: entries) out

def Args.toPreferAgain (a : Args) (backendID variantID : String) (fs : List Finding)
    (entries out : List String) : Stage :=
  match entries with
  | [] => a.recommended ⟨backendID, variantID, sortOptions backendID out fs⟩
  | entry :: entries => .preferAgain backendID variantID fs (entry :: entries) out

/-- One read of the registry, and on to the next. -/
def Args.next (a : Args) (r : Registry) : Stage → Stage
  | .rules => toPrefer (r.prefer a.host) []
  | .prefer [] out => toChoose out
  | .prefer (entry :: entries) out => toPrefer entries (r.preferEntry out entry)
  | .choose [] => .all "" ""
  | .choose (id :: ids) =>
    match look a.model a.inspections a.host id (r.get id) with
    | none => .panicked
    | some (some variantID) => .all id variantID
    | some none => toChoose ids
  | .all backendID variantID =>
    match options a.model a.inspections a.host backendID variantID r.all with
    | none => .panicked
    | some fs => .rulesAgain backendID variantID fs
  | .rulesAgain backendID variantID fs =>
    a.toPreferAgain backendID variantID fs (r.prefer a.host) []
  | .preferAgain backendID variantID fs [] out => a.toPreferAgain backendID variantID fs [] out
  | .preferAgain backendID variantID fs (entry :: entries) out =>
    a.toPreferAgain backendID variantID fs entries (r.preferEntry out entry)
  | .check c rec =>
    if (r.get c.backendID).isNone then
      a.resolved ⟨.manual, c.backendID, c.variantID, true, none, [], 0, rec⟩
    else
      a.toRate ⟨.manual, c.backendID, chosenVariant a.model c rec, false, none, [], 0, rec⟩
  | .rate s v =>
    match r.get s.backendID with
    | none => .panicked
    | some d => a.resolved (a.rated s v d)
  | .launch l s => .ended (l.gate a.model s (r.get s.backendID))
  | .ended o => .ended o
  | .panicked => .panicked

end LocalBase.Backends
