import LocalBase.Backends.Definition

/-!
# Ratings

A variant of a model is rated against a backend on this host. Each kind of
evidence adds reasons why it does not run, why it is not known, or why it likely
does. The rating is read off them. It tells and hides nothing: a backend of any
rating can be chosen by hand.
-/

namespace LocalBase.Backends

/-! ## Models -/

/-- A value with its evidence, unknown without a source. -/
structure Fact where
  value : String := ""
  source : String := ""
  conflict : String := ""

def Fact.known (f : Fact) : Bool := f.source ≠ "" && f.conflict = ""

structure Artifact where
  filename : String
  role : String
  sizeBytes : Int64

structure Variant where
  id : String
  format : Fact := {}
  architecture : Fact := {}
  precision : Fact := {}
  artifacts : List Artifact := []
  qualifiedOn : List String := []
  minBackendVersion : String → Option String := fun _ => none

structure Model where
  tasks : List String
  capabilities : List String
  variants : List Variant
  some_variant : variants ≠ []

def Model.required (m : Model) : List String := m.tasks ++ m.capabilities

def Model.variant (m : Model) (id : String) : Option Variant := m.variants.find? (·.id = id)

/-- What the files of a variant say. -/
structure Inspection where
  variant : Variant
  missing : List String

abbrev Inspections : Type := String → Option Inspection

/-- A variant as its files have it. -/
def Inspections.inspected (ins : Inspections) (v : Variant) : Variant :=
  ((ins v.id).map (·.variant)).getD v

def Inspections.missing (ins : Inspections) (v : Variant) : List String :=
  ((ins v.id).map (·.missing)).getD []

/-! ## The host -/

inductive Install where
  | installed
  | installable
  | missing
deriving DecidableEq

structure Host where
  os : String
  arch : String
  accelerators : List String
  install : String → Option Install
  unpackaged : String → Bool := fun _ => false
  unpinned : String → Bool := fun _ => false

def Host.has (h : Host) (accelerator : String) : Bool := accelerator ∈ h.accelerators

/-! ## Findings -/

inductive Rating where
  | supported
  | likely
  | unknown
  | incompatible
deriving DecidableEq

def Rating.rank : Rating → Nat
  | .supported => 3
  | .likely => 2
  | .unknown => 1
  | .incompatible => 0

def Rating.isPlausible (r : Rating) : Bool := r = .supported || r = .likely

structure Reason where
  code : String
  message : String
deriving DecidableEq

structure Finding where
  backendID : String
  variantID : String
  rating : Rating
  reasons : List Reason
  warnings : List Reason
  drops : List String
  install : Option Install
  missing : List String

/-- What the kinds of evidence say. -/
structure Evidence where
  incompatible : List Reason := []
  unknown : List Reason := []
  likely : List Reason := []
  supportedBy : Option Reason := none
  warnings : List Reason := []

def Evidence.and (a b : Evidence) : Evidence where
  incompatible := a.incompatible ++ b.incompatible
  unknown := a.unknown ++ b.unknown
  likely := a.likely ++ b.likely
  supportedBy := a.supportedBy.or b.supportedBy
  warnings := a.warnings ++ b.warnings

def joined (sep : String) (parts : List String) : String := sep.intercalate parts

def orJoined (parts : List String) : String := joined " or " parts

/-- Where a fact may come from to count. -/
def evidence : List String := ["pinned-metadata", "declared", "inspected", "verified-runtime"]

/-! ### Versions -/

/-- The numbers of a release tag, from a number or the text before one. -/
def versionPartsFrom : Option Int64 → List Char → List Int64
  | none, [] => []
  | some n, [] => [n]
  | number, c :: cs =>
    if c.isDigit then
      versionPartsFrom (some (number.getD 0 * 10 + Int64.ofNat (c.toNat - '0'.toNat))) cs
    else number.toList ++ versionPartsFrom none cs

def versionParts (s : String) : List Int64 := versionPartsFrom none s.toList

def compareParts : List Int64 → List Int64 → Int64
  | [], [] => 0
  | x :: xs, [] => if x ≠ 0 then x - 0 else compareParts xs []
  | [], y :: ys => if 0 ≠ y then 0 - y else compareParts [] ys
  | x :: xs, y :: ys => if x ≠ y then x - y else compareParts xs ys

def compareVersions (a b : String) : Int64 := compareParts (versionParts a) (versionParts b)

/-! ### Kinds of evidence -/

/-- The tasks and capabilities that a backend does not declare. -/
def Model.drops (m : Model) (d : Definition) : List String :=
  m.required.filter fun need => !d.supports need

def taskEvidence (m : Model) (d : Definition) : Evidence :=
  if m.tasks = [] then
    { unknown := [⟨"task-unknown", "It is not known yet what this model does."⟩] }
  else if !m.tasks.any (· ∈ d.tasks) then
    { incompatible := [⟨"task-unsupported",
        "This backend does not run " ++ orJoined m.tasks ++ " models."⟩] }
  else if m.drops d ≠ [] then
    { warnings := [⟨"capability-not-declared", "This backend does not declare " ++
        joined ", " (m.drops d) ++ ", so those features would not work."⟩] }
  else {}

def Definition.builds (d : Definition) (h : Host) : List Platform :=
  d.platforms.filter fun p => (p.os = h.os || p.os = "*") && (p.arch = h.arch || p.arch = "*")

def platformEvidence (d : Definition) (h : Host) : Evidence :=
  if d.builds h = [] then
    { incompatible := [⟨"no-build-for-platform",
        "There is no build of this backend for " ++ h.os ++ "/" ++ h.arch ++ "."⟩] }
  else if !(d.builds h).any fun p => h.has p.accelerator then
    { incompatible := [⟨"accelerator-not-present", "This build needs " ++
        orJoined ((d.builds h).map (·.accelerator)) ++ ", which this device does not have."⟩] }
  else {}

def formatEvidence (v : Variant) (d : Definition) : Evidence :=
  if !v.format.known || v.format.source ∉ evidence then
    { unknown := [⟨"format-unknown", "The file format is not known yet."⟩] }
  else if v.format.value ∉ d.formats then
    { incompatible := [⟨"format-unsupported", "This backend reads " ++ orJoined d.formats ++
        " files, and this model is " ++ v.format.value ++ "."⟩] }
  else {}

def architectureEvidence (v : Variant) (d : Definition) : Evidence :=
  let arch := v.architecture
  if d.id ∈ v.qualifiedOn then
    { supportedBy := some ⟨"qualified-by-catalog",
        "The built-in catalog qualified this model with this backend."⟩ }
  else if arch.conflict ≠ "" then
    { unknown := [⟨"architecture-conflicting-metadata",
        "The model's metadata disagrees about its architecture (" ++ arch.conflict ++ ")."⟩] }
  else if !arch.known then
    { unknown := [⟨"architecture-unknown", "The model's architecture is not known yet."⟩] }
  else if arch.source ∉ evidence then
    { unknown := [⟨"architecture-evidence-insufficient", "The architecture " ++ arch.value ++
        " is not backed by the file or a pinned record."⟩] }
  else if arch.value ∈ d.architectures.unsupported then
    { incompatible := [⟨"architecture-unsupported",
        "This backend does not support the " ++ arch.value ++ " architecture."⟩] }
  else if arch.value ∈ d.architectures.supported then
    { supportedBy := some ⟨"architecture-qualified",
        "The " ++ arch.value ++ " architecture was qualified with this backend."⟩ }
  else if arch.value ∈ d.architectures.likely then
    { likely := [⟨"architecture-documented-upstream", "The " ++ arch.value ++
        " architecture is documented to work with this backend, but was not qualified here."⟩] }
  else
    { unknown := [⟨"architecture-not-in-definition",
        "This backend's definition does not mention the " ++ arch.value ++ " architecture."⟩] }

def precisionEvidence (v : Variant) (d : Definition) : Evidence :=
  if d.precisions ≠ [] ∧ v.precision.known = true ∧ v.precision.value ∉ d.precisions then
    { incompatible := [⟨"precision-unsupported",
        "This backend does not read " ++ v.precision.value ++ " weights."⟩] }
  else {}

def companionEvidence (m : Model) (v : Variant) (d : Definition) : Evidence where
  incompatible := m.required.flatMap fun need =>
    ((d.companions need).filter fun role => !v.artifacts.any (·.role = role)).map fun role =>
      ⟨"companion-file-missing", "For " ++ need ++ " this backend needs a " ++ role ++
        " file, which this variant does not have."⟩

def versionEvidence (v : Variant) (d : Definition) : Evidence :=
  match v.minBackendVersion d.id with
  | none => {}
  | some least =>
    if d.version ≠ "" ∧ compareVersions d.version least < 0 then
      { incompatible := [⟨"backend-version-too-old", "This variant needs backend version " ++
          least ++ " or newer; this backend is " ++ d.version ++ "."⟩] }
    else {}

def installWarnings (d : Definition) (h : Host) : List Reason :=
  if h.install d.id = some .installable then
    [⟨"installs-on-first-use", "LocalBase installs this backend the first time it is used."⟩]
  else if h.install d.id = some .missing then
    if h.unpackaged d.id then
      [⟨"no-managed-package",
        "Not installed: LocalBase has no package of this backend for this device yet."⟩]
    else [⟨"not-installed", "Not installed on this device."⟩]
  else []

def manualWarnings (m : Model) (d : Definition) (h : Host) : List Reason :=
  if !d.automatic then
    [⟨"not-chosen-automatically",
      "LocalBase never picks this backend automatically; you can still choose it."⟩]
  else if h.unpinned d.id then
    [⟨"not-chosen-automatically", "LocalBase picks this backend automatically only where it " ++
      "installs a pinned package, and it has none for this device; you can still choose it."⟩]
  else if !d.automaticFor m.tasks then
    [⟨"not-chosen-automatically", "LocalBase picks this backend automatically only for " ++
      joined ", " d.automaticTasks ++ ", which it has qualified; you can still choose it."⟩]
  else []

def missingWarnings (missing : List String) : List Reason :=
  if missing ≠ [] then
    [⟨"files-not-downloaded", "These files are not downloaded yet: " ++ joined ", " missing ++ "."⟩]
  else []

def allEvidence (m : Model) (v : Variant) (d : Definition) (h : Host) : Evidence :=
  taskEvidence m d |>.and (platformEvidence d h) |>.and (formatEvidence v d)
    |>.and (architectureEvidence v d) |>.and (precisionEvidence v d)
    |>.and (companionEvidence m v d) |>.and (versionEvidence v d)

/-- The rating that the evidence comes to, and the reasons for it. -/
def Evidence.rate (e : Evidence) : Rating × List Reason :=
  if e.incompatible ≠ [] then (.incompatible, e.incompatible)
  else
    match e.supportedBy with
    | some why => (.supported, why :: e.likely)
    | none => if e.unknown ≠ [] then (.unknown, e.unknown) else (.likely, e.likely)

/-- `Assess`. -/
def assess (m : Model) (v : Variant) (d : Definition) (h : Host) (missing : List String) :
    Finding :=
  if !startable d.adapter then
    { backendID := d.id, variantID := v.id, rating := .incompatible,
      reasons := [⟨"no-runner", "This version of LocalBase cannot start " ++ d.name ++ " yet."⟩],
      warnings := [], drops := [], install := h.install d.id, missing := missing }
  else
    let e := allEvidence m v d h
    { backendID := d.id, variantID := v.id, rating := e.rate.1, reasons := e.rate.2,
      warnings := e.warnings ++ installWarnings d h ++ manualWarnings m d h ++
        missingWarnings missing,
      drops := m.drops d, install := h.install d.id, missing := missing }

variable {m : Model} {v : Variant} {d : Definition} {h h' : Host} {missing : List String}

@[simp] theorem assess_variantID : (assess m v d h missing).variantID = v.id := by
  unfold assess
  split <;> rfl

/-- A backend that cannot be started is not plausible, so what is plausible
drops what the backend does not support. -/
theorem assess_drops (hp : (assess m v d h missing).rating.isPlausible = true) :
    (assess m v d h missing).drops = m.drops d := by
  unfold assess at hp ⊢
  split at hp
  · cases hp
  · next hs => rw [if_neg hs]

theorem assess_rating_congr (hos : h.os = h'.os) (harch : h.arch = h'.arch)
    (hacc : h.accelerators = h'.accelerators) :
    (assess m v d h missing).rating = (assess m v d h' missing).rating := by
  have hbuilds : d.builds h = d.builds h' := by
    rw [Definition.builds, Definition.builds, hos, harch]
  have hplatform : platformEvidence d h = platformEvidence d h' := by
    unfold platformEvidence Host.has
    rw [hbuilds, hacc, hos, harch]
  unfold assess allEvidence
  rw [hplatform]
  split <;> rfl

end LocalBase.Backends
