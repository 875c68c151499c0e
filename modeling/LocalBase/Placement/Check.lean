import LocalBase.Placement.Resolve
import LocalBase.Lib.Double
import Mathlib.Data.List.AList
import Mathlib.Data.List.Dedup

/-!
# The startup placement check

The backend's own output is compared with the plan, and a difference fails the
start. Three kinds of lines matter: how many layers were offloaded, which
buffer a tensor was put in, and how large the GPU's compute buffer is. A backend
that loads twice prints them twice, so the last report of each kind counts, and
for a tensor the last that names it. The comparison of the compute buffer is in
64 bits: it is the exact one only for a readable size that they hold, and a size
past them passes.
-/

namespace LocalBase.Placement

/-- A line that one of the patterns matches, and what its groups are. -/
inductive Report where
  /-- `offloaded (\d+)/(\d+) layers to GPU` -/
  | offloaded (layers total : List Char)
  /-- `tensor (\S+) (...) buffer type overridden to (\S+)` -/
  | overridden (name buffer : String)
  /-- `CUDA0 compute buffer size =\s*([0-9.]+) MiB` -/
  | compute (mib : List Char)
deriving DecidableEq, Repr

def offloadReports (log : List Report) : List (List Char × List Char) :=
  log.filterMap fun
    | .offloaded layers total => some (layers, total)
    | _ => none

def overrideReports (log : List Report) : List (String × String) :=
  log.filterMap fun
    | .overridden name buffer => some (name, buffer)
    | _ => none

def computeReports (log : List Report) : List (List Char) :=
  log.filterMap fun
    | .compute mib => some mib
    | _ => none

/-! ## The size of a compute buffer -/

/-- The digits before and after the point, where there is at most one point and
at least one digit. -/
def decimal (text : List Char) : Option (Nat × Nat) :=
  let number (digits : List Char) := digits.foldl (fun n c => 10 * n + (c.toNat - '0'.toNat)) 0
  let whole := text.takeWhile (· ≠ '.')
  let fraction := (text.dropWhile (· ≠ '.')).drop 1
  if whole ++ fraction = [] ∨ '.' ∈ fraction then none
  else some (number (whole ++ fraction), fraction.length)

/-- `ParseFloat`: zero where the text is no number. -/
def parseFloat (text : List Char) : Option ℚ :=
  match decimal text with
  | none => some 0
  | some (digits, places) => Float64.nearest digits (10 ^ places)

/-- A float of bytes cut to an integer. One past 64 bits becomes the smallest
integer, as the conversion on the processors with discrete GPUs leaves it. -/
def cutBytes (bytes : ℚ) : Int64 :=
  if bytes < 2 ^ 63 then Int64.ofInt ⌊bytes⌋ else Int64.minValue

def computeBytes (mib : List Char) : Int64 :=
  ((parseFloat mib).map fun v => cutBytes (v * 1048576)).getD Int64.minValue

/-- Allowed over the planned workspace: 10% or 64 MiB, whichever is larger. -/
def workspaceSlack : Int64 := 64 * 1048576

def Plan.allowedWorkspace (p : Plan) : Int64 :=
  p.workspaceBytes + max (p.workspaceBytes / 10) workspaceSlack

/-! ## Differences -/

inductive Mismatch where
  | layers (got : Nat) (total : List Char) (planned : Nat)
  | unreported
  | onDevice (tensors : List String)
  | missing (tensors : List String)
  | extra (tensors : List String)
  | workspace (mibs : Option ℚ) (allowed planned : Int64)
deriving DecidableEq

/-- At most six of them are named. -/
def list (xs : List String) : String :=
  if 6 < xs.length then
    ", ".intercalate (xs.take 6) ++ " and " ++ toString (xs.length - 6) ++ " more"
  else ", ".intercalate xs

def Mismatch.message (m : Mismatch) : String :=
  "The model's placement on this device differs from the plan, so it was stopped: " ++
    match m with
    | .layers got total planned =>
      toString got ++ " of " ++ String.ofList total ++ " layers were offloaded to the GPU, " ++
        "but the plan has " ++ toString planned ++ "."
    | .unreported => "the backend did not report how many layers it offloaded."
    | .onDevice tensors =>
      "expert tensors planned for system memory were loaded on the GPU: " ++ list tensors ++ "."
    | .missing tensors =>
      "expert tensors planned for system memory were not placed there: " ++ list tensors ++ "."
    | .extra tensors =>
      "expert tensors outside the plan were placed in system memory: " ++ list tensors ++ "."
    | .workspace mibs allowed planned =>
      "the GPU compute buffer is " ++
        ((mibs.map fun v => toString (Float64.roundEven v)).getD "+Inf") ++
        " MiB, but the plan allows " ++ toString (allowed >>> 20) ++ " MiB (a " ++
        toString (planned >>> 20) ++ " MiB workspace plus a margin)."

/-! ## The check -/

/-- Where the experts are, as the reports come in. -/
structure Placed where
  host : AList fun _ : String => Unit := ∅
  device : AList fun _ : String => String := ∅

/-- The buffer types of host memory. -/
def isHostBuffer (buffer : String) : Bool :=
  "CPU".toList.isPrefixOf buffer.toList || buffer = "CUDA_Host"

def Placed.report (s : Placed) (r : String × String) : Placed :=
  if (expertLayer r.1).isNone then s
  else if isHostBuffer r.2 then
    { host := s.host.insert r.1 (), device := s.device.erase r.1 }
  else { host := s.host.erase r.1, device := s.device.insert r.1 r.2 }

def sortStrings (xs : List String) : List String := xs.mergeSort (· ≤ ·)

/-- The last offload report is the real load. -/
def checkOffload (log : List Report) (p : Plan) : Except Mismatch Unit :=
  match (offloadReports log).getLast? with
  | some (layers, total) =>
    if atoi layers ≠ p.gpuLayers then .error (.layers (atoi layers) total p.gpuLayers) else .ok ()
  | none => if 0 < p.gpuLayers then .error .unreported else .ok ()

/-- Exactly the planned set is in host memory. -/
def checkHosted (log : List Report) (p : Plan) : Except Mismatch Unit :=
  let want := p.hostExperts.dedup
  let s := (overrideReports log).foldl Placed.report {}
  let deviceOf (n : String) := (s.device.lookup n).getD ""
  let onDevice := (want.filter fun n => deviceOf n ≠ "").map fun n => n ++ " on " ++ deviceOf n
  let missing := want.filter fun n => deviceOf n = "" ∧ n ∉ s.host
  let extra := s.host.keys.filter (· ∉ want)
  if onDevice ≠ [] then .error (.onDevice (sortStrings onDevice))
  else if missing ≠ [] then .error (.missing (sortStrings missing))
  else if extra ≠ [] then .error (.extra (sortStrings extra))
  else .ok ()

/-- The GPU compute buffer is within the planned allowance. -/
def checkWorkspace (log : List Report) (p : Plan) : Except Mismatch Unit :=
  if p.platform = .discrete ∧ 0 < p.gpuLayers then
    match (computeReports log).getLast? with
    | some mib =>
      if p.allowedWorkspace < computeBytes mib then
        .error (.workspace (parseFloat mib) p.allowedWorkspace p.workspaceBytes)
      else .ok ()
    | none => .ok ()
  else .ok ()

/-- Validates a backend's startup output against its plan. -/
def check (log : List Report) (p : Plan) : Except Mismatch Unit :=
  if p.platform = .unified ∧ p.args = [] then .ok ()
  else do
    checkOffload log p
    checkHosted log p
    checkWorkspace log p

/-! ## What the last reports say -/

/-- The buffer of the last report that names a tensor. -/
def lastBuffer (reports : List (String × String)) (name : String) : Option String :=
  ((reports.filter fun r => r.1 = name).getLast?).map (·.2)

theorem lastBuffer_concat (reports : List (String × String)) (r : String × String)
    (name : String) :
    lastBuffer (reports ++ [r]) name =
      if r.1 = name then some r.2 else lastBuffer reports name := by
  unfold lastBuffer
  rw [List.filter_append]
  by_cases h : r.1 = name <;> simp [h]

/-- An expert tensor that its last report puts in host memory. -/
def OnHost (log : List Report) (name : String) : Prop :=
  (expertLayer name).isSome ∧
    ∃ buffer, lastBuffer (overrideReports log) name = some buffer ∧ isHostBuffer buffer

/-- Whatever was reported before, a tensor is on the side of its last report, and
on no other. -/
theorem placed_of_reports (reports : List (String × String)) (name : String) :
    (name ∈ (reports.foldl Placed.report {}).host ↔ (expertLayer name).isSome ∧
        ∃ buffer, lastBuffer reports name = some buffer ∧ isHostBuffer buffer) ∧
      (name ∈ (reports.foldl Placed.report {}).host →
        (reports.foldl Placed.report {}).device.lookup name = none) := by
  induction reports using List.reverseRecOn with
  | nil =>
    refine ⟨?_, fun _ => rfl⟩
    simp [lastBuffer]
  | append_singleton reports r ih =>
    obtain ⟨ihHost, ihDevice⟩ := ih
    rw [List.foldl_append, lastBuffer_concat]
    generalize reports.foldl Placed.report {} = s at ihHost ihDevice ⊢
    show (name ∈ (s.report r).host ↔ _) ∧ (name ∈ (s.report r).host →
      (s.report r).device.lookup name = none)
    by_cases hname : r.1 = name
    · subst hname
      unfold Placed.report
      rw [if_pos rfl]
      by_cases hexpert : (expertLayer r.1).isNone
      · rw [if_pos hexpert, ihHost]
        have hnot : ¬ (expertLayer r.1).isSome := by simpa using hexpert
        exact ⟨by simp [hnot], fun h => absurd h.1 hnot⟩
      · have hsome : (expertLayer r.1).isSome :=
          Option.isSome_iff_ne_none.mpr (by simpa using hexpert)
        rw [if_neg hexpert]
        by_cases hbuffer : isHostBuffer r.2
        · simp [hbuffer, hsome]
        · simp [hbuffer]
    · -- Another tensor's report moves nothing of this one.
      have hne : name ≠ r.1 := fun h => hname h.symm
      rw [if_neg hname]
      unfold Placed.report
      split_ifs
      · exact ⟨ihHost, ihDevice⟩
      · simpa [hne, AList.lookup_erase_ne, AList.lookup_insert_ne] using ⟨ihHost, ihDevice⟩
      · simpa [hne, AList.lookup_erase_ne, AList.lookup_insert_ne] using ⟨ihHost, ihDevice⟩

theorem checkHosted_ok_iff (log : List Report) (p : Plan) :
    checkHosted log p = .ok () ↔ ∀ name, OnHost log name ↔ name ∈ p.hostExperts := by
  have hplaced := placed_of_reports (overrideReports log)
  unfold checkHosted
  dsimp only
  generalize (overrideReports log).foldl Placed.report {} = s at hplaced ⊢
  constructor
  · intro h name
    split_ifs at h with hdevice hmissing hextra
    rw [not_not] at hdevice hmissing hextra
    constructor
    · intro hhost
      have := List.filter_eq_nil_iff.mp hextra name
        (AList.mem_keys.mpr ((hplaced name).1.mpr hhost))
      simpa using this
    · intro hwant
      have hmem : name ∈ p.hostExperts.dedup := List.mem_dedup.mpr hwant
      have hoff := List.filter_eq_nil_iff.mp (List.map_eq_nil_iff.mp hdevice) name hmem
      have hthere := List.filter_eq_nil_iff.mp hmissing name hmem
      exact (hplaced name).1.mp (by simpa [not_not.mp (by simpa using hoff)] using hthere)
  · intro h
    have hhost : ∀ name, name ∈ s.host ↔ name ∈ p.hostExperts := fun name =>
      (hplaced name).1.trans (h name)
    have hoff : ∀ name ∈ p.hostExperts, s.device.lookup name = none := fun name hname =>
      (hplaced name).2 ((hhost name).mpr hname)
    rw [if_neg, if_neg, if_neg]
    · rw [not_not, List.filter_eq_nil_iff]
      intro name hname
      simpa using (hhost name).mp (AList.mem_keys.mp hname)
    · rw [not_not, List.filter_eq_nil_iff]
      intro name hname
      simp [(hhost name).mpr (List.mem_dedup.mp hname)]
    · rw [not_not, List.map_eq_nil_iff, List.filter_eq_nil_iff]
      intro name hname
      simp [hoff name (List.mem_dedup.mp hname)]

/-! ## Exact sizes -/

/-- The allowance without a bound on integers. -/
def Plan.exactAllowance (p : Plan) : Int :=
  p.workspaceBytes.toInt + max (p.workspaceBytes.toInt.tdiv 10) workspaceSlack.toInt

/-- The report is a number of MiB whose whole bytes are within the allowance. -/
def Within (p : Plan) (mib : List Char) : Prop :=
  (decimal mib).isSome ∧ ∃ v, parseFloat mib = some v ∧ ⌊v * 1048576⌋ ≤ p.exactAllowance

/-- 64 bits hold the report's bytes. -/
def fitsInt64 (mib : List Char) : Bool := (parseFloat mib).any fun v => v * 1048576 < 2 ^ 63

variable {mib : List Char} {v : ℚ}

theorem parseFloat_nonneg (h : parseFloat mib = some v) : 0 ≤ v := by
  unfold parseFloat at h
  split at h
  · obtain rfl := Option.some.inj h
    exact le_refl 0
  · exact Float64.nearest_nonneg h

theorem floor_bounds (h : parseFloat mib = some v)
    (hfits : v * 1048576 < 2 ^ 63) : 0 ≤ ⌊v * 1048576⌋ ∧ ⌊v * 1048576⌋ < 2 ^ 63 := by
  refine ⟨Int.floor_nonneg.mpr (mul_nonneg (parseFloat_nonneg h) (by norm_num)), ?_⟩
  rw [Int.floor_lt]
  exact_mod_cast hfits

theorem computeBytes_toInt (h : parseFloat mib = some v)
    (hfits : v * 1048576 < 2 ^ 63) : (computeBytes mib).toInt = ⌊v * 1048576⌋ := by
  obtain ⟨hnonneg, hlt⟩ := floor_bounds h hfits
  rw [computeBytes, h, Option.map_some, Option.getD_some, cutBytes, if_pos hfits,
    Int64.toInt_ofInt_of_le (by omega) hlt]

theorem computeBytes_of_past (h : fitsInt64 mib = false) :
    computeBytes mib = Int64.minValue := by
  unfold computeBytes
  cases hv : parseFloat mib with
  | none => rfl
  | some v =>
    have hpast : ¬ v * 1048576 < 2 ^ 63 := by simpa [fitsInt64, hv] using h
    rw [Option.map_some, Option.getD_some, cutBytes, if_neg hpast]

theorem max_toInt (a b : Int64) : (max a b).toInt = max a.toInt b.toInt := by
  show (if a ≤ b then b else a).toInt = _
  rw [max_def]
  by_cases h : a ≤ b
  · rw [if_pos h, if_pos (Int64.le_iff_toInt_le.mp h)]
  · rw [if_neg h, if_neg fun hle => h (Int64.le_iff_toInt_le.mpr hle)]

theorem exactAllowance_bounds (p : Plan) :
    -2 ^ 63 ≤ p.exactAllowance ∧ p.exactAllowance < 2 ^ 63 + 2 ^ 62 := by
  have hlt := p.workspaceBytes.toInt_lt
  have hle := p.workspaceBytes.le_toInt
  have hslack : workspaceSlack.toInt = 67108864 := by decide
  have htenth : p.workspaceBytes.toInt.tdiv 10 < 2 ^ 62 :=
    lt_of_le_of_lt (Int.tdiv_le_tdiv (by decide) hlt.le) (by decide)
  rw [Plan.exactAllowance, hslack]
  omega

theorem allowedWorkspace_toInt (p : Plan) :
    p.allowedWorkspace.toInt =
      if p.exactAllowance < 2 ^ 63 then p.exactAllowance else p.exactAllowance - 2 ^ 64 := by
  obtain ⟨hle, hlt⟩ := exactAllowance_bounds p
  have htenth : (p.workspaceBytes / 10).toInt = p.workspaceBytes.toInt.tdiv 10 :=
    Int64.toInt_div_of_ne_right _ _ (by decide)
  rw [Plan.allowedWorkspace, Int64.toInt_add, max_toInt, htenth]
  show p.exactAllowance.bmod (2 ^ 64) = _
  split_ifs with hfits
  · exact Int.bmod_eq_of_le (by omega) (by omega)
  · rw [← Int.sub_bmod_right, Int.bmod_eq_of_le] <;> omega

/-! ## The planned placement and no other -/

/-- What the last reports have to say of the layers and the experts. -/
structure PlacedAsPlanned (log : List Report) (p : Plan) : Prop where
  layers : ∀ r, (offloadReports log).getLast? = some r → atoi r.1 = p.gpuLayers
  unreported : (offloadReports log).getLast? = none → p.gpuLayers = 0
  experts : ∀ name, OnHost log name ↔ name ∈ p.hostExperts

def AsPlanned (log : List Report) (p : Plan) : Prop :=
  PlacedAsPlanned log p ∧ (p.platform = .discrete → 0 < p.gpuLayers →
    ∀ mib, (computeReports log).getLast? = some mib → Within p mib)

/-- 64-bit integers judge the report as it is: they hold its bytes and the
allowance, or neither and it is within. A text that is no number counts as no
bytes, and that is over an allowance only where it is negative or past them. -/
def JudgedExactly (p : Plan) (mib : List Char) : Prop :=
  if (decimal mib).isSome then
    (fitsInt64 mib ∧ p.exactAllowance < 2 ^ 63) ∨ (¬ fitsInt64 mib ∧ Within p mib)
  else p.exactAllowance < 0 ∨ 2 ^ 63 ≤ p.exactAllowance

theorem checkOffload_ok_iff (log : List Report) (p : Plan) :
    checkOffload log p = .ok () ↔
      (∀ r, (offloadReports log).getLast? = some r → atoi r.1 = p.gpuLayers) ∧
        ((offloadReports log).getLast? = none → p.gpuLayers = 0) := by
  unfold checkOffload
  cases (offloadReports log).getLast? with
  | none => simp
  | some r => simp

theorem placed_ok_iff (log : List Report) (p : Plan) :
    checkOffload log p = .ok () ∧ checkHosted log p = .ok () ↔ PlacedAsPlanned log p := by
  rw [checkOffload_ok_iff, checkHosted_ok_iff]
  exact ⟨fun h => ⟨h.1.1, h.1.2, h.2⟩, fun h => ⟨⟨h.layers, h.unreported⟩, h.experts⟩⟩

theorem checkWorkspace_ok_iff (log : List Report) (p : Plan) :
    checkWorkspace log p = .ok () ↔ (p.platform = .discrete → 0 < p.gpuLayers →
      ∀ mib, (computeReports log).getLast? = some mib →
        ¬ p.allowedWorkspace < computeBytes mib) := by
  unfold checkWorkspace
  cases (computeReports log).getLast? with
  | none => simp
  | some mib => by_cases h : p.platform = .discrete <;> simp [h]

theorem check_ok_iff {log : List Report} {p : Plan} (h : ¬ (p.platform = .unified ∧ p.args = [])) :
    check log p = .ok () ↔
      PlacedAsPlanned log p ∧ checkWorkspace log p = .ok () := by
  rw [check, if_neg h, ← placed_ok_iff]
  cases checkOffload log p with
  | error e => simp [bind, Except.bind]
  | ok _ =>
    cases checkHosted log p with
    | error e => simp [bind, Except.bind]
    | ok _ => simp [bind, Except.bind]

theorem passes_iff_within_iff (p : Plan) (mib : List Char) :
    (¬ p.allowedWorkspace < computeBytes mib ↔ Within p mib) ↔ JudgedExactly p mib := by
  obtain ⟨hle, hlt⟩ := exactAllowance_bounds p
  rw [Int64.lt_iff_toInt_lt, allowedWorkspace_toInt, JudgedExactly, Within]
  generalize p.exactAllowance = a at hle hlt ⊢
  by_cases hread : (decimal mib).isSome
  · rw [if_pos hread]
    by_cases hfits : fitsInt64 mib
    · obtain ⟨v, hv, hbytes⟩ := (Option.any_eq_true _ _).mp hfits
      have hfloor := floor_bounds hv (of_decide_eq_true hbytes)
      rw [computeBytes_toInt hv (of_decide_eq_true hbytes)]
      simp only [hread, hv, hfits, Option.some.injEq, exists_eq_left', true_and, not_true_eq_false,
        false_and, or_false]
      split_ifs <;> omega
    · rw [computeBytes_of_past (by simpa using hfits)]
      have hmin : ¬ (if a < 2 ^ 63 then a else a - 2 ^ 64) < Int64.minValue.toInt := by
        have : Int64.minValue.toInt = -2 ^ 63 := by decide
        split_ifs <;> omega
      simp only [hmin, hfits, Bool.false_eq_true, not_false_eq_true, true_and, false_and, false_or,
        true_iff]
  · have hzero : parseFloat mib = some 0 := by
      rw [parseFloat, Option.not_isSome_iff_eq_none.mp hread]
    have hbytes : (computeBytes mib).toInt = 0 := by
      rw [computeBytes_toInt hzero (by norm_num)]
      norm_num
    rw [if_neg hread, hbytes]
    simp only [hread, false_and, iff_false, not_not, Bool.false_eq_true]
    split_ifs <;> omega

/-- The check passes exactly the planned placement if and only if, where the
layers and the experts agree, 64 bits judge the compute buffer as it is. -/
theorem check_exact_iff (log : List Report) (p : Plan)
    (h : ¬ (p.platform = .unified ∧ p.args = [])) :
    (check log p = .ok () ↔ AsPlanned log p) ↔
      (PlacedAsPlanned log p → p.platform = .discrete → 0 < p.gpuLayers →
        ∀ mib, (computeReports log).getLast? = some mib → JudgedExactly p mib) := by
  rw [check_ok_iff h, checkWorkspace_ok_iff, AsPlanned]
  by_cases hplaced : PlacedAsPlanned log p
  · by_cases hgpu : p.platform = .discrete ∧ 0 < p.gpuLayers
    · simp only [hplaced, hgpu, true_and, forall_const]
      cases (computeReports log).getLast? with
      | none => simp
      | some mib => simpa using passes_iff_within_iff p mib
    · -- No buffer is compared.
      have hskip (P : Prop) : (p.platform = .discrete → 0 < p.gpuLayers → P) ↔ True :=
        iff_true_intro fun hdiscrete hlayers => absurd ⟨hdiscrete, hlayers⟩ hgpu
      simp only [hskip, implies_true]
  · simp only [hplaced, false_and, false_implies, iff_self]

/-- The experts of the first layer stay on the host. -/
def oneExpertPlan : Plan where
  mode := .auto
  platform := .discrete
  pool := "gpu"
  gpuLayers := 5
  totalLayers := 5
  cpuMoeLayers := 1
  hostTensors := 1
  hostLayers := [0]
  gpuBytes := 3221225472
  hostBytes := 1073741824
  kvBytes := 0
  workspaceBytes := 1073741824
  reserveBytes := 1073741824
  freeVRAMBytes := 8589934592
  args := ["--n-cpu-moe", "1"]
  note := ""
  hostExperts := ["blk.0.ffn_up_exps.weight"]

/-- A start that retried: the expert tensor was on the GPU before. -/
def retriedLog (mib : String) : List Report :=
  [.offloaded "0".toList "5".toList, .overridden "blk.0.ffn_up_exps.weight" "CUDA0",
    .offloaded "5".toList "5".toList, .overridden "blk.0.ffn_up_exps.weight" "CPU",
    .overridden "token_embd.weight" "CPU", .compute mib.toList]

theorem retriedLog_as_planned :
    check (retriedLog "1100.25") oneExpertPlan = .ok () ∧
      AsPlanned (retriedLog "1100.25") oneExpertPlan := by
  have hok : check (retriedLog "1100.25") oneExpertPlan = .ok () := by decide +kernel
  refine ⟨hok, ((check_exact_iff _ _ (by decide)).mpr ?_).mp hok⟩
  intro _ _ _ mib hmib
  obtain rfl : "1100.25".toList = mib := by simpa [computeReports, retriedLog] using hmib
  rw [JudgedExactly, if_pos (by decide)]
  exact .inl (by decide +kernel)

/-- A buffer of 9 · 10^12 MiB is past 64 bits and passes. -/
theorem huge_buffer_passes :
    ¬ (check (retriedLog "9000000000000") oneExpertPlan = .ok () ↔
      AsPlanned (retriedLog "9000000000000") oneExpertPlan) := by
  intro h
  have hplanned := h.mp (by decide +kernel)
  obtain ⟨_, v, hv, hle⟩ := hplanned.2 rfl (by decide) "9000000000000".toList (by decide)
  have hvalue : parseFloat "9000000000000".toList = some 9000000000000 := by decide +kernel
  obtain rfl := Option.some.inj (hvalue.symm.trans hv)
  revert hle
  decide +kernel

end LocalBase.Placement
