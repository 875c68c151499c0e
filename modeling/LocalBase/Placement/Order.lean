import Mathlib
import LocalBase.Placement.Resolve

/-!
# What a placement is

Any plan for a discrete device fits it, and its arguments and its list of host
experts say what its split is. Mode auto takes the first split of `order` that
fits, and the other modes take the one they are asked for: when it fits, and
when the model and the backend allow it.
-/

namespace LocalBase.Placement

variable {m : Model} {kv : Int64} {d : Device} {r : Request} {s : Sizes} {note : String}
  {sp : Split} {mode : Mode} {x : Nat × Nat}

/-! ## The order of the splits -/

/-- The splits mode auto tries: everything on the GPU; the experts of one layer
more and more on the host, where the backend can; then fewer and fewer layers
on the GPU, where it can. -/
def order (s : Sizes) (m : Model) (d : Device) : List (Nat × Nat) :=
  let total := m.layers + 1
  let expertLayers := if d.cpuMoE then s.experts.layers.length else 0
  (0, total) ::
    ((List.range' 1 expertLayers).map (·, total) ++
      (List.range (if d.gpuLayers then total else 0)).reverse.map (expertLayers, ·))

/-- The first split of a list that fits. -/
def firstFit (d : Device) (s : Sizes) (m : Model) (kv : Int64) (splits : List (Nat × Nat)) :
    Option Split :=
  (splits.find? fun x => (s.evaluate m kv x.1 x.2).fits d).map fun x =>
    s.evaluate m kv x.1 x.2

theorem firstFit_cons (x : Nat × Nat) (rest : List (Nat × Nat)) :
    firstFit d s m kv (x :: rest) =
      (trySplit d s m kv x.1 x.2).or (firstFit d s m kv rest) := by
  unfold firstFit trySplit
  rw [List.find?_cons]
  cases h : (s.evaluate m kv x.1 x.2).fits d <;> simp [h]

theorem firstFit_append (front back : List (Nat × Nat)) :
    firstFit d s m kv (front ++ back) =
      (firstFit d s m kv front).or (firstFit d s m kv back) := by
  unfold firstFit
  rw [List.find?_append]
  cases front.find? fun x => (s.evaluate m kv x.1 x.2).fits d <;> simp

theorem tryExperts_eq (n left : Nat) : tryExperts d s m kv n left =
    firstFit d s m kv ((List.range' n left).map (·, m.layers + 1)) := by
  induction left generalizing n with
  | zero => rfl
  | succ left ih =>
    rw [tryExperts, List.range'_succ, List.map_cons, firstFit_cons, ← ih]
    cases trySplit d s m kv n (m.layers + 1) <;> rfl

theorem tryLayers_eq (nMax count : Nat) : tryLayers d s m kv nMax count =
    firstFit d s m kv ((List.range count).reverse.map (nMax, ·)) := by
  induction count with
  | zero => rfl
  | succ l ih =>
    rw [tryLayers, List.range_succ, List.reverse_concat, List.map_cons, firstFit_cons, ← ih]
    cases trySplit d s m kv nMax l <;> rfl

theorem autoSplit_eq : autoSplit d s m kv = firstFit d s m kv (order s m d) := by
  rw [order, firstFit_cons, firstFit_append, ← tryExperts_eq, ← tryLayers_eq, autoSplit]
  cases trySplit d s m kv 0 (m.layers + 1) with
  | some sp => rfl
  | none =>
    cases tryExperts d s m kv 1 (if d.cpuMoE then s.experts.layers.length else 0) <;> rfl

/-! ## Splits that fit

The code adds the reserve in 64 bits. A sum past them comes out below the exact
one, so a split that the code refuses does not fit in exact numbers either. -/

/-- The split leaves the reserve free on the GPU, and the host has room. -/
def Split.Fits (sp : Split) (d : Device) : Prop :=
  (0 < sp.gpuLayers → sp.gpu.toInt + reserveBytes.toInt ≤ d.freeVRAM.toInt) ∧
    sp.host.toInt ≤ d.hostAvailable.toInt

/-- 64 bits hold what the split asks of the GPU, the reserve with it. -/
def Split.Held (sp : Split) : Prop :=
  0 < sp.gpuLayers → sp.gpu.toInt + reserveBytes.toInt < 2 ^ 63

theorem toInt_add_reserve (x : Int64) :
    (x + reserveBytes).toInt ≤ x.toInt + reserveBytes.toInt ∧
      (x.toInt + reserveBytes.toInt < 2 ^ 63 →
        (x + reserveBytes).toInt = x.toInt + reserveBytes.toInt) := by
  have hlow := Int64.le_toInt x
  have hreserve : reserveBytes.toInt = 536870912 := by decide
  obtain ⟨k, hk⟩ : ((2 ^ 64 : Nat) : Int) ∣
      (x.toInt + reserveBytes.toInt).bmod (2 ^ 64) - (x.toInt + reserveBytes.toInt) :=
    Int.dvd_bmod_sub_self
  have hlt := Int64.toInt_lt (x + reserveBytes)
  have hle := Int64.le_toInt (x + reserveBytes)
  have hsum := Int64.toInt_add x reserveBytes
  constructor <;> omega

theorem Split.fits_of_Fits (h : sp.Fits d) : sp.fits d = true := by
  have hle := (toInt_add_reserve sp.gpu).1
  simp only [Split.fits, Bool.and_eq_true, Bool.or_eq_true, decide_eq_true_eq,
    Int64.le_iff_toInt_le]
  refine ⟨?_, h.2⟩
  rcases Nat.eq_zero_or_pos sp.gpuLayers with hzero | hpos
  · exact .inl hzero
  · exact .inr (hle.trans (h.1 hpos))

theorem Split.Held.fits (hheld : sp.Held) (h : sp.fits d = true) : sp.Fits d := by
  simp only [Split.fits, Bool.and_eq_true, Bool.or_eq_true, decide_eq_true_eq,
    Int64.le_iff_toInt_le] at h
  refine ⟨fun hpos => ?_, h.2⟩
  rw [← (toInt_add_reserve sp.gpu).2 (hheld hpos)]
  exact h.1.resolve_left (Nat.ne_of_gt hpos)

/-- The place of a split in a list, with none before it that fits. -/
def IsFirst (d : Device) (s : Sizes) (m : Model) (kv : Int64) (splits : List (Nat × Nat))
    (x : Nat × Nat) : Prop :=
  ∃ before after, splits = before ++ x :: after ∧
    ∀ y ∈ before, ¬ (s.evaluate m kv y.1 y.2).Fits d

theorem isFirst_of_firstFit {splits : List (Nat × Nat)} (h : firstFit d s m kv splits = some sp) :
    sp.fits d = true ∧ sp = s.evaluate m kv sp.nMoE sp.gpuLayers ∧
      IsFirst d s m kv splits (sp.nMoE, sp.gpuLayers) := by
  obtain ⟨x, hx, rfl⟩ := Option.map_eq_some_iff.mp h
  obtain ⟨hfits, before, after, rfl, hbefore⟩ := List.find?_eq_some_iff_append.mp hx
  refine ⟨hfits, by simp, before, after, by simp, fun y hy hfits' => ?_⟩
  have hno := hbefore y hy
  rw [Split.fits_of_Fits hfits'] at hno
  cases hno

/-! ## What a plan says -/

/-- The split that a backend is launched with: everything on the GPU unless
the arguments say otherwise. -/
def readArgs (total : Nat) : List String → Option (Nat × Nat)
  | [] => some (0, total)
  | flag :: value :: rest =>
    match value.toNat?, readArgs total rest with
    | some v, some (nMoE, layers) =>
      if flag = "--n-cpu-moe" then some (v, layers)
      else if flag = "-ngl" then some (nMoE, v)
      else none
    | _, _ => none
  | _ => none

/-- What a plan for a discrete device is held to. -/
structure Plan.Follows (p : Plan) (m : Model) (kv : Int64) (d : Device) : Prop where
  gpuBytes : p.gpuBytes = ((measure m).evaluate m kv p.cpuMoeLayers p.gpuLayers).gpu
  hostBytes : p.hostBytes = ((measure m).evaluate m kv p.cpuMoeLayers p.gpuLayers).host
  gpuFits : 0 < p.gpuLayers → p.reserveBytes = Placement.reserveBytes ∧
    (p.gpuBytes.toInt + p.reserveBytes.toInt < 2 ^ 63 →
      p.gpuBytes.toInt + p.reserveBytes.toInt ≤ d.freeVRAM.toInt)
  hostFits : p.hostBytes.toInt ≤ d.hostAvailable.toInt
  args : readArgs (m.layers + 1) p.args = some (p.cpuMoeLayers, p.gpuLayers)
  experts : p.hostExperts.Perm
    ((m.tensors.filter fun t => (expertLayer t.name).any (· < p.cpuMoeLayers)).map Tensor.name)

/-- What measuring a tensor leaves of the experts, and of what is unknown when
the tensor is sized. -/
theorem add_spec (s : Sizes) (n : Nat) (t : Tensor) : (s.add n t).experts = s.experts ∧
    ((tensorBytes t).2 = true → (s.add n t).unknownTy = s.unknownTy) := by
  unfold Sizes.add
  dsimp only
  split <;> split <;> (try split) <;> simp_all

theorem foldl_add_spec (ts : List Tensor) (s : Sizes) (n : Nat) :
    (ts.foldl (.add n) s).experts = s.experts ∧
      ((∀ t ∈ ts, (tensorBytes t).2 = true) →
        (ts.foldl (.add n) s).unknownTy = s.unknownTy) := by
  induction ts generalizing s with
  | nil => exact ⟨rfl, fun _ => rfl⟩
  | cons t ts ih =>
    obtain ⟨hexperts, hknown⟩ := add_spec s n t
    obtain ⟨ihexperts, ihknown⟩ := ih (s.add n t)
    refine ⟨ihexperts.trans hexperts, fun h => ?_⟩
    rw [List.foldl_cons, ihknown fun u hu => h u (List.mem_cons_of_mem _ hu)]
    exact hknown (h t List.mem_cons_self)

theorem measure_experts : (measure m).experts = experts m.tensors :=
  (foldl_add_spec m.tensors _ m.layers).1

theorem sized_known (h : ∀ t ∈ m.tensors, (tensorBytes t).2 = true) :
    (measure m).unknownTy = false :=
  (foldl_add_spec m.tensors _ m.layers).2 h

theorem readArgs_split {total n l : Nat} (hl : l ≤ total) :
    readArgs total ((if 0 < n then ["--n-cpu-moe", toString n] else []) ++
      if l < total then ["-ngl", toString l] else []) = some (n, l) := by
  by_cases hn : 0 < n
  · rcases Nat.lt_or_eq_of_le hl with hlt | rfl
    · simp [readArgs, hn, hlt]
    · simp [readArgs, hn]
  · obtain rfl : n = 0 := by omega
    rcases Nat.lt_or_eq_of_le hl with hlt | rfl
    · simp [readArgs, hlt]
    · simp [readArgs]

theorem splitPlan_follows (hfits : sp.fits d = true)
    (hsp : sp = (measure m).evaluate m kv sp.nMoE sp.gpuLayers)
    (hl : sp.gpuLayers ≤ m.layers + 1) :
    (splitPlan mode m kv d (measure m) sp note).Follows m kv d := by
  simp only [Split.fits, Bool.and_eq_true, Bool.or_eq_true, decide_eq_true_eq,
    Int64.le_iff_toInt_le] at hfits
  obtain ⟨hgpu, hhost⟩ := hfits
  refine ⟨congrArg Split.gpu hsp, congrArg Split.host hsp, fun hpos => ?_, hhost,
    readArgs_split hl, ?_⟩
  · have hreserve : (splitPlan mode m kv d (measure m) sp note).reserveBytes =
        Placement.reserveBytes := if_pos hpos
    refine ⟨hreserve, ?_⟩
    rw [hreserve]
    intro hheld
    have hsum := (toInt_add_reserve sp.gpu).2 hheld
    exact hsum.symm.trans_le (hgpu.resolve_left (Nat.ne_of_gt hpos))
  · show ((List.range sp.nMoE).flatMap (measure m).experts.names).Perm _
    rw [measure_experts]
    have hnames : (List.range sp.nMoE).flatMap (experts m.tensors).names =
        ((List.range sp.nMoE).flatMap (expertsOf m.tensors)).map Tensor.name := by
      rw [List.map_flatMap]
      exact List.flatMap_congr fun l _ => experts_names
    rw [hnames]
    exact experts_below.map Tensor.name

/-! ## The modes -/

/-- The split a request asks for: everything on the GPU unless it says
otherwise. -/
def Request.asks (r : Request) (m : Model) : Mode → Nat × Nat
  | .cpu => (0, 0)
  | .custom => ((r.cpuMoeLayers.getD 0).toNat, (r.gpuLayers.getD (m.layers + 1)).toNat)
  | .auto | .gpu => (0, m.layers + 1)

/-- A custom request that the model and the backend allow. -/
structure Request.Allowed (r : Request) (m : Model) (d : Device) : Prop where
  experts : 0 ≤ r.cpuMoeLayers.getD 0 ∧
    r.cpuMoeLayers.getD 0 ≤ (experts m.tensors).layers.length
  keepsExperts : 0 < r.cpuMoeLayers.getD 0 → d.cpuMoE = true
  layers : 0 ≤ r.gpuLayers.getD (m.layers + 1) ∧ r.gpuLayers.getD (m.layers + 1) ≤ m.layers + 1
  offloads : r.gpuLayers.getD (m.layers + 1) < m.layers + 1 → d.gpuLayers = true

theorem checkExperts_ok (hd : d.platform = .discrete) {n : Nat} :
    checkExperts d s r.cpuMoeLayers = .ok n ↔
      (0 ≤ r.cpuMoeLayers.getD 0 ∧ r.cpuMoeLayers.getD 0 ≤ s.experts.layers.length) ∧
        (0 < r.cpuMoeLayers.getD 0 → d.cpuMoE = true) ∧ n = (r.cpuMoeLayers.getD 0).toNat := by
  cases h : r.cpuMoeLayers with
  | none =>
    simp only [checkExperts, Option.getD_none, Except.ok.injEq]
    omega
  | some c =>
    simp only [checkExperts, hd, Option.getD_some, reduceCtorEq, and_false, if_false]
    split
    · simp; omega
    · split
      · simp; omega
      · split
        · next hmoe => simp [hmoe.1, hmoe.2]
        · next hmoe =>
          split
          · simp; omega
          · have hkeeps : 0 < c → d.cpuMoE = true := fun hpos => by
              by_contra hnot
              exact hmoe ⟨hpos, by simpa using hnot⟩
            simp only [Except.ok.injEq]
            constructor
            · rintro rfl
              exact ⟨⟨by omega, by omega⟩, hkeeps, rfl⟩
            · rintro ⟨_, _, rfl⟩
              rfl

theorem checkLayers_ok (hd : d.platform = .discrete) {l : Nat} :
    checkLayers d m r.gpuLayers = .ok l ↔
      (0 ≤ r.gpuLayers.getD (m.layers + 1) ∧ r.gpuLayers.getD (m.layers + 1) ≤ m.layers + 1) ∧
        (r.gpuLayers.getD (m.layers + 1) < m.layers + 1 → d.gpuLayers = true) ∧
        l = (r.gpuLayers.getD (m.layers + 1)).toNat := by
  cases h : r.gpuLayers with
  | none =>
    simp only [checkLayers, Option.getD_none, Except.ok.injEq]
    omega
  | some c =>
    simp only [checkLayers, hd, Option.getD_some, reduceCtorEq, and_false, if_false, ne_eq,
      not_false_eq_true, and_true]
    split
    · simp; omega
    · split
      · next hoff => simp [hoff.2]; omega
      · next hoff =>
        have hoffloads : c < m.layers + 1 → d.gpuLayers = true := fun hlt => by
          by_contra hnot
          exact hoff ⟨by omega, by simpa using hnot⟩
        simp only [Except.ok.injEq]
        constructor
        · rintro rfl
          exact ⟨⟨by omega, by omega⟩, hoffloads, rfl⟩
        · rintro ⟨_, _, rfl⟩
          rfl

theorem asked_ok (hd : d.platform = .discrete) :
    asked d (measure m) m mode r = .ok x ↔
      (mode = .custom → r.Allowed m d ∧ x = r.asks m mode) ∧
        (mode ≠ .custom → x = (0, m.layers + 1)) := by
  unfold asked
  split
  · next hc =>
    subst hc
    constructor
    · intro h
      cases hn : checkExperts d (measure m) r.cpuMoeLayers with
      | error e => rw [hn] at h; cases h
      | ok n =>
        cases hl : checkLayers d m r.gpuLayers with
        | error e => rw [hn, hl] at h; cases h
        | ok l =>
          rw [hn, hl] at h
          cases h
          obtain ⟨hexperts, hkeeps, rfl⟩ := (checkExperts_ok hd).mp hn
          obtain ⟨hlayers, hoffloads, rfl⟩ := (checkLayers_ok hd).mp hl
          rw [measure_experts] at hexperts
          exact ⟨fun _ => ⟨⟨hexperts, hkeeps, hlayers, hoffloads⟩, rfl⟩, fun hne => absurd rfl hne⟩
    · rintro ⟨h, -⟩
      obtain ⟨⟨hexperts, hkeeps, hlayers, hoffloads⟩, rfl⟩ := h rfl
      rw [← measure_experts] at hexperts
      rw [(checkExperts_ok hd).mpr ⟨hexperts, hkeeps, rfl⟩,
        (checkLayers_ok hd).mpr ⟨hlayers, hoffloads, rfl⟩]
      rfl
  · next hc => simp [hc, eq_comm]

/-- On a discrete device of one GPU a request comes down to choosing a split
for it. -/
theorem resolve_ok (hd : d.platform = .discrete) (hgpu : d.gpuCount ≤ 1)
    (hmode : Mode.ofText r.mode = some mode) {p : Plan} : resolve m kv d r = .ok p ↔
      ∃ x, asked d (measure m) m mode r = .ok x ∧ ∃ sp note,
        choose d (measure m) m kv mode x.1 x.2 = .ok (sp, note) ∧
          p = splitPlan mode m kv d (measure m) sp note := by
  simp only [resolve, hmode, Nat.not_lt.mpr hgpu, if_false, hd, reduceCtorEq, and_false]
  cases hx : asked d (measure m) m mode r with
  | error e => simp [bind, Except.bind]
  | ok x =>
    cases hc : choose d (measure m) m kv mode x.1 x.2 with
    | error e => simp [bind, Except.bind, hc]
    | ok y => simp [bind, Except.bind, hc, pure, Except.pure, eq_comm, Prod.ext_iff]

theorem oneSplit_ok {n l : Nat} :
    oneSplit d s m kv n l = .ok (sp, note) ↔
      (s.evaluate m kv n l).fits d = true ∧ sp = s.evaluate m kv n l ∧ note = "" := by
  unfold oneSplit
  dsimp only
  split
  · next h => simp [h, eq_comm]
  · next h => simp [h]

theorem choose_asked (hd : d.platform = .discrete) (hmode : mode ≠ .auto)
    (hx : asked d (measure m) m mode r = .ok x) :
    choose d (measure m) m kv mode x.1 x.2 = .ok (sp, note) ↔
      ((measure m).evaluate m kv (r.asks m mode).1 (r.asks m mode).2).fits d = true ∧
        sp = (measure m).evaluate m kv (r.asks m mode).1 (r.asks m mode).2 ∧ note = "" := by
  obtain ⟨hcustom, -⟩ := (asked_ok hd).mp hx
  cases mode with
  | auto => exact absurd rfl hmode
  | custom =>
    obtain ⟨-, rfl⟩ := hcustom rfl
    simpa [choose, hd] using oneSplit_ok
  | gpu | cpu => simpa [choose, hd, Request.asks] using oneSplit_ok

theorem choose_auto (hd : d.platform = .discrete)
    (hsized : ∀ t ∈ m.tensors, (tensorBytes t).2 = true) {n l : Nat}
    (h : choose d (measure m) m kv .auto n l = .ok (sp, note)) :
    firstFit d (measure m) m kv (order (measure m) m d) = some sp := by
  simp only [choose, hd, reduceCtorEq, or_self, if_false, sized_known hsized,
    Bool.false_eq_true] at h
  rw [← autoSplit_eq]
  cases hauto : autoSplit d (measure m) m kv with
  | none => rw [hauto] at h; cases h
  | some sp' => rw [hauto] at h; cases h; rfl

theorem mem_order (h : x ∈ order s m d) : x.2 ≤ m.layers + 1 := by
  simp only [order, List.mem_cons, List.mem_append, List.mem_map, List.mem_reverse,
    List.mem_range] at h
  obtain rfl | ⟨n, -, rfl⟩ | ⟨l, hl, rfl⟩ := h
  · exact Nat.le_refl _
  · exact Nat.le_refl _
  · split at hl
    · exact Nat.le_of_lt hl
    · exact absurd hl (Nat.not_lt_zero l)

/-- A plan in mode auto is of the first split of the order that fits. -/
theorem auto_follows (hd : d.platform = .discrete) (hgpu : d.gpuCount ≤ 1)
    (hsized : ∀ t ∈ m.tensors, (tensorBytes t).2 = true)
    (hmode : Mode.ofText r.mode = some .auto) {p : Plan} (hp : resolve m kv d r = .ok p) :
    p.Follows m kv d ∧
      IsFirst d (measure m) m kv (order (measure m) m d) (p.cpuMoeLayers, p.gpuLayers) := by
  obtain ⟨x, -, sp, note, hchoose, rfl⟩ := (resolve_ok hd hgpu hmode).mp hp
  obtain ⟨hfits, hsp, hfirst⟩ := isFirst_of_firstFit (choose_auto hd hsized hchoose)
  refine ⟨splitPlan_follows hfits hsp ?_, hfirst⟩
  obtain ⟨before, after, heq, -⟩ := hfirst
  exact mem_order (s := measure m) (d := d) (x := (sp.nMoE, sp.gpuLayers)) (by simp [heq])

/-- In the other modes it is of the split that is asked for. -/
theorem asked_follows (hd : d.platform = .discrete) (hgpu : d.gpuCount ≤ 1)
    (hmode : Mode.ofText r.mode = some mode) (ha : mode ≠ .auto) {p : Plan}
    (hp : resolve m kv d r = .ok p) :
    p.Follows m kv d ∧ (p.cpuMoeLayers, p.gpuLayers) = r.asks m mode ∧
      (mode = .custom → r.Allowed m d) ∧
        ((measure m).evaluate m kv (r.asks m mode).1 (r.asks m mode).2).fits d = true := by
  obtain ⟨x, hx, sp, note, hchoose, rfl⟩ := (resolve_ok hd hgpu hmode).mp hp
  obtain ⟨hfits, rfl, rfl⟩ := (choose_asked hd ha hx).mp hchoose
  have hallowed (hc : mode = .custom) : r.Allowed m d := (((asked_ok hd).mp hx).1 hc).1
  refine ⟨splitPlan_follows hfits (by simp) ?_, by simp [splitPlan], hallowed, hfits⟩
  rw [Sizes.evaluate_gpuLayers]
  cases mode with
  | auto => exact absurd rfl ha
  | custom =>
    have hl := (hallowed rfl).layers
    simp only [Request.asks]
    omega
  | gpu => exact Nat.le_refl _
  | cpu => exact Nat.zero_le _

/-- What a request for a discrete device of at most one GPU comes to. In mode
auto a plan follows the first split of the order that fits. In the other modes a
plan is of the split that is asked for; there is one where that split fits and,
in mode custom, is one that the model and the backend allow, and nowhere else
while 64 bits hold what the split asks of the GPU. -/
theorem placement_on_discrete (hd : d.platform = .discrete) (hgpu : d.gpuCount ≤ 1)
    (hsized : ∀ t ∈ m.tensors, (tensorBytes t).2 = true) {mode : Mode}
    (hmode : Mode.ofText r.mode = some mode) :
    (∀ p, resolve m kv d r = .ok p → p.Follows m kv d) ∧
      (mode = .auto → ∀ p, resolve m kv d r = .ok p →
        IsFirst d (measure m) m kv (order (measure m) m d) (p.cpuMoeLayers, p.gpuLayers)) ∧
      (mode ≠ .auto →
        (∀ p, resolve m kv d r = .ok p → (p.cpuMoeLayers, p.gpuLayers) = r.asks m mode) ∧
        ((mode = .custom → r.Allowed m d) →
          ((measure m).evaluate m kv (r.asks m mode).1 (r.asks m mode).2).Fits d →
            ∃ p, resolve m kv d r = .ok p) ∧
        ((∃ p, resolve m kv d r = .ok p) → (mode = .custom → r.Allowed m d) ∧
          (((measure m).evaluate m kv (r.asks m mode).1 (r.asks m mode).2).Held →
            ((measure m).evaluate m kv (r.asks m mode).1 (r.asks m mode).2).Fits d))) := by
  refine ⟨fun p hp => ?_, fun ha p hp => (auto_follows hd hgpu hsized (ha ▸ hmode) hp).2,
    fun ha => ⟨fun p hp => (asked_follows hd hgpu hmode ha hp).2.1,
      fun hallowed hfits => ?_, ?_⟩⟩
  · by_cases ha : mode = .auto
    · exact (auto_follows hd hgpu hsized (ha ▸ hmode) hp).1
    · exact (asked_follows hd hgpu hmode ha hp).1
  · have hx : ∃ x, asked d (measure m) m mode r = .ok x := by
      by_cases hc : mode = .custom
      · exact ⟨_, (asked_ok hd).mpr ⟨fun _ => ⟨hallowed hc, rfl⟩, fun hne => absurd hc hne⟩⟩
      · exact ⟨_, (asked_ok hd).mpr ⟨fun hcustom => absurd hcustom hc, fun _ => rfl⟩⟩
    obtain ⟨x, hx⟩ := hx
    exact ⟨_, (resolve_ok hd hgpu hmode).mpr
      ⟨x, hx, _, _, (choose_asked hd ha hx).mpr ⟨Split.fits_of_Fits hfits, rfl, rfl⟩, rfl⟩⟩
  · rintro ⟨p, hp⟩
    obtain ⟨-, -, hallowed, hfits⟩ := asked_follows hd hgpu hmode ha hp
    exact ⟨hallowed, fun hheld => hheld.fits hfits⟩

/-! ### Two layers of experts on a GPU with room for one -/

/-- Two layers with 256 MiB of experts each. -/
def twoExperts : Model where
  tensors :=
    [⟨"blk.0.ffn_up_exps.weight", [67108864], 0⟩, ⟨"blk.1.ffn_up_exps.weight", [67108864], 0⟩]
  artifactBytes := 600 * 1048576
  layers := 2
  hostExtraBytes := 0

def smallGPU : Device where
  capacityBytes := 0
  keptBytes := 0
  platform := .discrete
  freeVRAM := 1200 * 1048576
  hostAvailable := 8192 * 1048576
  gpuCount := 1
  cpuMoE := true
  gpuLayers := true

def autoRequest : Request := ⟨"auto", none, none⟩

example : ((resolve twoExperts 0 smallGPU autoRequest).toOption.map fun p =>
    (p.cpuMoeLayers, p.gpuLayers)) = some (1, 3) := by decide

theorem twoExperts_placed :
    (∀ p, resolve twoExperts 0 smallGPU autoRequest = .ok p → p.Follows twoExperts 0 smallGPU) ∧
      (Mode.auto = .auto → ∀ p, resolve twoExperts 0 smallGPU autoRequest = .ok p →
        IsFirst smallGPU (measure twoExperts) twoExperts 0
          (order (measure twoExperts) twoExperts smallGPU) (p.cpuMoeLayers, p.gpuLayers)) ∧
      (Mode.auto ≠ .auto →
        (∀ p, resolve twoExperts 0 smallGPU autoRequest = .ok p →
          (p.cpuMoeLayers, p.gpuLayers) = autoRequest.asks twoExperts .auto) ∧
        ((Mode.auto = .custom → autoRequest.Allowed twoExperts smallGPU) →
          ((measure twoExperts).evaluate twoExperts 0 (autoRequest.asks twoExperts .auto).1
            (autoRequest.asks twoExperts .auto).2).Fits smallGPU →
              ∃ p, resolve twoExperts 0 smallGPU autoRequest = .ok p) ∧
        ((∃ p, resolve twoExperts 0 smallGPU autoRequest = .ok p) →
          (Mode.auto = .custom → autoRequest.Allowed twoExperts smallGPU) ∧
          (((measure twoExperts).evaluate twoExperts 0 (autoRequest.asks twoExperts .auto).1
            (autoRequest.asks twoExperts .auto).2).Held →
          ((measure twoExperts).evaluate twoExperts 0 (autoRequest.asks twoExperts .auto).1
            (autoRequest.asks twoExperts .auto).2).Fits smallGPU))) :=
  placement_on_discrete rfl (by decide) (by decide) rfl

/-- A backend that cannot offload layers. -/
def wholeOnly : Device := { smallGPU with gpuLayers := false }

/-- No layers on the GPU: it fits, and the backend does not allow it. -/
def onHost : Request := ⟨"custom", none, some 0⟩

/-- Custom mode does not return every split that is asked for and fits. -/
theorem fitting_split_refused :
    ¬ ∀ (m : Model) (kv : Int64) (d : Device) (r : Request), d.platform = .discrete →
      d.gpuCount ≤ 1 → (∀ t ∈ m.tensors, (tensorBytes t).2 = true) →
      Mode.ofText r.mode = some .custom →
      ((measure m).evaluate m kv (r.asks m .custom).1 (r.asks m .custom).2).Fits d →
      ∃ p, resolve m kv d r = .ok p := by
  intro h
  obtain ⟨p, hp⟩ := h twoExperts 0 wholeOnly onHost rfl (by decide) (by decide) rfl
    ⟨fun hpos => absurd hpos (by decide), by decide⟩
  have hrefused : resolve twoExperts 0 wholeOnly onHost = .error .backendLayers := rfl
  rw [hrefused] at hp
  cases hp

end LocalBase.Placement
