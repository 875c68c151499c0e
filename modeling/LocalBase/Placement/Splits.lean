import LocalBase.Placement.Bytes

/-!
# What a split leaves where

With exact sizes a split is arithmetic over the integers. The GPU holds the
whole file less the experts of the first layers, or the last layers less the
experts among them, and a share of the cache; the host holds the rest. The
search walks along these figures, and what it relies on is that they move one
way: more layers on the GPU never take a byte from it, and more layers of
experts on the host never give it one. The seam is between all the repeating
layers and the whole model, where the sum of the layers gives way to the file:
tensors of no layer, and experts past the last layer, are in the one and not in
the other.
-/

namespace LocalBase.Placement

open Finset

/-- Exact sizes, no more of them than the file holds. -/
structure Model.Sized (m : Model) : Prop where
  exact : ∀ t ∈ m.tensors, t.Whole ∧ (tensorBytes t).1.toInt = t.exactBytes
  sum_le : exactSum m.tensors ≤ m.artifactBytes.toInt

/-- 64 bits hold what a split of the model and the cache adds up, and the product
that shares the cache out; a load on the CPU does not add up to less than zero. -/
structure Model.Holds (m : Model) (kv : Int64) : Prop where
  gpu : m.artifactBytes.toInt + kv.toInt + workspaceBytes.toInt < 2 ^ 63
  host : 0 ≤ m.artifactBytes.toInt + kv.toInt + m.hostExtraBytes.toInt ∧
    m.artifactBytes.toInt + kv.toInt + m.hostExtraBytes.toInt < 2 ^ 63
  share : kv.toInt * m.layers < 2 ^ 63

/-- What the splits of a model and a cache are held to: no side is below zero,
the two add up to the whole, and each moves one way as more layers go to the GPU
or more layers of experts to the host. -/
def Model.KeepsBytes (m : Model) (kv : Int64) : Prop :=
  ∀ n l, l ≤ m.layers + 1 →
    let s := measure m
    let sp := s.evaluate m kv n l
    0 ≤ sp.gpu.toInt ∧ 0 ≤ sp.host.toInt ∧
      (0 < l → sp.gpu.toInt + sp.host.toInt =
        m.artifactBytes.toInt + kv.toInt + workspaceBytes.toInt) ∧
      (0 < l → ∀ more, l ≤ more → more ≤ m.layers + 1 →
        sp.gpu.toInt ≤ (s.evaluate m kv n more).gpu.toInt ∧
          (s.evaluate m kv n more).host.toInt ≤ sp.host.toInt) ∧
      (∀ more, n ≤ more → (s.evaluate m kv more l).gpu.toInt ≤ sp.gpu.toInt ∧
        sp.host.toInt ≤ (s.evaluate m kv more l).host.toInt)

namespace Model

def layerSum (m : Model) (j : Nat) : Int := exactSum (layersOf m.tensors j)

def expertSum (m : Model) (j : Nat) : Int := exactSum (expertsOf m.tensors j)

/-- What a layer leaves on the GPU with the experts of the first `n` layers on
the host. -/
def onGPU (m : Model) (n j : Nat) : Int := m.layerSum j - if j < n then m.expertSum j else 0

/-- The weights a split keeps on the GPU. -/
def weights (m : Model) (n l : Nat) : Int :=
  if m.layers < l then m.artifactBytes.toInt - ∑ j ∈ range n, m.expertSum j
  else ∑ j ∈ Ico (m.layers - l) m.layers, m.onGPU n j

/-- The share of the cache it keeps there. -/
def share (m : Model) (kv : Int64) (l : Nat) : Int :=
  if m.layers < l then kv.toInt else kv.toInt * l / m.layers

end Model

/-! ## The sums over the layers -/

section Sums

variable {m : Model} {n n' l l' : Nat}

theorem layerOf_of_expertLayer {name : String} {j : Nat} (h : expertLayer name = some j) :
    layerOf name = some j := by
  unfold expertLayer at h
  unfold layerOf
  cases hre : layerRe name with
  | none => rw [hre] at h; cases h
  | some found =>
    obtain ⟨digits, rest⟩ := found
    rw [hre] at h
    dsimp only at h
    split at h
    · exact h
    · cases h

theorem exactSum_cons (t : Tensor) (ts : List Tensor) :
    exactSum (t :: ts) = t.exactBytes + exactSum ts := by
  rw [exactSum, List.map_cons, List.sum_cons, exactSum]

theorem exactSum_filter_cons (p : Tensor → Bool) (t : Tensor) (ts : List Tensor) :
    exactSum ((t :: ts).filter p) = (if p t then t.exactBytes else 0) + exactSum (ts.filter p) := by
  cases hp : p t with
  | true => simp [hp, exactSum_cons]
  | false => simp [hp]

theorem expertSum_le_layerSum (j : Nat) : m.expertSum j ≤ m.layerSum j := by
  unfold Model.expertSum Model.layerSum expertsOf layersOf
  induction m.tensors with
  | nil => exact Int.le_refl _
  | cons t ts ih =>
    have hb := exactBytes_nonneg t
    rw [exactSum_filter_cons, exactSum_filter_cons]
    by_cases he : expertLayer t.name = some j
    · rw [if_pos (decide_eq_true he), if_pos (decide_eq_true (layerOf_of_expertLayer he))]
      omega
    · rw [if_neg (by simpa using he)]
      split <;> omega

theorem expertSum_nonneg (j : Nat) : 0 ≤ m.expertSum j := exactSum_nonneg _

theorem onGPU_nonneg (n j : Nat) : 0 ≤ m.onGPU n j := by
  have hle := expertSum_le_layerSum (m := m) j
  have hpos := expertSum_nonneg (m := m) j
  unfold Model.onGPU
  split <;> omega

/-- Each tensor is in one layer at most: the layers of a set of numbers, and
the experts of another that it does not meet, are within the file. -/
theorem sums_le (ts : List Tensor) {s u : Finset Nat} (h : Disjoint s u) :
    ∑ j ∈ s, exactSum (layersOf ts j) + ∑ j ∈ u, exactSum (expertsOf ts j) ≤ exactSum ts := by
  induction ts with
  | nil => simp [layersOf, expertsOf, exactSum]
  | cons t ts ih =>
    have hb := exactBytes_nonneg t
    have hstep : ∀ (key : String → Option Nat) (v : Finset Nat),
        ∑ j ∈ v, exactSum ((t :: ts).filter fun t => key t.name = some j) =
          (if ∃ j ∈ v, key t.name = some j then t.exactBytes else 0) +
            ∑ j ∈ v, exactSum (ts.filter fun t => key t.name = some j) := by
      intro key v
      rw [sum_congr rfl fun j _ => exactSum_filter_cons _ t ts, sum_add_distrib]
      congr 1
      cases hkey : key t.name with
      | none => simp
      | some j => simp [eq_comm, sum_ite_eq]
    unfold layersOf expertsOf at ih ⊢
    rw [hstep layerOf s, hstep expertLayer u, exactSum_cons]
    by_cases hs : ∃ j ∈ s, layerOf t.name = some j
    · have hu : ¬ ∃ j ∈ u, expertLayer t.name = some j := by
        rintro ⟨j, hj, he⟩
        obtain ⟨i, hi, hl⟩ := hs
        cases hl.symm.trans (layerOf_of_expertLayer he)
        exact Finset.disjoint_left.mp h hi hj
      rw [if_pos hs, if_neg hu]
      omega
    · rw [if_neg hs]
      split <;> omega

variable (hm : m.Sized)
include hm

theorem Model.Sized.experts_le (n : Nat) :
    ∑ j ∈ range n, m.expertSum j ≤ m.artifactBytes.toInt := by
  have h := sums_le m.tensors (disjoint_empty_left (range n))
  rw [sum_empty, zero_add] at h
  exact h.trans hm.sum_le

theorem Model.Sized.layers_le : ∑ j ∈ range m.layers, m.layerSum j ≤ m.artifactBytes.toInt := by
  have h := sums_le m.tensors (disjoint_empty_right (range m.layers))
  rw [sum_empty, add_zero] at h
  exact h.trans hm.sum_le

theorem Model.Sized.seam (n : Nat) :
    ∑ j ∈ range m.layers, m.onGPU n j ≤
      m.artifactBytes.toInt - ∑ j ∈ range n, m.expertSum j := by
  have hbelow : ∑ j ∈ range m.layers, (if j < n then m.expertSum j else 0) =
      ∑ j ∈ range n with j < m.layers, m.expertSum j := by
    rw [← sum_filter]
    refine sum_congr ?_ fun _ _ => rfl
    ext j
    simp only [mem_filter, mem_range]
    exact and_comm
  have hsplit := sum_filter_add_sum_filter_not (range n) (· < m.layers) m.expertSum
  have hdisjoint : Disjoint (range m.layers) ((range n).filter fun j => ¬ j < m.layers) := by
    rw [Finset.disjoint_left]
    intro j hj hpast
    exact (mem_filter.mp hpast).2 (mem_range.mp hj)
  have hwithin : ∑ j ∈ range m.layers, m.layerSum j +
      ∑ j ∈ range n with ¬ j < m.layers, m.expertSum j ≤ exactSum m.tensors :=
    sums_le m.tensors hdisjoint
  have hfile := hm.sum_le
  simp only [Model.onGPU, sum_sub_distrib]
  omega

theorem Model.Sized.weights_nonneg (n l : Nat) : 0 ≤ m.weights n l := by
  have hle := hm.experts_le n
  unfold Model.weights
  split
  · omega
  · exact sum_nonneg fun j _ => onGPU_nonneg n j

theorem Model.Sized.weights_le (n l : Nat) : m.weights n l ≤ m.artifactBytes.toInt := by
  have hpos : 0 ≤ ∑ j ∈ range n, m.expertSum j := sum_nonneg fun j _ => expertSum_nonneg j
  unfold Model.weights
  split
  · omega
  · have hsub : Ico (m.layers - l) m.layers ⊆ range m.layers := by
      intro j hj
      exact mem_range.mpr (mem_Ico.mp hj).2
    have hmore := sum_le_sum_of_subset_of_nonneg hsub fun j _ _ => onGPU_nonneg (m := m) n j
    have hseam := hm.seam n
    omega

theorem Model.Sized.weights_mono (h : l ≤ l') : m.weights n l ≤ m.weights n l' := by
  unfold Model.weights
  by_cases hl' : m.layers < l'
  · rw [if_pos hl']
    split
    · exact Int.le_refl _
    · have hsub : Ico (m.layers - l) m.layers ⊆ range m.layers := by
        intro j hj
        exact mem_range.mpr (mem_Ico.mp hj).2
      have hmore := sum_le_sum_of_subset_of_nonneg hsub fun j _ _ => onGPU_nonneg (m := m) n j
      exact hmore.trans (hm.seam n)
  · rw [if_neg hl', if_neg (by omega)]
    refine sum_le_sum_of_subset_of_nonneg ?_ fun j _ _ => onGPU_nonneg n j
    exact Ico_subset_Ico_left (by omega)

omit hm in
theorem weights_anti (h : n ≤ n') : m.weights n' l ≤ m.weights n l := by
  unfold Model.weights
  split
  · have hmore : ∑ j ∈ range n, m.expertSum j ≤ ∑ j ∈ range n', m.expertSum j :=
      sum_le_sum_of_subset_of_nonneg (range_mono h) fun j _ _ => expertSum_nonneg j
    omega
  · refine sum_le_sum fun j _ => ?_
    have hpos := expertSum_nonneg (m := m) j
    unfold Model.onGPU
    split <;> split <;> omega

end Sums

/-! ## The share of the cache -/

section Share

variable {m : Model} {kv : Int64} {l l' : Nat} (hkv : 0 ≤ kv.toInt)
include hkv

theorem share_nonneg : 0 ≤ m.share kv l := by
  unfold Model.share
  split
  · exact hkv
  · exact Int.ediv_nonneg (mul_nonneg hkv (Int.natCast_nonneg l)) (Int.natCast_nonneg _)

theorem share_le : m.share kv l ≤ kv.toInt := by
  unfold Model.share
  split
  · exact Int.le_refl _
  · next hl =>
    rcases Nat.eq_zero_or_pos m.layers with hzero | hpos
    · rw [hzero, Nat.cast_zero, Int.ediv_zero]
      exact hkv
    · refine Int.ediv_le_of_le_mul (by omega) (mul_le_mul_of_nonneg_left ?_ hkv)
      omega

theorem share_mono (h : l ≤ l') : m.share kv l ≤ m.share kv l' := by
  unfold Model.share
  by_cases hl' : m.layers < l'
  · rw [if_pos hl']
    exact share_le hkv
  · rw [if_neg hl', if_neg (by omega)]
    rcases Nat.eq_zero_or_pos m.layers with hzero | hpos
    · simp [hzero]
    · refine Int.ediv_le_ediv (by omega) (mul_le_mul_of_nonneg_left ?_ hkv)
      omega

end Share

/-! ## The 64-bit figures -/

section Figures

variable {m : Model} {kv : Int64} {n l : Nat}

theorem toInt_eq_of_bmod {x : Int64} {y : Int} (h : x.toInt = y.bmod (2 ^ 64)) (h0 : 0 ≤ y)
    (hlt : y < 2 ^ 63) : x.toInt = y :=
  h.trans ((bmod_eq_self_iff h0).mpr hlt)

variable (hm : m.Sized)
include hm

theorem Model.Sized.byLayer (j : Nat) : ((measure m).experts.byLayer j).toInt = m.expertSum j := by
  rw [measure_experts, byLayer_eq]
  refine (bytesOf_eq_iff fun t ht => (hm.exact t (mem_expertsOf ht)).2).mpr ?_
  have hone : m.expertSum j ≤ ∑ i ∈ range (j + 1), m.expertSum i :=
    single_le_sum (fun i _ => expertSum_nonneg i) (mem_range.mpr (Nat.lt_succ_self j))
  have hle := hone.trans (hm.experts_le (j + 1))
  have hlt := Int64.toInt_lt m.artifactBytes
  exact hle.trans_lt hlt

theorem Model.Sized.layer {j : Nat} (hj : j < m.layers) :
    ((measure m).layer.getD j 0).toInt = m.layerSum j := by
  rw [layer_eq hj]
  refine (bytesOf_eq_iff fun t ht => (hm.exact t (mem_layersOf ht)).2).mpr ?_
  have hone : m.layerSum j ≤ ∑ i ∈ range m.layers, m.layerSum i :=
    single_le_sum (fun i _ => exactSum_nonneg _) (mem_range.mpr hj)
  have hle := hone.trans hm.layers_le
  have hlt := Int64.toInt_lt m.artifactBytes
  exact hle.trans_lt hlt

theorem Model.Sized.hostExperts (n : Nat) :
    ((measure m).hostExperts n).toInt = ∑ j ∈ range n, m.expertSum j := by
  have hlt := Int64.toInt_lt m.artifactBytes
  induction n with
  | zero => rfl
  | succ n ih =>
    have hle := hm.experts_le (n + 1)
    have hpos : 0 ≤ ∑ j ∈ range (n + 1), m.expertSum j :=
      sum_nonneg fun j _ => expertSum_nonneg j
    have hstep : (measure m).hostExperts (n + 1) =
        (measure m).hostExperts n + (measure m).experts.byLayer n := by
      unfold Sizes.hostExperts
      rw [List.range_succ, List.foldl_append]
      rfl
    refine toInt_eq_of_bmod ?_ hpos (hle.trans_lt hlt)
    rw [hstep, Int64.toInt_add, ih, hm.byLayer, sum_range_succ]

omit hm in
theorem Model.Sized.someWeights (hm : m.Sized) (n a : Nat) {k : Nat} (hk : a + k ≤ m.layers) :
    ((List.range' a k).foldl (fun weights j =>
        let weights := weights + (measure m).layer.getD j 0
        if j < n then weights - (measure m).experts.byLayer j else weights) 0).toInt =
      ∑ j ∈ Ico a (a + k), m.onGPU n j := by
  have hlt := Int64.toInt_lt m.artifactBytes
  induction k with
  | zero => simp
  | succ k ih =>
    have hpos : 0 ≤ ∑ j ∈ Ico a (a + (k + 1)), m.onGPU n j :=
      sum_nonneg fun j _ => onGPU_nonneg n j
    have hle : ∑ j ∈ Ico a (a + (k + 1)), m.onGPU n j ≤ m.artifactBytes.toInt := by
      have hsub : Ico a (a + (k + 1)) ⊆ range m.layers := by
        intro j hj
        have hj' := (mem_Ico.mp hj).2
        exact mem_range.mpr (by omega)
      have hmore := sum_le_sum_of_subset_of_nonneg hsub fun j _ _ => onGPU_nonneg (m := m) n j
      have hseam := hm.seam n
      have hexperts : 0 ≤ ∑ j ∈ range n, m.expertSum j :=
        sum_nonneg fun j _ => expertSum_nonneg j
      omega
    refine toInt_eq_of_bmod ?_ hpos (hle.trans_lt hlt)
    have hlast : ∑ j ∈ Ico a (a + (k + 1)), m.onGPU n j =
        ∑ j ∈ Ico a (a + k), m.onGPU n j + m.onGPU n (a + k) :=
      sum_Ico_succ_top (Nat.le_add_right a k) _
    rw [List.range'_1_concat, List.foldl_append, hlast, ← ih (by omega)]
    generalize (List.range' a k).foldl _ 0 = w
    have hlayer := hm.layer (j := a + k) (by omega)
    have hexperts := hm.byLayer (a + k)
    show Int64.toInt (if a + k < n then _ else _) = _
    unfold Model.onGPU
    split
    · rw [Int64.toInt_sub, Int64.toInt_add, Int.bmod_sub_bmod, hlayer, hexperts]
      congr 1
      ring
    · rw [Int64.toInt_add, hlayer, sub_zero]

theorem Model.Sized.lastWeights (hl : l ≤ m.layers) :
    ((measure m).gpuWeights m.layers (min l m.layers) n).toInt = m.weights n l := by
  unfold Sizes.gpuWeights Model.weights
  rw [Nat.min_eq_left hl, if_neg (by omega), hm.someWeights n (m.layers - l) (by omega),
    Nat.sub_add_cancel hl]

theorem Model.Sized.fileWeights (hl : m.layers < l) :
    (m.artifactBytes - (measure m).hostExperts n).toInt = m.weights n l := by
  have hlt := Int64.toInt_lt m.artifactBytes
  have hnonneg := hm.weights_nonneg n l
  have hle := hm.weights_le n l
  refine toInt_eq_of_bmod ?_ hnonneg (hle.trans_lt hlt)
  rw [Int64.toInt_sub, hm.hostExperts, Model.weights, if_pos hl]

omit hm in
theorem cacheShare (hkv : 0 ≤ kv.toInt) (hfit : m.Holds kv) (hl : l ≤ m.layers) :
    (kv * Int64.ofNat (min l m.layers) / Int64.ofNat m.layers).toInt = m.share kv l := by
  have hshare := hfit.share
  unfold Model.share
  rw [Nat.min_eq_left hl, if_neg (by omega)]
  rcases hkv.eq_or_lt with hzero | hsome
  · have hkv0 : kv = 0 := Int64.toInt_inj.mp hzero.symm
    subst hkv0
    simp
  · have hle : (m.layers : Int) ≤ kv.toInt * m.layers := by
      have hone : 1 * (m.layers : Int) ≤ kv.toInt * m.layers :=
        mul_le_mul_of_nonneg_right (by omega) (Int.natCast_nonneg _)
      omega
    have hlayers : (Int64.ofNat m.layers).toInt = m.layers :=
      Int64.toInt_ofNat_of_lt (by omega)
    have hl64 : (Int64.ofNat l).toInt = l := Int64.toInt_ofNat_of_lt (by omega)
    have hmul : kv.toInt * l ≤ kv.toInt * m.layers :=
      mul_le_mul_of_nonneg_left (by omega) hkv
    have hmul0 : 0 ≤ kv.toInt * l := mul_nonneg hkv (Int.natCast_nonneg _)
    have hproduct : (kv * Int64.ofNat l).toInt = kv.toInt * l := by
      refine toInt_eq_of_bmod ?_ hmul0 (hmul.trans_lt hshare)
      rw [Int64.toInt_mul, hl64]
    have hdiv : kv.toInt * l / m.layers ≤ kv.toInt * l := Int.ediv_le_self _ hmul0
    have hdiv0 : 0 ≤ kv.toInt * l / m.layers := Int.ediv_nonneg hmul0 (Int.natCast_nonneg _)
    refine toInt_eq_of_bmod ?_ hdiv0 (hdiv.trans_lt (hmul.trans_lt hshare))
    rw [Int64.toInt_div, hproduct, hlayers, Int.tdiv_eq_ediv_of_nonneg hmul0]

theorem Model.Sized.evaluate (hkv : 0 ≤ kv.toInt) (hfit : m.Holds kv) (hpos : 0 < l) :
    ((measure m).evaluate m kv n l).gpu.toInt =
        m.weights n l + m.share kv l + workspaceBytes.toInt ∧
      ((measure m).evaluate m kv n l).host.toInt =
        m.artifactBytes.toInt - m.weights n l + kv.toInt - m.share kv l := by
  have hw0 := hm.weights_nonneg n l
  have hw := hm.weights_le n l
  have hs0 : 0 ≤ m.share kv l := share_nonneg hkv
  have hs : m.share kv l ≤ kv.toInt := share_le hkv
  have hgpu := hfit.gpu
  have hworkspace : workspaceBytes.toInt = 268435456 := by decide
  have hfigures : ∃ weights kvGPU : Int64, weights.toInt = m.weights n l ∧
      kvGPU.toInt = m.share kv l ∧
      ((measure m).evaluate m kv n l).gpu = weights + kvGPU + workspaceBytes ∧
      ((measure m).evaluate m kv n l).host = m.artifactBytes - weights + kv - kvGPU := by
    unfold Sizes.evaluate
    rw [if_neg (Nat.ne_of_gt hpos)]
    by_cases hl : m.layers < l
    · rw [if_pos (show l ≥ m.layers + 1 from hl)]
      exact ⟨_, kv, hm.fileWeights hl, (if_pos hl).symm, rfl, rfl⟩
    · rw [if_neg (show ¬ l ≥ m.layers + 1 from hl)]
      dsimp only
      rw [if_pos (by omega)]
      exact ⟨_, _, hm.lastWeights (not_lt.mp hl), cacheShare hkv hfit (not_lt.mp hl), rfl, rfl⟩
  obtain ⟨weights, kvGPU, hweights, hkvGPU, hg, hh⟩ := hfigures
  constructor
  · rw [hg]
    refine toInt_eq_of_bmod ?_ (by omega) (by omega)
    rw [Int64.toInt_add, Int64.toInt_add, Int.bmod_add_bmod, hweights, hkvGPU]
  · rw [hh]
    refine toInt_eq_of_bmod ?_ (by omega) (by omega)
    rw [Int64.toInt_sub, Int64.toInt_add, Int64.toInt_sub, Int.bmod_add_bmod, Int.bmod_sub_bmod,
      hweights, hkvGPU]

end Figures

/-! ## The law of the splits -/

section Law

variable {m : Model} {kv : Int64}

theorem toInt_without_gpu (n : Nat) : ((measure m).evaluate m kv n 0).gpu.toInt = 0 ∧
    ((measure m).evaluate m kv n 0).host.toInt =
      (m.artifactBytes.toInt + kv.toInt + m.hostExtraBytes.toInt).bmod (2 ^ 64) := by
  refine ⟨rfl, ?_⟩
  show (m.artifactBytes + kv + m.hostExtraBytes).toInt = _
  rw [Int64.toInt_add, Int64.toInt_add, Int.bmod_add_bmod]

theorem host_of_whole_model : ((measure m).evaluate m kv 0 (m.layers + 1)).host = 0 := by
  have hevaluate : ((measure m).evaluate m kv 0 (m.layers + 1)).host =
      m.artifactBytes - (m.artifactBytes - (measure m).hostExperts 0) + kv - kv := by
    unfold Sizes.evaluate
    rw [if_neg (Nat.succ_ne_zero _), if_pos (Nat.le_refl _)]
  have hnone : (measure m).hostExperts 0 = 0 := rfl
  rw [hevaluate, hnone]
  grind

/-- With sums that 64 bits hold, no byte is lost and none is counted twice, and
the two sides move one way: with more layers on the GPU, and with more layers of
experts on the host. -/
theorem Model.Holds.keeps (hm : m.Sized) (hkv : 0 ≤ kv.toInt) (hfit : m.Holds kv) :
    m.KeepsBytes kv := by
  intro n l _ s sp
  have hworkspace : workspaceBytes.toInt = 268435456 := by decide
  rcases Nat.eq_zero_or_pos l with rfl | hpos
  · obtain ⟨hhost0, hhost⟩ := hfit.host
    have hnone : ∀ k, (s.evaluate m kv k 0).gpu.toInt = 0 ∧
        (s.evaluate m kv k 0).host.toInt =
          m.artifactBytes.toInt + kv.toInt + m.hostExtraBytes.toInt := fun k => by
      rw [← (bmod_eq_self_iff hhost0).mpr hhost]
      exact toInt_without_gpu k
    have hn : sp.gpu.toInt = 0 ∧ sp.host.toInt = _ := hnone n
    refine ⟨by omega, by omega, fun h => absurd h (lt_irrefl 0), fun h => absurd h (lt_irrefl 0),
      fun more _ => ?_⟩
    have hmore := hnone more
    omega
  · have hn : sp.gpu.toInt = _ ∧ sp.host.toInt = _ := hm.evaluate hkv hfit hpos
    have hw0 := hm.weights_nonneg n l
    have hw := hm.weights_le n l
    have hs0 : 0 ≤ m.share kv l := share_nonneg hkv
    have hs : m.share kv l ≤ kv.toInt := share_le hkv
    refine ⟨by omega, by omega, fun _ => by omega, fun _ more hle _ => ?_, fun more hle => ?_⟩
    · have hmore : (s.evaluate m kv n more).gpu.toInt = _ ∧
          (s.evaluate m kv n more).host.toInt = _ :=
        hm.evaluate hkv hfit (lt_of_lt_of_le hpos hle)
      have hweights := hm.weights_mono (n := n) hle
      have hshare : m.share kv l ≤ m.share kv more := share_mono hkv hle
      omega
    · have hmore : (s.evaluate m kv more l).gpu.toInt = _ ∧
          (s.evaluate m kv more l).host.toInt = _ := hm.evaluate hkv hfit hpos
      have hweights : m.weights more l ≤ m.weights n l := weights_anti hle
      omega

/-- A split of the whole model shows the sum of the GPU, and one that leaves the
GPU out the sum of the host. -/
theorem Model.KeepsBytes.holds (hm : m.Sized) (hkv : 0 ≤ kv.toInt)
    (hshare : kv.toInt * m.layers < 2 ^ 63) (h : m.KeepsBytes kv) : m.Holds kv := by
  have hworkspace : workspaceBytes.toInt = 268435456 := by decide
  have hA : 0 ≤ m.artifactBytes.toInt := (exactSum_nonneg m.tensors).trans hm.sum_le
  obtain ⟨-, -, hsum, -⟩ := h 0 (m.layers + 1) (Nat.le_refl _)
  have hgpu : m.artifactBytes.toInt + kv.toInt + workspaceBytes.toInt < 2 ^ 63 := by
    have hwhole := hsum (Nat.succ_pos _)
    have hlt := Int64.toInt_lt ((measure m).evaluate m kv 0 (m.layers + 1)).gpu
    rw [host_of_whole_model, Int64.toInt_zero, add_zero] at hwhole
    omega
  obtain ⟨-, hhost, -⟩ := h 0 0 (Nat.zero_le _)
  have hextra := Int64.le_toInt m.hostExtraBytes
  have hextra' := Int64.toInt_lt m.hostExtraBytes
  rw [(toInt_without_gpu 0).2] at hhost
  obtain ⟨k, hk⟩ := Int.dvd_bmod_sub_self
    (x := m.artifactBytes.toInt + kv.toInt + m.hostExtraBytes.toInt) (m := 2 ^ 64)
  have hlt := Int.bmod_lt (x := m.artifactBytes.toInt + kv.toInt + m.hostExtraBytes.toInt)
    (m := 2 ^ 64) (by decide)
  exact ⟨hgpu, by omega, hshare⟩

end Law

/-- While 64 bits hold the product that shares the cache out, the splits lose no
byte exactly when 64 bits hold the two sums. -/
theorem keepsBytes_iff {m : Model} {kv : Int64} (hm : m.Sized) (hkv : 0 ≤ kv.toInt)
    (hshare : kv.toInt * m.layers < 2 ^ 63) : m.KeepsBytes kv ↔ m.Holds kv :=
  ⟨fun h => h.holds hm hkv hshare, fun h => h.keeps hm hkv⟩

theorem twoExperts_sized : twoExperts.Sized where
  exact t ht := by
    simp only [twoExperts, List.mem_cons, List.not_mem_nil, or_false] at ht
    rcases ht with rfl | rfl
    · exact ⟨⟨(4, 1), rfl, by decide⟩, by decide⟩
    · exact ⟨⟨(4, 1), rfl, by decide⟩, by decide⟩
  sum_le := by decide

theorem twoExperts_keepsBytes_iff : twoExperts.KeepsBytes 4096 ↔ twoExperts.Holds 4096 :=
  keepsBytes_iff twoExperts_sized (by decide) (by decide)

/-- A model of 4096 layers, with its embedding and nothing else in the file. -/
def manyLayers : Model where
  tensors := [⟨"token_embd.weight", [2, 32], 0⟩]
  artifactBytes := 1048576
  layers := 4096
  hostExtraBytes := 0

theorem manyLayers_sized : manyLayers.Sized where
  exact t ht := by
    obtain rfl := List.mem_singleton.mp ht
    exact ⟨⟨(4, 1), rfl, by decide⟩, by decide⟩
  sum_le := by decide

theorem manyLayers_weights : manyLayers.weights 0 513 = 0 := by
  unfold Model.weights
  rw [if_neg (by decide)]
  refine sum_eq_zero fun j _ => ?_
  have hlayer : layerOf "token_embd.weight" = none := by decide
  have hnone : manyLayers.layerSum j = 0 := by
    simp [Model.layerSum, layersOf, manyLayers, hlayer, exactSum]
  rw [Model.onGPU, hnone, if_neg (Nat.not_lt_zero j), sub_zero]

/-- With a cache of 2^54 bytes the product of 513 of the layers is past 64 bits,
and the split leaves the GPU less than nothing. -/
theorem share_of_huge_cache_wraps :
    ¬ ∀ (m : Model) (kv : Int64), m.Sized → 0 ≤ kv.toInt → m.KeepsBytes kv := by
  intro h
  obtain ⟨hgpu, -⟩ := h manyLayers 18014398509481984 manyLayers_sized (by decide) 0 513 (by decide)
  have hweights := manyLayers_sized.lastWeights (n := 0) (l := 513) (by decide)
  rw [manyLayers_weights] at hweights
  have hevaluate : ((measure manyLayers).evaluate manyLayers 18014398509481984 0 513).gpu =
      (measure manyLayers).gpuWeights manyLayers.layers (min 513 manyLayers.layers) 0 +
        18014398509481984 * Int64.ofNat 513 / Int64.ofNat 4096 + workspaceBytes := rfl
  rw [hevaluate, Int64.toInt_inj.mp (hweights.trans Int64.toInt_zero.symm)] at hgpu
  exact absurd hgpu (by decide)

end LocalBase.Placement
