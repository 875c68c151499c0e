import LocalBase.Placement.Order

/-!
# Tensor sizes as integers

`TensorBytes` multiplies dimensions that a file claims, in 64 bits and without
a check. The product it sees is the exact one up to a multiple of 2^64, and the
blocks divide 2^64, so it calls a size known exactly when the exact product is a
whole number of blocks. The size it then gives is the exact one only below 2^63,
for the product as well as for the bytes: a product past that never comes out
right by accident, because no block is so small that the lost part is a whole
number of times 2^64 bytes. The sums over the tensors add in the same way.
-/

namespace LocalBase.Placement

/-! ## Sums of 64-bit numbers -/

/-- The loop that adds the numbers up. -/
def addUp (xs : List Int64) : Int64 := xs.foldl (· + ·) 0

theorem addUp_concat (xs : List Int64) (x : Int64) : addUp (xs ++ [x]) = addUp xs + x := by
  rw [addUp, List.foldl_append]
  rfl

theorem toInt_addUp (xs : List Int64) :
    (addUp xs).toInt = (xs.map Int64.toInt).sum.bmod (2 ^ 64) := by
  induction xs using List.reverseRecOn with
  | nil => rfl
  | append_singleton xs x ih =>
    rw [addUp_concat, Int64.toInt_add, ih, Int.bmod_add_bmod, List.map_append, List.sum_append]
    simp

theorem bmod_eq_self_iff {n : Int} (hn : 0 ≤ n) : n.bmod (2 ^ 64) = n ↔ n < 2 ^ 63 := by
  constructor
  · intro h
    have hlt := Int.bmod_lt (x := n) (m := 2 ^ 64) (by decide)
    rw [h] at hlt
    omega
  · intro h
    exact Int.bmod_eq_of_le (by omega) (by omega)

/-! ## The exact size -/

namespace Tensor

/-- The product of the dimensions. -/
def elements (t : Tensor) : Nat := (t.dims.map UInt64.toNat).prod

/-- The type is sized, and the elements are a whole number of its blocks. -/
def Whole (t : Tensor) : Prop :=
  ∃ s, typeSizes t.type = some s ∧ s.2.toInt ∣ t.elements

/-- The product of the dimensions times the block's bytes over its values. -/
def exactBytes (t : Tensor) : Int :=
  match typeSizes t.type with
  | none => 0
  | some s => t.elements * s.1.toInt / s.2.toInt

/-- 64 bits hold the product of the dimensions and the size. -/
def Representable (t : Tensor) : Prop := (t.elements : Int) < 2 ^ 63 ∧ t.exactBytes < 2 ^ 63

end Tensor

/-- What the table of types has in common: a block is some bytes for some
values, and 2^64 values are a whole number of blocks. -/
theorem typeSizes_pos {type : UInt32} {s : Int64 × Int64} (h : typeSizes type = some s) :
    0 < s.1.toInt ∧ 0 < s.2.toInt ∧ s.2.toInt ∣ 2 ^ 64 := by
  unfold typeSizes at h
  split at h <;> first | (cases h; decide) | cases h

/-- The product the code computes. -/
def product (dims : List UInt64) : Int64 := dims.foldl (fun n d => n * d.toInt64) 1

theorem toInt_product (dims : List UInt64) :
    (product dims).toInt = ((dims.map UInt64.toNat).prod : Int).bmod (2 ^ 64) := by
  induction dims using List.reverseRecOn with
  | nil => rfl
  | append_singleton dims d ih =>
    have hd : d.toInt64.toInt = (d.toNat : Int).bmod (2 ^ 64) := by
      rw [← UInt64.ofNat_toNat (x := d), UInt64.toInt64_ofNat', Int64.toInt_ofNat']
      simp
    rw [product, List.foldl_append]
    show (product dims * d.toInt64).toInt = _
    rw [Int64.toInt_mul, ih, hd, Int.bmod_mul_bmod, Int.mul_bmod_bmod]
    simp

/-! ## What a known size is -/

variable {t : Tensor} {sized : Int64 × Int64}

theorem tensorBytes_eq (h : typeSizes t.type = some sized) :
    tensorBytes t = (product t.dims / sized.2 * sized.1, product t.dims % sized.2 == 0) := by
  unfold tensorBytes
  rw [h]
  rfl

theorem product_off (t : Tensor) :
    ∃ k : Int, (product t.dims).toInt = t.elements - 2 ^ 64 * k ∧
      -2 ^ 63 ≤ t.elements - 2 ^ 64 * k ∧ t.elements - 2 ^ 64 * k < 2 ^ 63 := by
  obtain ⟨k, hk⟩ : ((2 ^ 64 : Nat) : Int) ∣ (t.elements : Int).bmod (2 ^ 64) - t.elements :=
    Int.dvd_bmod_sub_self
  have hlow := Int64.le_toInt (product t.dims)
  have hhigh := Int64.toInt_lt (product t.dims)
  have heq : (product t.dims).toInt = (t.elements : Int).bmod (2 ^ 64) := toInt_product t.dims
  refine ⟨-k, ?_, ?_, ?_⟩ <;> omega

theorem known_iff : (tensorBytes t).2 = true ↔ t.Whole := by
  cases h : typeSizes t.type with
  | none =>
    have hno : (tensorBytes t).2 = false := by
      unfold tensorBytes
      rw [h]
    rw [hno]
    refine iff_of_false Bool.false_ne_true ?_
    rintro ⟨sized, hsized, _⟩
    cases h.symm.trans hsized
  | some sized =>
    obtain ⟨_, _, hdvd⟩ := typeSizes_pos h
    obtain ⟨k, hk, _, _⟩ := product_off t
    have hlost : sized.2.toInt ∣ 2 ^ 64 * k := Dvd.dvd.mul_right hdvd k
    rw [tensorBytes_eq h]
    show (product t.dims % sized.2 == 0) = true ↔ _
    rw [beq_iff_eq, ← Int64.toInt_inj, Int64.toInt_mod, hk]
    show (t.elements - 2 ^ 64 * k : Int).tmod sized.2.toInt = 0 ↔ _
    rw [← Int.dvd_iff_tmod_eq_zero, dvd_sub_left hlost]
    constructor
    · exact fun hwhole => ⟨sized, h, hwhole⟩
    · rintro ⟨sized', hsized', hwhole⟩
      cases h.symm.trans hsized'
      exact hwhole

/-- A size that is called known is the exact one if and only if 64 bits hold
both the product of the dimensions and the size. -/
theorem exact_iff (h : t.Whole) : (tensorBytes t).1.toInt = t.exactBytes ↔ t.Representable := by
  obtain ⟨⟨bytes64, values64⟩, hsized, p, hp⟩ := h
  obtain ⟨hbytes, hvalues, c, hc⟩ := typeSizes_pos hsized
  obtain ⟨k, hk, hlow, hhigh⟩ := product_off t
  simp only [] at hp hbytes hvalues hc
  generalize hb : bytes64.toInt = bytes at *
  generalize hv : values64.toInt = values at *
  have hpos : 0 ≤ p := by
    by_contra hneg
    have hlt : values * p < 0 := mul_neg_of_pos_of_neg hvalues (not_le.mp hneg)
    omega
  have hexact : t.exactBytes = p * bytes := by
    unfold Tensor.exactBytes
    rw [hsized]
    show (t.elements : Int) * bytes64.toInt / values64.toInt = _
    rw [hb, hv, hp, mul_assoc, Int.mul_ediv_cancel_left _ hvalues.ne']
  -- The blocks the code counts, off by the blocks of the lost part.
  have hcount : (product t.dims).toInt = values * (p - c * k) := by
    rw [hk, hp, hc]
    ring
  have hsize : (tensorBytes t).1.toInt = ((p - c * k) * bytes).bmod (2 ^ 64) := by
    rw [tensorBytes_eq hsized]
    show (product t.dims / values64 * bytes64).toInt = _
    rw [Int64.toInt_mul, Int64.toInt_div, hcount, hb, hv, Int.mul_tdiv_cancel_left _ hvalues.ne',
      Int.bmod_mul_bmod]
  unfold Tensor.Representable
  rw [hexact, hp, hsize]
  constructor
  · intro heq
    have hlt : p * bytes < 2 ^ 63 := by
      have hbound := Int.bmod_lt (x := (p - c * k) * bytes) (m := 2 ^ 64) (by decide)
      omega
    refine ⟨?_, hlt⟩
    by_contra hbig
    rw [not_lt] at hbig
    have hlost : 0 < k := by
      rw [hp] at hhigh
      omega
    rcases le_or_gt bytes values with hsmall | hlarge
    · -- The lost part would be a whole number of times 2^64 bytes.
      have hdvd : values ∣ k * bytes := by
        have hoff : ((2 ^ 64 : Nat) : Int) ∣ ((p - c * k) * bytes).bmod (2 ^ 64) -
            (p - c * k) * bytes := Int.dvd_bmod_sub_self
        rw [heq] at hoff
        have hrest : p * bytes - (p - c * k) * bytes = c * (k * bytes) := by ring
        have hcval : ((2 ^ 64 : Nat) : Int) = c * values := by
          rw [mul_comm c, ← hc]
          rfl
        rw [hrest, hcval] at hoff
        have hcpos : c ≠ 0 := by
          rintro rfl
          omega
        exact (mul_dvd_mul_iff_left hcpos).mp hoff
      have hle := Int.le_of_dvd (mul_pos hlost hbytes) hdvd
      have hmul : 2 ^ 64 * (k * bytes) ≤ (values * p + 2 ^ 63) * bytes := by
        rw [hp] at hlow
        have hstep : 2 ^ 64 * k ≤ values * p + 2 ^ 63 := by omega
        calc 2 ^ 64 * (k * bytes) = 2 ^ 64 * k * bytes := by ring
          _ ≤ (values * p + 2 ^ 63) * bytes := mul_le_mul_of_nonneg_right hstep hbytes.le
      have hfit : values * (p * bytes) ≤ values * (2 ^ 63 - 1) :=
        mul_le_mul_of_nonneg_left (by omega) hvalues.le
      nlinarith
    · have hle : p * values ≤ p * bytes := mul_le_mul_of_nonneg_left hlarge.le hpos
      rw [mul_comm] at hbig
      omega
  · rintro ⟨hproduct, hbyteslt⟩
    have hlost : k = 0 := by
      rw [hp] at hlow hhigh
      have hnonneg : 0 ≤ values * p := mul_nonneg hvalues.le hpos
      omega
    rw [hlost, mul_zero, sub_zero]
    exact (bmod_eq_self_iff (mul_nonneg hpos hbytes.le)).mpr hbyteslt

/-! ## What the planner's sums are -/

variable {m : Model} {ts : List Tensor} {l : Nat}

def layersOf (ts : List Tensor) (l : Nat) : List Tensor :=
  ts.filter fun t => layerOf t.name = some l

theorem layersOf_concat (t : Tensor) : layersOf (ts ++ [t]) l =
    layersOf ts l ++ if layerOf t.name = some l then [t] else [] := by
  simp [layersOf, List.filter_append, List.filter_cons]

/-- The exact size of some tensors. -/
def exactSum (ts : List Tensor) : Int := (ts.map Tensor.exactBytes).sum

/-- What the planner adds up for them. -/
def bytesOf (ts : List Tensor) : Int64 := addUp (ts.map fun t => (tensorBytes t).1)

theorem bytesOf_concat (t : Tensor) : bytesOf (ts ++ [t]) = bytesOf ts + (tensorBytes t).1 := by
  rw [bytesOf, List.map_append, List.map_singleton, addUp_concat]
  rfl

theorem byLayer_eq (ts : List Tensor) (l : Nat) :
    (experts ts).byLayer l = bytesOf (expertsOf ts l) := by
  induction ts using List.reverseRecOn with
  | nil => rfl
  | append_singleton ts t ih =>
    rw [experts_concat, expertsOf_concat, ExpertSet.add]
    cases h : expertLayer t.name with
    | none => simp [ih]
    | some l' =>
      by_cases hl : l = l'
      · subst hl
        rw [if_pos rfl, bytesOf_concat, ← ih]
        exact Function.update_self ..
      · rw [if_neg fun heq => hl (Option.some.inj heq).symm, List.append_nil, ← ih]
        exact Function.update_of_ne hl ..

theorem add_layer_length (s : Sizes) (n : Nat) (t : Tensor) :
    (s.add n t).layer.length = s.layer.length := by
  unfold Sizes.add
  dsimp only
  split <;> split <;> (try split) <;> simp

theorem add_layer {s : Sizes} {n : Nat} (hn : s.layer.length = n) (hl : l < n) (t : Tensor) :
    (s.add n t).layer.getD l 0 =
      if layerOf t.name = some l then s.layer.getD l 0 + (tensorBytes t).1
      else s.layer.getD l 0 := by
  unfold Sizes.add
  cases hb : tensorBytes t with
  | mk b ok =>
    cases h : layerOf t.name with
    | none =>
      cases ok <;> dsimp only <;> split <;> simp
    | some l' =>
      by_cases heq : l' = l
      · subst heq
        cases ok <;> simp [hl, hn]
      · cases ok <;> dsimp only <;> split <;> simp [heq]

/-- The tensors measured, for a number of layers. -/
def measureOf (e : ExpertSet) (n : Nat) (ts : List Tensor) : Sizes :=
  ts.foldl (Sizes.add n) ⟨List.replicate n 0, 0, e, false⟩

theorem measured_layers (e : ExpertSet) (n : Nat) (ts : List Tensor) :
    (measureOf e n ts).layer.length = n ∧
      ∀ l < n, (measureOf e n ts).layer.getD l 0 = bytesOf (layersOf ts l) := by
  induction ts using List.reverseRecOn with
  | nil =>
    refine ⟨List.length_replicate, fun l hl => ?_⟩
    show (List.replicate n (0 : Int64)).getD l 0 = 0
    rw [List.getD_eq_getElem?_getD, List.getElem?_replicate, if_pos hl]
    rfl
  | append_singleton ts t ih =>
    obtain ⟨hlen, hsum⟩ := ih
    rw [measureOf, List.foldl_append]
    refine ⟨(add_layer_length _ n t).trans hlen, fun l hl => ?_⟩
    show ((measureOf e n ts).add n t).layer.getD l 0 = _
    rw [add_layer hlen hl, hsum l hl, layersOf_concat]
    by_cases h : layerOf t.name = some l
    · rw [if_pos h, if_pos h, bytesOf_concat]
    · rw [if_neg h, if_neg h, List.append_nil]

theorem layer_eq (hl : l < m.layers) :
    (measure m).layer.getD l 0 = bytesOf (layersOf m.tensors l) :=
  (measured_layers (experts m.tensors) m.layers m.tensors).2 l hl

theorem exactBytes_nonneg (t : Tensor) : 0 ≤ t.exactBytes := by
  unfold Tensor.exactBytes
  cases h : typeSizes t.type with
  | none => exact Int.le_refl 0
  | some sized =>
    obtain ⟨hbytes, hvalues, _⟩ := typeSizes_pos h
    exact Int.ediv_nonneg (mul_nonneg (Int.natCast_nonneg _) hbytes.le) hvalues.le

theorem exactSum_nonneg (ts : List Tensor) : 0 ≤ exactSum ts :=
  List.sum_nonneg fun n hn => by
    obtain ⟨t, _, rfl⟩ := List.mem_map.mp hn
    exact exactBytes_nonneg t

theorem bytesOf_eq_iff (h : ∀ t ∈ ts, (tensorBytes t).1.toInt = t.exactBytes) :
    (bytesOf ts).toInt = exactSum ts ↔ exactSum ts < 2 ^ 63 := by
  have hmap : (ts.map fun t => (tensorBytes t).1).map Int64.toInt = ts.map Tensor.exactBytes := by
    rw [List.map_map]
    exact List.map_congr_left h
  rw [bytesOf, toInt_addUp, hmap]
  exact bmod_eq_self_iff (exactSum_nonneg ts)

theorem mem_expertsOf {t : Tensor} (h : t ∈ expertsOf ts l) : t ∈ ts :=
  (List.mem_filter.mp h).1

theorem mem_layersOf {t : Tensor} (h : t ∈ layersOf ts l) : t ∈ ts :=
  (List.mem_filter.mp h).1

/-! ## When the sizes are right -/

/-- The sizes a file gives are exact: each one that is called known, and, when
all are, what is added up for the experts and for the layers. -/
structure Model.SizesExact (m : Model) : Prop where
  known : ∀ t ∈ m.tensors, (tensorBytes t).2 = true → (tensorBytes t).1.toInt = t.exactBytes
  experts : (∀ t ∈ m.tensors, (tensorBytes t).2 = true) →
    ∀ l, ((measure m).experts.byLayer l).toInt = exactSum (expertsOf m.tensors l)
  layers : (∀ t ∈ m.tensors, (tensorBytes t).2 = true) →
    ∀ l < m.layers, ((measure m).layer.getD l 0).toInt = exactSum (layersOf m.tensors l)

/-- 64 bits hold the figures: of each tensor that is a whole number of blocks,
and, when all are, the sums of the experts and of the layers. -/
structure Model.SizesRepresentable (m : Model) : Prop where
  whole : ∀ t ∈ m.tensors, t.Whole → t.Representable
  experts : (∀ t ∈ m.tensors, t.Whole) → ∀ l, exactSum (expertsOf m.tensors l) < 2 ^ 63
  layers : (∀ t ∈ m.tensors, t.Whole) →
    ∀ l < m.layers, exactSum (layersOf m.tensors l) < 2 ^ 63

/-- The sizes read from a file are exact if and only if 64 bits hold them. -/
theorem sizes_exact_iff (m : Model) : m.SizesExact ↔ m.SizesRepresentable := by
  have hall : (∀ t ∈ m.tensors, (tensorBytes t).2 = true) ↔ ∀ t ∈ m.tensors, t.Whole :=
    forall₂_congr fun t _ => known_iff
  constructor
  · intro h
    refine ⟨fun t ht hwhole => (exact_iff hwhole).mp (h.known t ht (known_iff.mpr hwhole)), ?_, ?_⟩
    · intro hwhole l
      have hsum := h.experts (hall.mpr hwhole) l
      rw [measure_experts, byLayer_eq] at hsum
      exact (bytesOf_eq_iff fun t ht => h.known t (mem_expertsOf ht)
        (hall.mpr hwhole t (mem_expertsOf ht))).mp hsum
    · intro hwhole l hl
      have hsum := h.layers (hall.mpr hwhole) l hl
      rw [layer_eq hl] at hsum
      exact (bytesOf_eq_iff fun t ht => h.known t (mem_layersOf ht)
        (hall.mpr hwhole t (mem_layersOf ht))).mp hsum
  · intro h
    have hknown : ∀ t ∈ m.tensors, (tensorBytes t).2 = true →
        (tensorBytes t).1.toInt = t.exactBytes := by
      intro t ht hk
      have hwhole := known_iff.mp hk
      exact (exact_iff hwhole).mpr (h.whole t ht hwhole)
    refine ⟨hknown, ?_, ?_⟩
    · intro hk l
      rw [measure_experts, byLayer_eq]
      exact (bytesOf_eq_iff fun t ht => hknown t (mem_expertsOf ht) (hk t (mem_expertsOf ht))).mpr
        (h.experts (hall.mp hk) l)
    · intro hk l hl
      rw [layer_eq hl]
      exact (bytesOf_eq_iff fun t ht => hknown t (mem_layersOf ht) (hk t (mem_layersOf ht))).mpr
        (h.layers (hall.mp hk) l hl)

/-- One tensor that claims 2^32 rows of 2^32 values: the product wraps to
nothing, and nothing is a known size. -/
def hugeTensor : Model where
  tensors := [⟨"blk.0.attn_q.weight", [4294967296, 4294967296], 0⟩]
  artifactBytes := 4096
  layers := 1
  hostExtraBytes := 0

theorem huge_tensor_weighs_nothing : ¬ hugeTensor.SizesExact := by
  intro h
  have hnone := h.known _ List.mem_cons_self (by decide)
  exact absurd hnone (by decide)

end LocalBase.Placement
