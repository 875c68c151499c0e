import LocalBase.Gguf.Geometry

/-!
# A hostile header

Whatever the header says, each index is of a layer below the block count, in a slice
of that length, and each divisor was looked at: the planner does not crash. What it
returns is within the limits the code declares, except where a value's length is not
given and comes from dividing the embedding among the heads. That the code compares
with the limit only where the key's length comes from it too.
-/

namespace LocalBase.Gguf

open Checked

/-! ## Values -/

theorem bounded_between (v : Option Value) (max : Int) (hmax : 0 ≤ max) :
    0 ≤ bounded v max ∧ bounded v max ≤ max := by
  unfold bounded
  split
  · next f =>
    split
    · omega
    · next hok =>
      simp only [not_or, Bool.not_eq_true, Bool.not_eq_false] at hok
      obtain ⟨hwhole, hlow, hhigh⟩ := hok
      have hzero : f.lt (.ofInt 0) = false := by
        unfold Double.lt
        rw [hlow]
        rfl
      exact Double.whole_between hwhole hzero hhigh
  · omega

theorem optionalInt_between {v : Option Value} {lo hi : Int}
    (h : (optionalInt v lo hi).2.2 = true) :
    ((optionalInt v lo hi).2.1 = true ∧ lo ≤ (optionalInt v lo hi).1 ∧
        (optionalInt v lo hi).1 ≤ hi) ∨
      ((optionalInt v lo hi).2.1 = false ∧ (optionalInt v lo hi).1 = 0) := by
  unfold optionalInt at h ⊢
  split at h
  · exact .inr ⟨rfl, rfl⟩
  · next f =>
    split at h
    · cases h
    · next hok =>
      rw [if_neg hok]
      simp only [not_or, Bool.not_eq_true, Bool.not_eq_false] at hok
      exact .inl ⟨rfl, Double.whole_between hok.1 hok.2.1 hok.2.2⟩
  · cases h

/-- A number of heads that the code takes. -/
def HeadsOk (h : Int) : Prop := 0 ≤ h ∧ h ≤ maxHeadCount

theorem headsOk_of_valid {f : Double} (h : validHeads f = true) : HeadsOk f.toInt := by
  unfold validHeads at h
  rw [Bool.and_eq_true, Bool.and_eq_true] at h
  exact Double.whole_between h.1.1 (Double.not_lt_of_le h.1.2) (Double.not_lt_of_le h.2)

theorem storeHeads_ends {fs : List Double} {i : Nat} {out : List Int}
    (h : out.length = i + fs.length) : (storeHeads fs i out).Ends fun ys =>
      ys = out.take i ++ fs.map Double.toInt ∧ ∀ f ∈ fs, validHeads f = true := by
  induction fs generalizing i out with
  | nil =>
    refine ends_pure ⟨?_, fun f hf => absurd hf List.not_mem_nil⟩
    rw [List.map_nil, List.append_nil, List.take_of_length_le (by simpa using h.le)]
  | cons f fs ih =>
    rw [List.length_cons] at h
    refine ends_require.bind fun _ hvalid => ?_
    refine (ends_store (by omega) (by omega)).bind fun out' hout => ?_
    subst hout
    refine (ih (i := i + 1) (by rw [List.length_set]; omega)).mono fun ys hys => ?_
    refine ⟨?_, List.forall_mem_cons.2 ⟨hvalid, hys.2⟩⟩
    have hset : (out.set i f.toInt).take (i + 1) = out.take i ++ [f.toInt] := by
      rw [List.take_add_one, List.take_set_of_le (le_refl i),
        List.getElem?_set_self (by omega)]
      rfl
    rw [hys.1, Int.toNat_natCast, hset, List.append_assoc]
    rfl

def firstHeads (v : Option Value) : Int :=
  match v with
  | some (.nums (f :: _)) => f.toInt
  | some (.num f) => f.toInt
  | _ => 0

theorem layerValues_ends {v : Option Value} {blocks : Int} (hblocks : 1 ≤ blocks) :
    (layerValues v blocks).Ends fun o => ∀ xs, o = some xs →
      xs.length = blocks ∧ (∀ x ∈ xs, HeadsOk x) ∧ xs.headD 0 = firstHeads v := by
  unfold layerValues
  split
  · exact ends_pure fun xs hxs => by cases hxs
  · next arr =>
    refine ends_require.bind fun _ hlen => ?_
    have hout : (List.replicate blocks.toNat (0 : Int)).length = 0 + arr.length := by
      rw [List.length_replicate]
      omega
    refine (storeHeads_ends hout).bind fun ys hys => ends_pure fun xs hxs => ?_
    obtain rfl := Option.some.inj hxs
    obtain ⟨rfl, hvalid⟩ := hys
    rw [List.take_zero, List.nil_append]
    refine ⟨by rw [List.length_map]; exact hlen, fun x hx => ?_, ?_⟩
    · obtain ⟨f, hf, rfl⟩ := List.mem_map.1 hx
      exact headsOk_of_valid (hvalid f hf)
    · cases arr with
      | nil => rfl
      | cons f fs => rfl
  · next f =>
    refine ends_require.bind fun _ hvalid => ends_pure fun xs hxs => ?_
    obtain rfl := Option.some.inj hxs
    refine ⟨by rw [List.length_replicate]; omega, fun x hx => ?_, ?_⟩
    · rw [List.eq_of_mem_replicate hx]
      exact headsOk_of_valid hvalid
    · obtain ⟨n, hn⟩ : ∃ n, blocks.toNat = n + 1 := ⟨blocks.toNat - 1, by omega⟩
      rw [hn]
      rfl
  · exact ends_nil

variable {heads : List Int}

section

variable {get : String → Option Value} {arch : Bytes} {blocks : Int} {attnLayers : Int}

/-! ## Lengths -/

/-- The length of a head where the file does not say it. -/
def fallbackOf (get : String → Option Value) : Int :=
  if 0 < bounded (get "embedding_length") maxTokens ∧
      0 < firstHeads (get "attention.head_count") then
    (bounded (get "embedding_length") maxTokens).tdiv (firstHeads (get "attention.head_count"))
  else 0

theorem fallbackLength_ends (hne : 1 ≤ (heads.length : Int))
    (hfirst : heads.headD 0 = firstHeads (get "attention.head_count")) :
    (fallbackLength get heads).Ends fun n => n = fallbackOf get ∧ 0 ≤ n := by
  obtain ⟨h, hs, rfl⟩ : ∃ h hs, heads = h :: hs := by
    cases heads with
    | nil => exact absurd hne (by simp)
    | cons h hs => exact ⟨h, hs, rfl⟩
  have hindex : index (h :: hs) 0 = done h := rfl
  unfold fallbackLength fallbackOf
  rw [hindex, ← hfirst]
  show Ends (if _ then (if 0 < h then quot _ h else pure 0) else pure 0) _
  split
  · next hembd =>
    split
    · next hpos =>
      refine (ends_quot hpos.ne').mono fun q hq => ?_
      rw [if_pos ⟨hembd, hpos⟩]
      exact ⟨hq, hq ▸ Int.tdiv_nonneg hembd.le hpos.le⟩
    · next hneg => exact ends_pure ⟨(if_neg fun hc => hneg hc.2).symm, le_refl _⟩
  · next hembd => exact ends_pure ⟨(if_neg fun hc => hembd hc.1).symm, le_refl _⟩

theorem headLengths_ends (hne : 1 ≤ (heads.length : Int))
    (hfirst : heads.headD 0 = firstHeads (get "attention.head_count")) :
    (headLengths get heads).Ends fun p =>
      (0 ≤ p.1 ∧ p.1 ≤ maxHeadLength) ∧ 0 ≤ p.2 ∧
        (maxHeadLength < p.2 ↔ bounded (get "attention.value_length") maxHeadLength = 0 ∧
          maxHeadLength < fallbackOf get) := by
  refine (fallbackLength_ends hne hfirst).bind fun fallback hfallback => ?_
  obtain ⟨rfl, hnonneg⟩ := hfallback
  have hkey := bounded_between (get "attention.key_length") maxHeadLength (by decide)
  have hval := bounded_between (get "attention.value_length") maxHeadLength (by decide)
  refine ends_require.bind fun _ hok => ends_pure ?_
  dsimp only at hok ⊢
  simp only [not_or, not_lt] at hok
  split_ifs at hok ⊢ <;> omega

/-! ## The window -/

theorem swaArchitectures_bounds (arch : Bytes) :
    (0 ≤ ((swaArchitectures arch).getD {}).defaultWindow ∧
        ((swaArchitectures arch).getD {}).defaultWindow ≤ maxTokens) ∧
      0 ≤ ((swaArchitectures arch).getD {}).kvLayers := by
  unfold swaArchitectures
  split_ifs <;> decide

theorem slidingWindow_between (get : String → Option Value) (arch : Bytes) :
    0 ≤ slidingWindow get arch ∧ slidingWindow get arch ≤ maxTokens := by
  have hwindow := bounded_between (get "attention.sliding_window") maxTokens (by decide)
  have hdefault := (swaArchitectures_bounds arch).1
  unfold slidingWindow
  dsimp only
  split_ifs
  · exact hdefault
  · exact hwindow
  · exact ⟨le_refl _, by decide⟩

theorem swaLengths_ends {window keyLen valLen : Int} :
    (swaLengths get arch window keyLen valLen).Ends fun p => p = (keyLen, valLen) ∨
      ((0 ≤ p.1 ∧ p.1 ≤ maxHeadLength) ∧ 0 ≤ p.2 ∧ p.2 ≤ maxHeadLength) := by
  unfold swaLengths
  split
  · refine ends_require.bind fun _ _ => ends_pure (.inr ⟨?_, ?_⟩)
    · exact bounded_between _ _ (by decide)
    · exact bounded_between _ _ (by decide)
  · exact ends_pure (.inl rfl)

/-- Which layers are of a kind can be asked of every layer. -/
def Asked (blocks : Int) (f : Int → Checked Bool) : Prop :=
  ∀ l, 0 ≤ l → l < blocks → (f l).Ends fun _ => True

theorem asked_false : Asked blocks fun _ => pure false := fun _ _ _ => trivial

theorem asked_mask {arr : List Double} (hlen : arr.length = blocks) :
    Asked blocks fun l => do return !(← index arr l).eq (.ofInt 0) := by
  intro l hl hlt
  exact (ends_index hl (by omega)).bind fun f _ => ends_pure trivial

theorem asked_every {every : Int} (hne : every ≠ 0) :
    Asked blocks fun l => do return (← rem (l + 1) every) ≠ 0 :=
  fun _ _ _ => (ends_rem hne).bind fun _ _ => ends_pure trivial

theorem swaLayers_ends {window : Int} :
    (swaLayers get arch blocks window).Ends (Asked blocks) := by
  unfold swaLayers
  split
  · split
    · exact ends_require.bind fun _ hlen => ends_pure (asked_mask hlen)
    · exact ends_pure asked_false
  · split
    · exact ends_pure asked_false
    · refine ends_pure fun l hl hlt => ?_
      split
      · exact ends_pure trivial
      · next hperiod => exact asked_every hperiod l hl hlt

/-! ## Layers -/

theorem nextnLayers_ends (hblocks : 1 ≤ blocks) :
    (nextnLayers get arch blocks).Ends fun n => 0 ≤ n ∧ n < blocks := by
  unfold nextnLayers
  split
  · refine ends_require.bind fun _ hok => ends_pure ?_
    obtain ⟨-, hlo, hhi⟩ | ⟨-, hzero⟩ := optionalInt_between hok
    · omega
    · omega
  · exact ends_pure ⟨le_refl _, hblocks⟩

theorem cacheLayers_ends (hpos : 0 < attnLayers) (hattn : attnLayers ≤ blocks) :
    (cacheLayers get arch blocks attnLayers).Ends fun n => 0 < n ∧ n ≤ blocks := by
  unfold cacheLayers
  dsimp only
  split
  · refine ends_require.bind fun _ hok => ends_pure ?_
    rw [not_or, Bool.not_eq_false] at hok
    obtain ⟨-, hlo, hhi⟩ | ⟨-, hzero⟩ := optionalInt_between hok.1
    · omega
    · omega
  · refine ends_pure ?_
    split_ifs
    · omega
    · omega

theorem recurrentLayers_ends : (recurrentLayers get blocks).Ends (Asked blocks) := by
  unfold recurrentLayers
  split
  · exact ends_require.bind fun _ hlen => ends_pure (asked_mask hlen)
  · exact ends_nil
  · refine ends_require.bind fun _ hok => ends_pure (asked_every ?_)
    obtain ⟨hgiven, hlo, -⟩ | ⟨hgiven, -⟩ := optionalInt_between hok
    · rw [if_pos hgiven]
      omega
    · rw [if_neg (by rw [hgiven]; simp)]
      decide

theorem countRecurrent_ends {isRecurrent : Int → Checked Bool}
    (hasked : Asked attnLayers isRecurrent) :
    (countRecurrent attnLayers isRecurrent).Ends fun n => 0 ≤ n ∧ n ≤ attnLayers.toNat := by
  refine ends_upTo (I := fun l n => 0 ≤ n ∧ n ≤ (l : Int)) ⟨le_refl _, le_refl _⟩ ?_
  intro l n hl hn
  refine (hasked l (by omega) (by omega)).bind fun b _ => ends_pure ?_
  split
  · omega
  · omega

theorem mul_between {a b c d : Int} (ha : 0 ≤ a ∧ a ≤ c) (hb : 0 ≤ b ∧ b ≤ d) :
    0 ≤ a * b ∧ a * b ≤ c * d :=
  ⟨mul_nonneg ha.1 hb.1, mul_le_mul ha.2 hb.2 hb.1 (ha.1.trans ha.2)⟩

theorem stateBytes_between {n kernel inner state groups : Int} (hn : 0 ≤ n ∧ n ≤ maxBlockCount)
    (hkernel : 1 ≤ kernel ∧ kernel ≤ maxSSMKernel) (hinner : 0 ≤ inner ∧ inner ≤ maxSSMSize)
    (hstate : 0 ≤ state ∧ state ≤ maxSSMSize) (hgroups : 0 ≤ groups ∧ groups ≤ maxSSMSize) :
    0 ≤ n * ((kernel - 1) * (inner + 2 * groups * state) + state * inner) * recurrentStateBytes ∧
      n * ((kernel - 1) * (inner + 2 * groups * state) + state * inner) * recurrentStateBytes <
        2 ^ 63 := by
  unfold maxBlockCount maxSSMKernel maxSSMSize at *
  unfold recurrentStateBytes
  have hgs := mul_between hgroups hstate
  have hconv := mul_between (a := kernel - 1) (b := inner + 2 * groups * state) (c := 63)
    (d := 65536 + 2 * (65536 * 65536)) (by omega) (by rw [mul_assoc]; omega)
  have hst := mul_between hstate hinner
  have htotal := mul_between (b := (kernel - 1) * (inner + 2 * groups * state) + state * inner)
    (d := 63 * (65536 + 2 * (65536 * 65536)) + 65536 * 65536) hn (by omega)
  omega

theorem recurrentState_ends (hattn : attnLayers ≤ blocks) (hmax : blocks ≤ maxBlockCount) :
    (recurrentState get arch blocks attnLayers).Ends fun p =>
      Asked blocks p.1 ∧ 0 ≤ p.2 ∧ p.2 < 2 ^ 63 := by
  unfold recurrentState
  split
  · refine recurrentLayers_ends.bind fun recurs hrecurs => ends_require.bind fun _ hok => ?_
    have hasked : Asked blocks fun l => if l < attnLayers then recurs l else pure false := by
      intro l hl hlt
      dsimp only
      split
      · exact hrecurs l hl hlt
      · exact ends_pure trivial
    refine (countRecurrent_ends fun l hl hlt => hasked l hl (by omega)).bind fun n hn => ?_
    refine ends_pure ⟨hasked, ?_⟩
    simp only [not_or, Bool.not_eq_false] at hok
    obtain ⟨hkernel, -, -, hpresent, hvalid⟩ := hok
    obtain ⟨-, hgroups⟩ | ⟨habsent, -⟩ := optionalInt_between hvalid
    · have hbound := bounded_between (get "ssm.conv_kernel") maxSSMKernel (by decide)
      have hnonneg : (0 : Int) ≤ maxBlockCount := by decide
      exact stateBytes_between (by omega) (by omega) (bounded_between _ _ (by decide))
        (bounded_between _ _ (by decide)) hgroups
    · rw [hpresent] at habsent
      cases habsent
  · exact ends_pure ⟨asked_false, le_refl _, by decide⟩

end

/-! ## The geometry -/

/-- Both lengths of the compressed cache are given. -/
def CompressedCache (get : String → Option Value) : Prop :=
  bounded (get "attention.key_length_mla") maxHeadLength ≠ 0 ∧
    bounded (get "attention.value_length_mla") maxHeadLength ≠ 0

/-- No length of a value is given, and the embedding among the heads is longer than one
may be. -/
def Overlong (values : Values) : Prop :=
  let get := valueOf values (architectureOf values)
  (bounded (get "attention.value_length") maxHeadLength = 0 ∧ maxHeadLength < fallbackOf get) ∧
    ¬ CompressedCache get

structure Sound (values : Values) (s : Shape) : Prop where
  blocks : 1 ≤ s.blocks ∧ s.blocks ≤ maxBlockCount
  kvLayers : 0 < s.kvLayers ∧ s.kvLayers ≤ s.blocks
  attnLayers : 0 < s.attnLayers ∧ s.attnLayers ≤ s.blocks
  heads : ∀ l, 0 ≤ l → l < s.blocks → (s.headsFor l).Ends HeadsOk
  isSWA : Asked s.blocks s.isSWA
  isRecurrent : Asked s.blocks s.isRecurrent
  window : 0 ≤ s.window ∧ s.window ≤ maxTokens
  keyLen : 0 ≤ s.keyLen ∧ s.keyLen ≤ maxHeadLength
  valLen : 0 ≤ s.valLen
  overlong : maxHeadLength < s.valLen ∧ ¬ s.mla ↔ Overlong values
  swaKey : 0 ≤ s.swaKey ∧ s.swaKey ≤ maxHeadLength
  swaVal : s.swaVal = s.valLen ∨ 0 ≤ s.swaVal ∧ s.swaVal ≤ maxHeadLength
  recurrentBytes : 0 ≤ s.recurrentBytes ∧ s.recurrentBytes < 2 ^ 63

theorem headsFor_ends {kvHeads : Option (List Int)} {blocks l : Int}
    (hheads : heads.length = blocks ∧ ∀ x ∈ heads, HeadsOk x)
    (hkv : ∀ xs, kvHeads = some xs → xs.length = blocks ∧ ∀ x ∈ xs, HeadsOk x) (hl : 0 ≤ l)
    (hlt : l < blocks) : (headsFor heads kvHeads l).Ends HeadsOk := by
  cases kvHeads with
  | none => exact (ends_index hl (by omega)).mono fun x hx => hheads.2 x hx
  | some xs =>
    obtain ⟨hlen, hall⟩ := hkv xs rfl
    exact (ends_index hl (by omega)).mono fun x hx => hall x hx

theorem shape_ends (values : Values) : (shape values).Ends (Sound values) := by
  refine ends_require.bind fun _ _ => ends_require.bind fun _ hblocks => ?_
  have hbound := bounded_between (valueOf values (architectureOf values) "block_count")
    maxBlockCount (by decide)
  generalize bounded (valueOf values (architectureOf values) "block_count") maxBlockCount = blocks
    at hblocks hbound ⊢
  have hpos : 1 ≤ blocks := by omega
  refine (layerValues_ends hpos).bind fun heads hheads => ?_
  refine (layerValues_ends hpos).bind fun kvHeads hkv => ?_
  cases heads with
  | none => exact ends_nil
  | some heads =>
    obtain ⟨hlen, hall, hfirst⟩ := hheads heads rfl
    refine (headLengths_ends (by omega) hfirst).bind fun lengths hlengths => ?_
    refine swaLengths_ends.bind fun swa hswa => ?_
    refine (nextnLayers_ends hpos).bind fun nextn hnextn => ?_
    have hattn : 0 < blocks - nextn ∧ blocks - nextn ≤ blocks := by omega
    refine swaLayers_ends.bind fun isSWA hisSWA => ?_
    refine (cacheLayers_ends hattn.1 hattn.2).bind fun kvLayers hkvLayers => ?_
    refine (recurrentState_ends hattn.2 hbound.2).bind fun recurrent hrecurrent => ?_
    obtain ⟨hkeyLen, hvalLen, hlong⟩ := hlengths
    exact ends_pure {
      blocks := ⟨hpos, hbound.2⟩
      kvLayers := hkvLayers
      attnLayers := hattn
      heads := fun l hl hlt => headsFor_ends ⟨hlen, hall⟩
        (fun xs hxs => ⟨(hkv xs hxs).1, (hkv xs hxs).2.1⟩) hl hlt
      isSWA := hisSWA
      isRecurrent := hrecurrent.1
      window := slidingWindow_between _ _
      keyLen := hkeyLen
      valLen := hvalLen
      overlong := by
        refine and_congr hlong (not_congr ?_)
        simp [Shape.mla, CompressedCache]
      swaKey := by
        rcases hswa with rfl | hswa
        · exact hkeyLen
        · exact hswa.1
      swaVal := by
        rcases hswa with rfl | hswa
        · exact .inl rfl
        · exact .inr hswa.2
      recurrentBytes := hrecurrent.2 }

/-- A geometry within the limits that the code declares. -/
structure Within (g : Geometry) : Prop where
  blockCount : 1 ≤ g.blockCount ∧ g.blockCount ≤ maxBlockCount
  heads : 0 ≤ g.fullKVHeads ∧ 0 ≤ g.swaKVHeads ∧
    g.fullKVHeads + g.swaKVHeads ≤ g.blockCount * maxHeadCount
  slidingWindow : 0 ≤ g.slidingWindow ∧ g.slidingWindow ≤ maxTokens
  contextLength : 0 ≤ g.contextLength ∧ g.contextLength ≤ maxTokens
  keyLength : 0 ≤ g.keyLength ∧ g.keyLength ≤ maxHeadLength
  valueLength : 0 ≤ g.valueLength ∧ g.valueLength ≤ maxHeadLength
  swaKeyLength : 0 ≤ g.swaKeyLength ∧ g.swaKeyLength ≤ maxHeadLength
  swaValueLength : 0 ≤ g.swaValueLength ∧ g.swaValueLength ≤ maxHeadLength
  recurrentBytes : 0 ≤ g.recurrentBytesPerSlot ∧ g.recurrentBytesPerSlot < 2 ^ 63

variable {values : Values} {s : Shape}

theorem Sound.anySWA_ends (h : Sound values s) : (anySWA s).Ends fun _ => True := by
  refine ends_upTo (I := fun _ _ => True) trivial fun l any hl _ => ?_
  exact (h.isSWA l (by omega) (by omega)).bind fun _ _ => ends_pure trivial

theorem Sound.sumHeads_ends (h : Sound values s) : (sumHeads s).Ends fun sums =>
    0 ≤ sums.1 ∧ 0 ≤ sums.2 ∧ sums.1 + sums.2 ≤ s.blocks * maxHeadCount := by
  have hlayers := h.kvLayers
  have hsums : (sumHeads s).Ends fun sums =>
      0 ≤ sums.1 ∧ 0 ≤ sums.2 ∧ sums.1 + sums.2 ≤ (s.kvLayers.toNat : Int) * maxHeadCount := by
    refine ends_upTo (I := fun l (sums : Int × Int) => 0 ≤ sums.1 ∧ 0 ≤ sums.2 ∧
      sums.1 + sums.2 ≤ (l : Int) * maxHeadCount) ⟨le_refl _, le_refl _, by simp⟩ ?_
    intro l sums hl hI
    have hmore : ((l + 1 : Nat) : Int) * maxHeadCount = l * maxHeadCount + maxHeadCount := by
      rw [Nat.cast_succ, add_mul, one_mul]
    have hnonneg : (0 : Int) ≤ maxHeadCount := by decide
    rw [hmore]
    refine (h.heads l (by omega) (by omega)).bind fun heads hheads => ?_
    obtain ⟨hlo, hhi⟩ := hheads
    split
    · exact ends_pure (by omega)
    · refine (h.isRecurrent l (by omega) (by omega)).bind fun r _ => ?_
      split
      · exact ends_pure (by omega)
      · refine (h.isSWA l (by omega) (by omega)).bind fun w _ => ?_
        split
        · exact ends_pure (by dsimp only; omega)
        · exact ends_pure (by dsimp only; omega)
  refine hsums.mono fun sums hs => ⟨hs.1, hs.2.1, hs.2.2.trans ?_⟩
  exact mul_le_mul_of_nonneg_right (by omega) (by decide)

theorem Sound.sumShape_ends (h : Sound values s) :
    (sumShape values s).Ends fun g => Within g ↔ ¬ Overlong values := by
  refine h.anySWA_ends.bind fun any _ => h.sumHeads_ends.bind fun sums hsums => ends_pure ?_
  have hcontext := bounded_between (valueOf values s.arch "context_length") maxTokens (by decide)
  have hmax : (0 : Int) ≤ maxHeadLength := by decide
  rw [← h.overlong, not_and, not_not]
  constructor
  · intro hg hlong
    by_contra hmla
    have hvalue := hg.valueLength.2
    dsimp only at hvalue
    rw [if_neg hmla] at hvalue
    omega
  · intro hshort
    have hlength (n : Int) (hn : n = s.valLen ∨ 0 ≤ n ∧ n ≤ maxHeadLength) :
        0 ≤ (if s.mla = true then 0 else n) ∧ (if s.mla = true then 0 else n) ≤ maxHeadLength := by
      have hvalLen := h.valLen
      split
      · omega
      · next hmla =>
        have hle : ¬ maxHeadLength < s.valLen := fun hlong => hmla (hshort hlong)
        omega
    have hzero (n : Int) (hn : 0 ≤ n) (p : Prop) [Decidable p] :
        0 ≤ (if p then 0 else n) ∧ (if p then 0 else n) ≤ n := by
      split
      · omega
      · omega
    have hrecurrent := h.recurrentBytes
    exact {
      blockCount := h.blocks
      heads := by
        have hfull := hzero sums.1 hsums.1
        have hswa := hzero sums.2 hsums.2.1
        exact ⟨(hfull _).1, (hswa _).1, (add_le_add (hfull _).2 (hswa _).2).trans hsums.2.2⟩
      slidingWindow := h.window
      contextLength := hcontext
      keyLength := h.keyLen
      valueLength := hlength s.valLen (.inl rfl)
      swaKeyLength := h.swaKey
      swaValueLength := hlength s.swaVal h.swaVal
      recurrentBytes := ⟨(hzero _ hrecurrent.1 _).1,
        lt_of_le_of_lt (hzero _ hrecurrent.1 _).2 hrecurrent.2⟩ }

/-- No header crashes the planner, no layer that it sums over is past the block count,
and the geometry is within the limits if and only if the embedding does not make the
values too long. -/
theorem geometryFromMetadata_iff (values : Values) :
    ((shape values).Ends fun s => s.kvLayers ≤ s.blocks ∧ s.attnLayers ≤ s.blocks) ∧
      (geometryFromMetadata values).Ends fun g => Within g ↔ ¬ Overlong values := by
  refine ⟨(shape_ends values).mono fun s hs => ⟨hs.kvLayers.2, hs.attnLayers.2⟩, ?_⟩
  exact (shape_ends values).bind fun s hs => hs.sumShape_ends

/-! ### Long values -/

/-- One block of one head, with short keys and a long embedding. -/
def longValues : Values := fun k =>
  if k = ascii "general.architecture" then some (.str (ascii "llama"))
  else if k = ascii "llama.block_count" then some (.num (.ofInt 1))
  else if k = ascii "llama.attention.head_count" then some (.num (.ofInt 1))
  else if k = ascii "llama.attention.key_length" then some (.num (.ofInt 128))
  else if k = ascii "llama.embedding_length" then some (.num (.ofInt 131072))
  else none

theorem longValues_unbounded : ∃ g, geometryFromMetadata longValues = done g ∧
    g.valueLength = 131072 ∧ ¬ g.valueLength ≤ maxHeadLength := by
  refine ⟨⟨ascii "llama", 1, 1, 0, 0, 128, 131072, 128, 131072, true, 0, 0, []⟩, ?_, rfl, ?_⟩
  · decide
  · decide

end LocalBase.Gguf
