import LocalBase.Voices.Wav
import LocalBase.Lib.Checked
import Mathlib.Tactic.Linarith
import Mathlib.Tactic.FieldSimp

/-!
# Decoded recordings

Every read of the decoder is inside the bytes, and of an accepted file a sample's is inside
the data chunk, of which there is one.

The chunks are walked by the sizes they give, which the bytes may not bear out: a walk
goes on only with a chunk that is inside, and ends, since each is at least a header.
-/

namespace LocalBase.Voices

open Crash

theorem refused_ends {α : Type} {P : α → Prop} {code message : String} :
    Ends .crash (.error (.refused code message) : Result α) P := ends_error Failure.noConfusion

theorem unsupported_ends {α : Type} {P : α → Prop} {message : String} :
    Ends .crash (unsupported message) P := refused_ends

variable {m : Memory} {b : Bytes} {n i lo hi : Nat} {f : WavFormat} {c : Chunk}

/-! ## Bytes -/

/-- There is a byte at every place from `lo` to `hi`. -/
def Memory.Full (m : Memory) (lo hi : Nat) : Prop := ∀ i, lo ≤ i → i < hi → m i ≠ none

theorem full_memory (h : hi ≤ b.length) : (memory b).Full lo hi := fun i _ hi => by
  rw [memory, List.getElem?_eq_getElem (by omega)]
  exact Option.some_ne_none _

theorem Memory.Full.byteAt (h : m.Full lo hi) (hlo : lo ≤ i) (hhi : i < hi) :
    ∃ x < 256, byteAt m i = .ok x := by
  obtain ⟨x, hx⟩ := Option.ne_none_iff_exists'.1 (h i hlo hhi)
  exact ⟨x.toNat, x.toNat_lt, by rw [Voices.byteAt, hx]⟩

theorem Memory.Full.uint (h : m.Full lo hi) (hlo : lo ≤ i) (hhi : i + n ≤ hi) :
    ∃ x < 256 ^ n, uint m n i = .ok x := by
  induction n generalizing i with
  | zero => exact ⟨0, Nat.one_pos, rfl⟩
  | succ n ih =>
    obtain ⟨x, hx, hread⟩ := h.byteAt hlo (by omega)
    obtain ⟨y, hy, hrest⟩ := ih (i := i + 1) (by omega) (by omega)
    refine ⟨x + 256 * y, ?_, ?_⟩
    · rw [Nat.pow_succ]
      omega
    · rw [Voices.uint, hread]
      show (Voices.uint m n (i + 1) >>= _) = _
      rw [hrest]
      rfl

theorem Memory.Full.uint_ends (h : m.Full lo hi) (hlo : lo ≤ i) (hhi : i + n ≤ hi) :
    Ends .crash (Voices.uint m n i) (· < 256 ^ n) := by
  obtain ⟨x, hx, hread⟩ := h.uint hlo hhi
  rw [hread]
  exact hx

theorem byteAt_only (hlo : lo ≤ i) (hhi : i < hi) : byteAt (m.only lo hi) i = byteAt m i := by
  rw [byteAt, byteAt, Memory.only, if_pos ⟨hlo, hhi⟩]

theorem uint_only (hlo : lo ≤ i) (hhi : i + n ≤ hi) : uint (m.only lo hi) n i = uint m n i := by
  induction n generalizing i with
  | zero => rfl
  | succ n ih =>
    rw [uint, uint, byteAt_only hlo (by omega), ih (by omega) (by omega)]

theorem signed_range (bits : Nat) {x : Nat} (hbits : 0 < bits) (hx : x < 2 ^ bits) :
    -2 ^ (bits - 1) ≤ signed bits x ∧ signed bits x < 2 ^ (bits - 1) := by
  obtain ⟨k, rfl⟩ := Nat.exists_eq_add_of_lt hbits
  have hpow : (2 : Int) ^ (0 + k + 1) = 2 * 2 ^ (0 + k + 1 - 1) := by
    rw [Nat.add_sub_cancel, pow_succ, mul_comm]
  have hx' : (x : Int) < 2 ^ (0 + k + 1) := by exact_mod_cast hx
  unfold signed
  split
  · next h =>
    have h' : (2 : Int) ^ (0 + k + 1 - 1) ≤ x := by exact_mod_cast h
    omega
  · next h =>
    have h' : (x : Int) < 2 ^ (0 + k + 1 - 1) := by exact_mod_cast Nat.lt_of_not_le h
    omega

/-! ## Chunks -/

/-- A format that the decoder takes. -/
structure WavFormat.Sane (f : WavFormat) : Prop where
  bits : f.tag = formatPCM ∧ f.bits ∈ [8, 16, 24, 32] ∨
    f.tag = formatFloat ∧ (f.bits = 32 ∨ f.bits = 64)
  channels : 1 ≤ f.channels ∧ f.channels ≤ maxChannels

theorem WavFormat.Sane.bytes_pos (h : f.Sane) : 0 < f.bits / 8 := by
  obtain ⟨-, hbits⟩ | ⟨-, hbits | hbits⟩ := h.bits
  · simp only [List.mem_cons, List.not_mem_nil, or_false] at hbits
    omega
  · omega
  · omega

theorem WavFormat.Sane.block_pos (h : f.Sane) : 0 < f.channels * (f.bits / 8) :=
  Nat.mul_pos h.channels.1 h.bytes_pos

/-- The bytes of the chunk are there. -/
def Chunk.Inside (c : Chunk) (b : Bytes) : Prop := c.body + c.size ≤ b.length

theorem formatTag_ends (hc : c.Inside b) (hsize : 16 ≤ c.size) :
    Ends .crash (formatTag (memory b) c) fun _ => True := by
  have hfull : (memory b).Full c.body (c.body + c.size) := full_memory hc
  refine (hfull.uint_ends (by omega) (by omega)).bind fun tag _ => ?_
  refine ends_ite (fun _ => ends_ite (fun _ => unsupported_ends) fun hlong => ?_) fun _ =>
    ends_ok trivial
  exact (hfull.uint_ends (by omega) (by omega)).mono fun _ _ => trivial

theorem wavFormat_ends (hc : c.Inside b) :
    Ends .crash (wavFormat (memory b) c) WavFormat.Sane := by
  have hfull : (memory b).Full c.body (c.body + c.size) := full_memory hc
  unfold wavFormat
  refine ends_ite (fun _ => unsupported_ends) fun hshort => ?_
  refine (formatTag_ends hc (by omega)).bind fun tag _ => ?_
  refine (hfull.uint_ends (by omega) (by omega)).bind fun channels _ => ?_
  refine (hfull.uint_ends (by omega) (by omega)).bind fun rate _ => ?_
  refine (hfull.uint_ends (by omega) (by omega)).bind fun align _ => ?_
  refine (hfull.uint_ends (by omega) (by omega)).bind fun bits _ => ?_
  refine ends_ite (fun _ => unsupported_ends) fun htag => ?_
  refine ends_ite (fun _ => unsupported_ends) fun hbits => ?_
  refine ends_ite (fun _ => unsupported_ends) fun hchannels => ?_
  refine ends_ite (fun _ => unsupported_ends) fun _ => ?_
  refine ends_ite (fun _ => unsupported_ends) fun _ => ends_ok ⟨?_, ?_⟩
  · by_cases hpcm : tag = formatPCM
    · rw [not_not, if_pos hpcm] at hbits
      exact .inl ⟨hpcm, List.contains_iff_mem.1 hbits⟩
    · rw [not_not, if_neg hpcm] at hbits
      refine .inr ⟨?_, by simpa using hbits⟩
      by_contra hfloat
      exact htag ⟨hpcm, hfloat⟩
  · exact ⟨Nat.le_of_not_lt fun h => hchannels (.inl h),
      Nat.le_of_not_lt fun h => hchannels (.inr h)⟩

/-- The chunks of the file, as far as their sizes lead. -/
def chunkList (b : Bytes) (offset : Nat) : List Chunk :=
  if offset + 8 ≤ b.length then
    match chunkAt b offset with
    | .error _ => []
    | .ok c => c :: chunkList b (offset + 8 + c.size + c.size % 2)
  else []
termination_by b.length - offset

def isData (c : Chunk) : Bool := c.id = ascii "data"

/-- What the loop has found is as it should be. -/
structure Found.Sane (b : Bytes) (f : Found) : Prop where
  format : ∀ w, f.format = some w → w.Sane
  data : ∀ c, f.data = some c → c.Inside b

theorem take_ends {f : Found} (hf : f.Sane b) (hc : c.Inside b) :
    Ends .crash (f.take (memory b) c) fun f' =>
      f'.Sane b ∧ f'.data.toList = f.data.toList ++ [c].filter isData := by
  unfold Found.take
  refine ends_ite (fun hid => ?_) fun _ => ends_ite (fun hid => ?_) fun hid => ?_
  · refine ends_ite (fun _ => unsupported_ends) fun _ => ?_
    have hother : isData c = false := by
      rw [isData, hid]
      decide
    refine (wavFormat_ends hc).bind fun w hw => ends_ok ⟨⟨?_, hf.data⟩, ?_⟩
    · rintro _ ⟨⟩
      exact hw
    · rw [List.filter_cons_of_neg (by simp [hother]), List.filter_nil, List.append_nil]
  · refine ends_ite (fun _ => unsupported_ends) fun hnone => ends_ok ⟨⟨hf.format, ?_⟩, ?_⟩
    · rintro _ ⟨⟩
      exact hc
    · have hdata : isData c = true := decide_eq_true hid
      rw [Option.not_isSome_iff_eq_none.1 hnone, List.filter_cons_of_pos hdata]
      rfl
  · have hother : isData c = false := decide_eq_false hid
    refine ends_ok ⟨hf, ?_⟩
    rw [List.filter_cons_of_neg (by simp [hother]), List.filter_nil, List.append_nil]

theorem chunkAt_of {offset size : Nat} {id : Bytes} (hid : slice b offset (offset + 4) = .ok id)
    (hsize : uint (memory b) 4 (offset + 4) = .ok size) :
    chunkAt b offset = .ok ⟨id, offset + 8, size⟩ := by
  rw [chunkAt, hid, hsize]
  rfl

theorem chunkAt_ends {offset : Nat} (h : offset + 8 ≤ b.length) :
    ∃ c, chunkAt b offset = .ok c ∧ c.body = offset + 8 := by
  obtain ⟨size, -, hsize⟩ := (full_memory (le_refl b.length)).uint (i := offset + 4) (n := 4)
    (Nat.zero_le _) (by omega)
  exact ⟨_, chunkAt_of (if_pos ⟨by omega, by omega⟩) hsize, rfl⟩

theorem chunks_ends (offset : Nat) {f : Found} (hf : f.Sane b) :
    Ends .crash (chunks b offset f) fun f' =>
      f'.Sane b ∧ f'.data.toList = f.data.toList ++ (chunkList b offset).filter isData := by
  induction hk : b.length - offset using Nat.strongRecOn generalizing offset f with
  | ind k ih =>
    rw [chunks, chunkList]
    refine ends_ite (fun hroom => ?_) fun hend => ?_
    · obtain ⟨c, hc, hbody⟩ := chunkAt_ends hroom
      rw [hc, if_pos hroom]
      dsimp only
      refine ends_ite (fun _ => unsupported_ends) fun hfits => ?_
      have hinside : c.Inside b := by
        unfold Chunk.Inside
        omega
      have htake := take_ends hf hinside
      cases htaken : f.take (memory b) c with
      | error e =>
        rw [htaken] at htake
        exact htake
      | ok f' =>
        rw [htaken] at htake
        obtain ⟨hsane, hdata⟩ := htake
        refine (ih _ (by omega) _ hsane rfl).mono fun f'' h => ⟨h.1, ?_⟩
        rw [h.2, hdata, List.append_assoc, ← List.filter_append]
        rfl
    · rw [if_neg hend]
      exact ends_ok ⟨hf, (List.append_nil _).symm⟩

/-- An accepted file: its one data chunk, and as many frames as whole blocks are in it. -/
structure Decoded.Sane (b : Bytes) (d : Decoded) : Prop where
  format : d.format.Sane
  inside : d.data.Inside b
  one : (chunkList b 12).filter isData = [d.data]
  frames : d.frames = d.data.size / d.blockBytes

theorem decodeWAV_ends (b : Bytes) : Ends .crash (decodeWAV b) (Decoded.Sane b) := by
  unfold decodeWAV
  refine ends_ite (fun _ => refused_ends) fun _ => ends_ite (fun _ => unsupported_ends) fun _ => ?_
  have hstart : Found.Sane b {} := ⟨nofun, nofun⟩
  refine (chunks_ends 12 hstart).bind fun f hf => ?_
  obtain ⟨hsane, hdata⟩ := hf
  unfold Found.decoded
  split
  · exact unsupported_ends
  · exact unsupported_ends
  · next format data hformat hfound =>
    rw [hfound] at hdata
    have hf := hsane.format _ hformat
    refine ends_ite (fun hempty => absurd hempty hf.block_pos.ne') fun _ => ?_
    exact ends_ok ⟨hf, hsane.data _ hfound, hdata.symm, rfl⟩

/-! ## Samples -/

theorem sample_inside {d : Decoded} (h : d.Sane b) {frame channel : Nat}
    (hframe : frame < d.frames) (hchannel : channel < d.channels) :
    d.data.body + frame * d.blockBytes + channel * d.bytesPerSample + d.bytesPerSample ≤
      d.data.body + d.data.size := by
  have hblocks : (frame + 1) * d.blockBytes ≤ d.data.size := by
    rw [h.frames] at hframe
    exact (Nat.mul_le_mul_right _ hframe).trans (Nat.div_mul_le_self _ _)
  have hsamples : (channel + 1) * d.bytesPerSample ≤ d.blockBytes :=
    Nat.mul_le_mul_right _ hchannel
  rw [Nat.add_mul, Nat.one_mul] at hblocks hsamples
  omega

theorem step_range {k : Nat} {v : Int} (hlow : -2 ^ k ≤ v) (hhigh : v < 2 ^ k) :
    (-1 : ℚ) ≤ v / 2 ^ k ∧ (v : ℚ) / 2 ^ k < 1 := by
  have hpos : (0 : ℚ) < 2 ^ k := by positivity
  constructor
  · rw [le_div_iff₀ hpos]
    have : ((-2 ^ k : Int) : ℚ) ≤ v := by exact_mod_cast hlow
    push_cast at this
    linarith
  · rw [div_lt_one hpos]
    exact_mod_cast hhigh

/-- A sample of integers is a whole number of steps. -/
def Exact (bits : Nat) (q : ℚ) : Prop :=
  (-1 ≤ q ∧ q < 1) ∧ ∃ v : Int, q = v / 2 ^ (bits - 1)

/-- What reading a sample does: it reads in the data chunk alone, does not crash, and a
sample of integers is exact. -/
structure Reads (b : Bytes) (d : Decoded) (frame channel : Nat) : Prop where
  inside : d.read ((memory b).only d.data.body (d.data.body + d.data.size)) frame channel =
    d.read (memory b) frame channel
  returns : d.read (memory b) frame channel ≠ .error .crash
  exact : d.format.tag = formatPCM →
    ∃ q, d.read (memory b) frame channel = .ok q ∧ Exact d.format.bits q

theorem floatSample_ends (v : Double) : Ends .crash (floatSample v) fun _ => True := by
  cases v with
  | nan => exact unsupported_ends
  | infinite negative => exact unsupported_ends
  | finite v => exact ends_ok trivial

theorem exact_of_range {k : Nat} {v : Int} (h : -2 ^ k ≤ v ∧ v < 2 ^ k) :
    Exact (k + 1) (v / 2 ^ k) :=
  ⟨step_range h.1 h.2, v, rfl⟩

/-- So the quotient in 64-bit floats is the exact one. -/
theorem Exact.nearest {bits : Nat} {q : ℚ} (h : Exact bits q) (hbits : bits ≤ 32) :
    ∃ v : Int, q = v / 2 ^ (bits - 1) ∧
      Float64.nearest v.natAbs (2 ^ (bits - 1)) = some |q| := by
  obtain ⟨⟨hlow, hhigh⟩, v, rfl⟩ := h
  have hpos : (0 : ℚ) < 2 ^ (bits - 1) := by positivity
  have habs : |(v : ℚ) / 2 ^ (bits - 1)| = (v.natAbs : ℚ) / 2 ^ (bits - 1) := by
    rw [abs_div, abs_of_pos hpos, Nat.cast_natAbs, Int.cast_abs]
  have hle : (v.natAbs : ℚ) ≤ 2 ^ (bits - 1) := by
    rw [← div_le_one hpos, ← habs]
    exact abs_le.2 ⟨hlow, hhigh.le⟩
  have hpow : 2 ^ (bits - 1) ≤ 2 ^ 31 := Nat.pow_le_pow_right (by omega) (by omega)
  have hsmall : v.natAbs ≤ 2 ^ (bits - 1) := by exact_mod_cast hle
  exact ⟨v, rfl, habs ▸ Float64.nearest_dyadic (by omega) (by omega)⟩

theorem sampleAt_pcm (hm : m.Full lo hi) (hlo : lo ≤ i) (hhi : i + f.bits / 8 ≤ hi)
    (htag : f.tag = formatPCM) (hbits : f.bits ∈ [8, 16, 24, 32]) :
    sampleAt f (m.only lo hi) i = sampleAt f m i ∧
      ∃ q, sampleAt f m i = .ok q ∧ Exact f.bits q := by
  obtain ⟨tag, channels, rate, bits⟩ := f
  dsimp only at htag hbits hhi ⊢
  subst htag
  simp only [List.mem_cons, List.not_mem_nil, or_false] at hbits
  rcases hbits with rfl | rfl | rfl | rfl
  · have hform : ∀ m, sampleAt ⟨formatPCM, channels, rate, 8⟩ m i =
        (byteAt m i >>= fun n => .ok (((n : ℚ) - 128) / 128)) := fun _ => rfl
    obtain ⟨x, hx, hread⟩ := hm.byteAt hlo (by omega)
    rw [hform, hform, byteAt_only hlo (by omega), hread]
    have hexact := exact_of_range (k := 7) (v := (x : Int) - 128) (by omega)
    have hv : (((x : Int) - 128 : Int) : ℚ) / 2 ^ 7 = ((x : ℚ) - 128) / 128 := by
      push_cast
      norm_num
    rw [hv] at hexact
    exact ⟨rfl, _, rfl, hexact⟩
  · have hform : ∀ m, sampleAt ⟨formatPCM, channels, rate, 16⟩ m i =
        (uint m 2 i >>= fun n => .ok ((signed 16 n : ℚ) / 32768)) := fun _ => rfl
    obtain ⟨x, hx, hread⟩ := hm.uint (n := 2) hlo (by omega)
    rw [hform, hform, uint_only hlo (by omega), hread]
    have hexact := exact_of_range (k := 15) (signed_range 16 (by omega) (by omega))
    have hv : (signed 16 x : ℚ) / 2 ^ 15 = (signed 16 x : ℚ) / 32768 := by norm_num
    rw [hv] at hexact
    exact ⟨rfl, _, rfl, hexact⟩
  · have hform : ∀ m, sampleAt ⟨formatPCM, channels, rate, 24⟩ m i =
        (byteAt m i >>= fun lo => byteAt m (i + 1) >>= fun mid => byteAt m (i + 2) >>= fun hi =>
          .ok (((lo : ℚ) + 256 * mid + 65536 * signed 8 hi) / 8388608)) := fun _ => rfl
    obtain ⟨x, hx, hlow⟩ := hm.byteAt hlo (by omega)
    obtain ⟨y, hy, hmid⟩ := hm.byteAt (i := i + 1) (by omega) (by omega)
    obtain ⟨z, hz, hhigh⟩ := hm.byteAt (i := i + 2) (by omega) (by omega)
    rw [hform, hform, byteAt_only hlo (by omega), byteAt_only (by omega) (by omega),
      byteAt_only (by omega) (by omega), hlow]
    have hsign := signed_range 8 (x := z) (by omega) (by omega)
    have hexact := exact_of_range (k := 23) (v := (x : Int) + 256 * y + 65536 * signed 8 z)
      (by omega)
    have hv : (((x : Int) + 256 * y + 65536 * signed 8 z : Int) : ℚ) / 2 ^ 23 =
        ((x : ℚ) + 256 * y + 65536 * signed 8 z) / 8388608 := by
      push_cast
      norm_num
    rw [hv] at hexact
    refine ⟨rfl, _, ?_, hexact⟩
    show (byteAt m (i + 1) >>= _) = _
    rw [hmid]
    show (byteAt m (i + 2) >>= _) = _
    rw [hhigh]
    rfl
  · have hform : ∀ m, sampleAt ⟨formatPCM, channels, rate, 32⟩ m i =
        (uint m 4 i >>= fun n => .ok ((signed 32 n : ℚ) / 2147483648)) := fun _ => rfl
    obtain ⟨x, hx, hread⟩ := hm.uint (n := 4) hlo (by omega)
    rw [hform, hform, uint_only hlo (by omega), hread]
    have hexact := exact_of_range (k := 31) (signed_range 32 (by omega) (by omega))
    have hv : (signed 32 x : ℚ) / 2 ^ 31 = (signed 32 x : ℚ) / 2147483648 := by norm_num
    rw [hv] at hexact
    exact ⟨rfl, _, rfl, hexact⟩

theorem sampleAt_float (hm : m.Full lo hi) (hlo : lo ≤ i) (hhi : i + f.bits / 8 ≤ hi)
    (htag : f.tag = formatFloat) (hbits : f.bits = 32 ∨ f.bits = 64) :
    sampleAt f (m.only lo hi) i = sampleAt f m i ∧ sampleAt f m i ≠ .error .crash := by
  obtain ⟨tag, channels, rate, bits⟩ := f
  dsimp only at htag hbits hhi ⊢
  subst htag
  rcases hbits with rfl | rfl
  · have hform : ∀ m, sampleAt ⟨formatFloat, channels, rate, 32⟩ m i =
        (uint m 4 i >>= fun n => floatSample (.ofBits 8 23 n)) := fun _ => rfl
    rw [hform, hform, uint_only hlo (by omega)]
    exact ⟨rfl, ((hm.uint_ends hlo (by omega)).bind fun _ _ => floatSample_ends _).no_crash⟩
  · have hform : ∀ m, sampleAt ⟨formatFloat, channels, rate, 64⟩ m i =
        (uint m 8 i >>= fun n => floatSample (.ofBits 11 52 n)) := fun _ => rfl
    rw [hform, hform, uint_only hlo (by omega)]
    exact ⟨rfl, ((hm.uint_ends hlo (by omega)).bind fun _ _ => floatSample_ends _).no_crash⟩

theorem reads {d : Decoded} (h : d.Sane b) {frame channel : Nat} (hframe : frame < d.frames)
    (hchannel : channel < d.channels) : Reads b d frame channel := by
  have hend := sample_inside h hframe hchannel
  have hfull : (memory b).Full d.data.body (d.data.body + d.data.size) := full_memory h.inside
  rcases h.format.bits with ⟨htag, hbits⟩ | ⟨htag, hbits⟩
  · obtain ⟨hinside, q, hq, hexact⟩ := sampleAt_pcm hfull (by omega) hend htag hbits
    refine ⟨hinside, fun hcrash => ?_, fun _ => ⟨q, hq, hexact⟩⟩
    cases hq.symm.trans hcrash
  · have hpcm : d.format.tag ≠ formatPCM := by
      rw [htag]
      decide
    obtain ⟨hinside, hreturns⟩ := sampleAt_float hfull (by omega) hend htag hbits
    exact ⟨hinside, hreturns, fun h => absurd h hpcm⟩

end LocalBase.Voices
