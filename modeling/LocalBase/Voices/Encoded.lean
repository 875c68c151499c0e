import LocalBase.Voices.Decoded
import LocalBase.Lib.Fuel

/-!
# No recording crashes the decoder

What the encoder writes is a header of 44 bytes and two bytes for each sample. The decoder
takes it for what it is; whatever else it is given, it decodes or refuses.
-/

namespace LocalBase.Voices

open LittleEndian (put length_put)

variable {n : Nat}

/-! ## The header -/

theorem uint_put (before after : Bytes) {v : Nat} (hv : v < 256 ^ n) :
    uint (memory (before ++ put n v ++ after)) n before.length = .ok v := by
  induction n generalizing before v with
  | zero =>
    rw [Nat.pow_zero] at hv
    obtain rfl : v = 0 := by omega
    rfl
  | succ n ih =>
    have hshape : before ++ put (n + 1) v ++ after =
        (before ++ [UInt8.ofNat (v % 256)]) ++ put n (v / 256) ++ after := by
      rw [put, List.append_cons]
    have hbyte : byteAt (memory (before ++ put (n + 1) v ++ after)) before.length =
        .ok (v % 256) := by
      rw [byteAt, memory, put, List.append_assoc, List.getElem?_append_right (le_refl _),
        Nat.sub_self, List.cons_append, List.getElem?_cons_zero]
      dsimp only
      rw [LittleEndian.toNat_low]
    have hrest : uint (memory (before ++ put (n + 1) v ++ after)) n (before.length + 1) =
        .ok (v / 256) := by
      have h := ih (before ++ [UInt8.ofNat (v % 256)]) (v := v / 256)
        (by rw [Nat.pow_succ] at hv; omega)
      rwa [List.length_append, List.length_singleton, ← hshape] at h
    rw [uint, hbyte]
    show (uint _ n (before.length + 1) >>= _) = _
    rw [hrest]
    exact congrArg Except.ok (by omega)

/-- What the encoder writes before the size of the samples. -/
def header (sampleRate n : Nat) : Bytes :=
  ascii "RIFF" ++ put 4 (36 + n * 2) ++ ascii "WAVE" ++ ascii "fmt " ++ put 4 16 ++
    put 2 formatPCM ++ put 2 1 ++ put 4 sampleRate ++ put 4 (sampleRate * 2) ++
    put 2 2 ++ put 2 16 ++ ascii "data"

def sampleBytes (onNaN : Int) (samples : List Double) : Bytes :=
  samples.flatMap fun s => put 2 (pcm16 onNaN s)

theorem encodePCM16WAV_eq (onNaN : Int) (samples : List Double) (sampleRate : Nat) :
    encodePCM16WAV onNaN samples sampleRate = header sampleRate samples.length ++
      put 4 (samples.length * 2) ++ sampleBytes onNaN samples := rfl

theorem length_sampleBytes (onNaN : Int) (samples : List Double) :
    (sampleBytes onNaN samples).length = samples.length * 2 := by
  induction samples with
  | nil => rfl
  | cons s samples ih =>
    rw [sampleBytes, List.flatMap_cons, List.length_append, length_put]
    rw [sampleBytes] at ih
    rw [ih, List.length_cons]
    omega

theorem length_encoded (onNaN : Int) (samples : List Double) (sampleRate : Nat) :
    (encodePCM16WAV onNaN samples sampleRate).length = 44 + samples.length * 2 := by
  rw [encodePCM16WAV_eq, List.length_append, List.length_append, length_put,
    length_sampleBytes]
  rfl

section
variable (size : Nat) (rest : Bytes)

theorem header_eq : header sampleRateHz size = ascii "RIFF" ++ put 4 (36 + size * 2) ++
    [87, 65, 86, 69, 102, 109, 116, 32, 16, 0, 0, 0, 1, 0, 1, 0, 192, 93, 0, 0, 128, 187, 0, 0,
      2, 0, 16, 0, 100, 97, 116, 97] := by
  have htail : ascii "WAVE" ++ (ascii "fmt " ++ (put 4 16 ++ (put 2 formatPCM ++
      (put 2 1 ++ (put 4 sampleRateHz ++ (put 4 (sampleRateHz * 2) ++
      (put 2 2 ++ (put 2 16 ++ ascii "data")))))))) =
      [87, 65, 86, 69, 102, 109, 116, 32, 16, 0, 0, 0, 1, 0, 1, 0, 192, 93, 0, 0, 128, 187, 0, 0,
        2, 0, 16, 0, 100, 97, 116, 97] := by decide
  rw [header, ← htail]
  simp only [List.append_assoc]

theorem formatChunk_at : chunkAt (header sampleRateHz size ++ rest) 12 =
    .ok ⟨ascii "fmt ", 20, 16⟩ := by
  have hslice : slice (header sampleRateHz size ++ rest) 12 (12 + 4) = .ok (ascii "fmt ") := by
    rw [slice, if_pos]
    · rfl
    · refine ⟨by omega, ?_⟩
      rw [List.length_append]
      exact Nat.le_add_right_of_le (by decide : 16 ≤ 40)
  have hread : uint (memory (header sampleRateHz size ++ rest)) 4 16 = .ok 16 := by
    rw [header_eq]
    rfl
  exact chunkAt_of hslice hread

theorem format_written : wavFormat (memory (header sampleRateHz size ++ rest))
    ⟨ascii "fmt ", 20, 16⟩ = .ok ⟨formatPCM, 1, sampleRateHz, 16⟩ := by
  rw [header_eq]
  generalize hb : ascii "RIFF" ++ put 4 (36 + size * 2) ++ _ ++ rest = b
  have htag : uint (memory b) 2 20 = .ok 1 := by rw [← hb]; rfl
  have hchannels : uint (memory b) 2 22 = .ok 1 := by rw [← hb]; rfl
  have hrate : uint (memory b) 4 24 = .ok 24000 := by rw [← hb]; rfl
  have halign : uint (memory b) 2 32 = .ok 2 := by rw [← hb]; rfl
  have hbits : uint (memory b) 2 34 = .ok 16 := by rw [← hb]; rfl
  have hplain : formatTag (memory b) ⟨ascii "fmt ", 20, 16⟩ = .ok formatPCM := by
    rw [formatTag, htag]
    rfl
  rw [wavFormat, if_neg (by decide : ¬16 < 16), hplain, hchannels, hrate, halign, hbits]
  rfl

theorem dataChunk_at (hsize : size * 2 < 256 ^ 4) :
    chunkAt (header sampleRateHz size ++ put 4 (size * 2) ++ rest) 36 =
      .ok ⟨ascii "data", 44, size * 2⟩ := by
  have hlen : (header sampleRateHz size).length = 40 := rfl
  have hread := uint_put (header sampleRateHz size) rest hsize
  rw [hlen] at hread
  have hslice : slice (header sampleRateHz size ++ put 4 (size * 2) ++ rest) 36 (36 + 4) =
      .ok (ascii "data") := by
    rw [slice, if_pos]
    · rw [List.append_assoc, header_eq]
      rfl
    · refine ⟨by omega, ?_⟩
      rw [List.append_assoc, List.length_append]
      exact Nat.le_add_right_of_le (by decide : 40 ≤ 40)
  exact chunkAt_of hslice hread

end

/-- What the encoder writes at 24 kHz is accepted, and has as many frames as there were
samples. -/
theorem decode_encoded (onNaN : Int) (samples : List Double)
    (hsize : (encodePCM16WAV onNaN samples sampleRateHz).length ≤ maxUploadBytes) :
    decodeWAV (encodePCM16WAV onNaN samples sampleRateHz) =
      .ok ⟨⟨formatPCM, 1, sampleRateHz, 16⟩, ⟨ascii "data", 44, samples.length * 2⟩,
        samples.length⟩ := by
  have hlen := length_encoded onNaN samples sampleRateHz
  have hfits : samples.length * 2 < 256 ^ 4 := by
    have : maxUploadBytes < 256 ^ 4 := by decide
    omega
  have hbytes := encodePCM16WAV_eq onNaN samples sampleRateHz
  have hfirst := formatChunk_at samples.length
    (put 4 (samples.length * 2) ++ sampleBytes onNaN samples)
  have hformat := format_written samples.length
    (put 4 (samples.length * 2) ++ sampleBytes onNaN samples)
  have hsecond := dataChunk_at samples.length (sampleBytes onNaN samples) hfits
  rw [← List.append_assoc, ← hbytes] at hfirst hformat
  rw [← hbytes] at hsecond
  have hriff : (encodePCM16WAV onNaN samples sampleRateHz).take 4 = ascii "RIFF" := by
    rw [hbytes]
    rfl
  have hwave : ((encodePCM16WAV onNaN samples sampleRateHz).drop 8).take 4 = ascii "WAVE" := by
    rw [hbytes]
    rfl
  generalize encodePCM16WAV onNaN samples sampleRateHz = b at *
  have hchunks : chunks b 12 {} = .ok ⟨some ⟨formatPCM, 1, sampleRateHz, 16⟩,
      some ⟨ascii "data", 44, samples.length * 2⟩⟩ := by
    have htake : Found.take {} (memory b) ⟨ascii "fmt ", 20, 16⟩ =
        .ok ⟨some ⟨formatPCM, 1, sampleRateHz, 16⟩, none⟩ := by
      rw [Found.take, if_pos rfl, if_neg (by decide), hformat]
      rfl
    rw [chunks, if_pos (by omega), hfirst]
    dsimp only
    rw [if_neg (by omega), htake]
    dsimp only
    rw [chunks, if_pos (by omega), hsecond]
    dsimp only
    rw [if_neg (by omega), Found.take, if_neg (by decide : ¬ascii "data" = ascii "fmt "),
      if_pos rfl, if_neg (by decide)]
    dsimp only
    rw [chunks, if_neg (by omega)]
  have hstart : ¬(b.length < 12 ∨ b.take 4 ≠ ascii "RIFF" ∨
      (b.drop 8).take 4 ≠ ascii "WAVE") := by
    rintro (hshort | hriff' | hwave')
    · omega
    · exact hriff' hriff
    · exact hwave' hwave
  rw [decodeWAV, if_neg (Nat.not_lt.2 hsize), if_neg hstart, hchunks]
  have hframes : samples.length * 2 / (1 * (16 / 8)) = samples.length := by omega
  refine Fuel.bind_eq_ok.2 ⟨_, rfl, ?_⟩
  rw [Found.decoded]
  dsimp only
  rw [if_neg (by decide), hframes]

/-! ## Any recording -/

/-- No recording crashes the decoder: every byte string is decoded or refused, and of one
that is decoded each sample is read inside its one data chunk. What the encoder writes at
24 kHz, where it is short enough, is one channel with all its samples. -/
theorem decodeWAV_safe (b : Bytes) :
    decodeWAV b ≠ .error .crash ∧
      (∀ d, decodeWAV b = .ok d → d.Sane b ∧ ∀ frame channel, frame < d.frames →
        channel < d.channels → Reads b d frame channel) ∧
      ∀ onNaN samples, (encodePCM16WAV onNaN samples sampleRateHz).length ≤ maxUploadBytes →
        ∃ d, decodeWAV (encodePCM16WAV onNaN samples sampleRateHz) = .ok d ∧ d.channels = 1 ∧
          d.sampleRate = sampleRateHz ∧ d.frames = samples.length := by
  refine ⟨(decodeWAV_ends b).no_crash, fun d hd => ?_, fun onNaN samples hsize => ?_⟩
  · have hsane : d.Sane b := by
      have h := decodeWAV_ends b
      rw [hd] at h
      exact h
    exact ⟨hsane, fun _ _ hframe hchannel => reads hsane hframe hchannel⟩
  · exact ⟨_, decode_encoded onNaN samples hsize, rfl, rfl, rfl⟩

/-- A clip of two samples, of which one is no number. -/
theorem decodeWAV_safe_clip : ∃ d,
    decodeWAV (encodePCM16WAV 0 [.finite 1, .nan] sampleRateHz) = .ok d ∧ d.frames = 2 ∧
      d.Sane (encodePCM16WAV 0 [.finite 1, .nan] sampleRateHz) ∧
      Reads (encodePCM16WAV 0 [.finite 1, .nan] sampleRateHz) d 1 0 := by
  obtain ⟨-, hsafe, hround⟩ :=
    decodeWAV_safe (encodePCM16WAV 0 [.finite 1, .nan] sampleRateHz)
  obtain ⟨d, hd, hchannels, -, hframes⟩ := hround 0 [.finite 1, .nan] (by
    rw [length_encoded]
    decide)
  obtain ⟨hsane, hreads⟩ := hsafe d hd
  have hframe : 1 < d.frames := by
    rw [hframes]
    decide
  have hchannel : 0 < d.channels := by
    rw [hchannels]
    decide
  exact ⟨d, hd, hframes, hsane, hreads 1 0 hframe hchannel⟩

end LocalBase.Voices
