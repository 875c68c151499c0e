import LocalBase.Lib.Double
import LocalBase.Lib.Bytes

/-!
# WAV recordings

A reference clip is decoded from the bytes of a WAV file: chunks one after another, of
which one says what the samples are like and one holds them. A sample is read when it is
asked for. Reading outside the bytes is a crash, and every read of the decoder is one
that may crash.
-/

namespace LocalBase.Voices

abbrev Bytes := List UInt8

def maxUploadBytes : Nat := 12 * 1024 * 1024
def minInputRateHz : Nat := 8000
def maxInputRateHz : Nat := 192000
def maxChannels : Nat := 8
def formatPCM : Nat := 0x0001
def formatFloat : Nat := 0x0003
def formatExtensible : Nat := 0xfffe
def sampleRateHz : Nat := 24000

def ascii (s : String) : Bytes := s.toList.map fun c => UInt8.ofNat c.toNat

inductive Failure where
  /-- An index outside a slice. -/
  | crash
  | refused (code message : String)
deriving DecidableEq

abbrev Result (α : Type) := Except Failure α

def unsupported {α : Type} (message : String) : Result α :=
  .error (.refused "unsupported_audio_format" message)

/-! ## Bytes -/

/-- What can be read: a byte at each place, or none. -/
abbrev Memory := Nat → Option UInt8

def memory (b : Bytes) : Memory := fun i => b[i]?

/-- Only the places from `lo` to `hi`. -/
def Memory.only (m : Memory) (lo hi : Nat) : Memory :=
  fun i => if lo ≤ i ∧ i < hi then m i else none

def byteAt (m : Memory) (i : Nat) : Result Nat :=
  match m i with
  | some x => .ok x.toNat
  | none => .error .crash

/-- The bytes `b[lo:hi]`. -/
def slice (b : Bytes) (lo hi : Nat) : Result Bytes :=
  if lo ≤ hi ∧ hi ≤ b.length then .ok ((b.drop lo).take (hi - lo)) else .error .crash

/-- `binary.LittleEndian`, of `n` bytes. -/
def uint (m : Memory) : Nat → Nat → Result Nat
  | 0, _ => .ok 0
  | n + 1, i => do
      let lo ← byteAt m i
      let hi ← uint m n (i + 1)
      .ok (lo + 256 * hi)

/-- The number in `bits` bits, with a sign. -/
def signed (bits n : Nat) : Int := if 2 ^ (bits - 1) ≤ n then n - 2 ^ bits else n

/-! ## Chunks -/

structure WavFormat where
  tag : Nat
  channels : Nat
  sampleRate : Nat
  bits : Nat
deriving DecidableEq

/-- A chunk: where its body is, and how long that is. -/
structure Chunk where
  id : Bytes
  body : Nat
  size : Nat
deriving DecidableEq

/-- The tag of a format chunk. Of an extensible one the sub-format GUID starts with it. -/
def formatTag (m : Memory) (c : Chunk) : Result Nat := do
  let tag ← uint m 2 c.body
  if tag = formatExtensible then
    if c.size < 40 then unsupported "The WAV format chunk is too short."
    else uint m 2 (c.body + 24)
  else .ok tag

def wavFormat (m : Memory) (c : Chunk) : Result WavFormat :=
  if c.size < 16 then unsupported "The WAV format chunk is too short."
  else do
    let tag ← formatTag m c
    let channels ← uint m 2 (c.body + 2)
    let sampleRate ← uint m 4 (c.body + 4)
    let blockAlign ← uint m 2 (c.body + 12)
    let bits ← uint m 2 (c.body + 14)
    if tag ≠ formatPCM ∧ tag ≠ formatFloat then
      unsupported "Only uncompressed PCM or float WAV audio is supported."
    else if ¬ (if tag = formatPCM then [8, 16, 24, 32].contains bits
        else bits = 32 || bits = 64) then
      unsupported (toString bits ++ "-bit WAV audio is not supported.")
    else if channels < 1 ∨ maxChannels < channels then
      unsupported ("WAV audio must have 1 to " ++ toString maxChannels ++ " channels.")
    else if sampleRate < minInputRateHz ∨ maxInputRateHz < sampleRate then
      unsupported ("WAV sample rate must be between " ++ toString minInputRateHz ++ " and " ++
        toString maxInputRateHz ++ " Hz.")
    else if blockAlign ≠ channels * (bits / 8) then
      unsupported "The WAV block alignment does not match its format."
    else .ok ⟨tag, channels, sampleRate, bits⟩

/-- What has been found of the two chunks that are needed. -/
structure Found where
  format : Option WavFormat := none
  data : Option Chunk := none

def Found.take (f : Found) (m : Memory) (c : Chunk) : Result Found :=
  if c.id = ascii "fmt " then
    if f.format.isSome then unsupported "The WAV file has more than one format chunk."
    else do
      let format ← wavFormat m c
      .ok { f with format := some format }
  else if c.id = ascii "data" then
    if f.data.isSome then unsupported "The WAV file has more than one data chunk."
    else .ok { f with data := some c }
  else .ok f

/-- The chunk at an offset, where there is room for its head. -/
def chunkAt (b : Bytes) (offset : Nat) : Result Chunk := do
  let id ← slice b offset (offset + 4)
  let size ← uint (memory b) 4 (offset + 4)
  .ok ⟨id, offset + 8, size⟩

/-- The loop over the chunks, from an offset on. Chunks are word aligned. -/
def chunks (b : Bytes) (offset : Nat) (f : Found) : Result Found :=
  if offset + 8 ≤ b.length then
    match chunkAt b offset with
    | .error e => .error e
    | .ok c =>
      if b.length - (offset + 8) < c.size then
        unsupported "The WAV file is truncated or has an invalid chunk size."
      else
        match f.take (memory b) c with
        | .error e => .error e
        | .ok f => chunks b (offset + 8 + c.size + c.size % 2) f
  else .ok f
termination_by b.length - offset

structure Decoded where
  format : WavFormat
  data : Chunk
  frames : Nat

namespace Decoded

def sampleRate (d : Decoded) : Nat := d.format.sampleRate

def channels (d : Decoded) : Nat := d.format.channels

def bytesPerSample (d : Decoded) : Nat := d.format.bits / 8

def blockBytes (d : Decoded) : Nat := d.format.channels * d.bytesPerSample

end Decoded

/-- What follows the loop. A division by zero would be a crash. -/
def Found.decoded (f : Found) : Result Decoded :=
  match f.format, f.data with
  | none, _ => unsupported "The WAV file has no format chunk."
  | _, none => unsupported "The WAV file has no audio data."
  | some format, some data =>
    let blockBytes := format.channels * (format.bits / 8)
    if blockBytes = 0 then .error .crash else .ok ⟨format, data, data.size / blockBytes⟩

def decodeWAV (b : Bytes) : Result Decoded :=
  if maxUploadBytes < b.length then
    .error (.refused "audio_too_large"
      ("Audio exceeds the " ++ toString (maxUploadBytes / (1024 * 1024)) ++ " MiB limit."))
  else if b.length < 12 ∨ b.take 4 ≠ ascii "RIFF" ∨ (b.drop 8).take 4 ≠ ascii "WAVE" then
    unsupported "Upload a WAV file (RIFF/WAVE)."
  else do
    let f ← chunks b 12 {}
    f.decoded

/-! ## Samples -/

/-- `max(-1, min(1, v))`, of what is no NaN. -/
def clamp : Double → ℚ
  | .nan => 0
  | .infinite negative => if negative then -1 else 1
  | .finite v => max (-1) (min 1 v)

/-- A float sample, clamped; a NaN or an infinity is refused. -/
def floatSample (v : Double) : Result ℚ :=
  match v with
  | .finite v => .ok (clamp (.finite v))
  | _ => unsupported "The WAV file contains invalid float samples."

def sampleAt (f : WavFormat) (m : Memory) (start : Nat) : Result ℚ :=
  if f.tag = formatFloat then
    if f.bits = 32 then do
      let n ← uint m 4 start
      floatSample (.ofBits 8 23 n)
    else do
      let n ← uint m 8 start
      floatSample (.ofBits 11 52 n)
  else if f.bits = 8 then do
    let n ← byteAt m start
    .ok (((n : ℚ) - 128) / 128)
  else if f.bits = 16 then do
    let n ← uint m 2 start
    .ok (signed 16 n / 32768)
  else if f.bits = 24 then do
    let lo ← byteAt m start
    let mid ← byteAt m (start + 1)
    let hi ← byteAt m (start + 2)
    .ok (((lo : ℚ) + 256 * mid + 65536 * signed 8 hi) / 8388608)
  else do
    let n ← uint m 4 start
    .ok (signed 32 n / 2147483648)

/-- `read`: a sample of a frame. -/
def Decoded.read (d : Decoded) (m : Memory) (frame channel : Nat) : Result ℚ :=
  sampleAt d.format m (d.data.body + frame * d.blockBytes + channel * d.bytesPerSample)

/-! ## Writing -/

open LittleEndian (put)

/-- `Math.round`. -/
def jsRound (x : ℚ) : Int := if 1 / 2 ≤ x - ⌊x⌋ then ⌊x⌋ + 1 else ⌊x⌋

/-- The two bytes of a sample, as a number; `onNaN` is what a NaN converts to. -/
def pcm16 (onNaN : Int) (s : Double) : Nat :=
  let rounded : Int :=
    match s with
    | .nan => onNaN
    | s =>
      let v := clamp s
      jsRound (if v < 0 then v * 32768 else v * 32767)
  (rounded % 65536).toNat

def encodePCM16WAV (onNaN : Int) (samples : List Double) (sampleRate : Nat) : Bytes :=
  ascii "RIFF" ++ put 4 (36 + samples.length * 2) ++ ascii "WAVE" ++ ascii "fmt " ++
    put 4 16 ++ put 2 formatPCM ++ put 2 1 ++ put 4 sampleRate ++ put 4 (sampleRate * 2) ++
    put 2 2 ++ put 2 16 ++ ascii "data" ++ put 4 (samples.length * 2) ++
    samples.flatMap fun s => put 2 (pcm16 onNaN s)

end LocalBase.Voices
