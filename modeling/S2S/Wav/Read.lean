/-
# The WAV reader

`read_wav_buf` of `src/wav.h`, every access and every index checked: a byte read
outside the buffer, a float written outside the samples that were allocated, an
`int` or a `size_t` that a product or a sum does not fit, is a `Fault`.  What the
reader refuses, it refuses with a message.

The buffer is one object, so it is below half of the range of `size_t`; whether
the allocation succeeds is up to `malloc`.
-/

import S2S.Arithmetic
import S2S.Checked

namespace S2S
namespace Wav

open Json Llm Models

/-! ### Accesses -/

/-- What must not happen. -/
inductive Fault
  | read
  | write
  | int
  | size
  | unfinished
  deriving DecidableEq, Repr

/-- `data` and `size`. -/
structure Buffer where
  bytes : Bytes
  length_lt : bytes.length < 2 ^ 63

/-- `data[i]`. -/
def Buffer.byte (buf : Buffer) (i : ℕ) : Except Fault UInt8 :=
  require (i < buf.bytes.length) .read (buf.bytes.getD i 0)

/-- The bytes that a `memcmp` looks at. -/
def Buffer.slice (buf : Buffer) (pos n : ℕ) : Except Fault Bytes :=
  require (pos + n ≤ buf.bytes.length) .read ((buf.bytes.drop pos).take n)

/-- An `int`, of those that are not below zero. -/
def asInt (n : ℕ) : Except Fault ℕ := require (n < 2 ^ 31) .int n

/-- A `size_t`. -/
def asSize (n : ℕ) : Except Fault ℕ := require (n < 2 ^ 64) .size n

/-! ### Numbers -/

/-- `wav_read_u16le`. -/
def wavReadU16le (buf : Buffer) (i : ℕ) : Except Fault UInt16 := do
  let p0 ← buf.byte i
  let p1 ← buf.byte (i + 1)
  return p0.toUInt16 ||| p1.toUInt16 <<< 8

/-- `wav_read_u32le`. -/
def wavReadU32le (buf : Buffer) (i : ℕ) : Except Fault UInt32 := do
  let p0 ← buf.byte i
  let p1 ← buf.byte (i + 1)
  let p2 ← buf.byte (i + 2)
  let p3 ← buf.byte (i + 3)
  return p0.toUInt32 ||| p1.toUInt32 <<< 8 ||| p2.toUInt32 <<< 16 ||| p3.toUInt32 <<< 24

/-- `wav_read_s24le`. -/
def wavReadS24le (buf : Buffer) (i : ℕ) : Except Fault Int32 := do
  let p0 ← buf.byte i
  let p1 ← buf.byte (i + 1)
  let p2 ← buf.byte (i + 2)
  let u := p0.toUInt32 ||| p1.toUInt32 <<< 8 ||| p2.toUInt32 <<< 16
  return (if u &&& 0x00800000 ≠ 0 then u ||| 0xff000000 else u).toInt32

/-- The `float` that 32 bits are. -/
def floatOfBits (u : UInt32) : CFloat :=
  let negative := decide (u &&& 0x80000000 ≠ 0)
  let exponent := ((u >>> 23) &&& 0xff).toNat
  let fraction := (u &&& 0x7fffff).toNat
  let magnitude : ℚ :=
    if exponent = 0 then fraction * 2 ^ (-149 : ℤ)
    else (fraction + 2 ^ 23) * 2 ^ ((exponent : ℤ) - 150)
  if exponent = 255 then if fraction = 0 then .inf negative else .nan
  else .fin (if negative then -magnitude else magnitude)

/-- `wav_read_f32le`. -/
def wavReadF32le (buf : Buffer) (i : ℕ) : Except Fault CFloat := do
  let u ← wavReadU32le buf i
  return floatOfBits u

/-- Two bytes as a number. -/
def u16At (bytes : Bytes) (i : ℕ) : UInt16 :=
  (bytes.getD i 0).toUInt16 ||| (bytes.getD (i + 1) 0).toUInt16 <<< 8

/-- Four bytes as a number. -/
def u32At (bytes : Bytes) (i : ℕ) : UInt32 :=
  (bytes.getD i 0).toUInt32 ||| (bytes.getD (i + 1) 0).toUInt32 <<< 8 |||
    (bytes.getD (i + 2) 0).toUInt32 <<< 16 ||| (bytes.getD (i + 3) 0).toUInt32 <<< 24

section Numbers

variable {buf : Buffer} {i : ℕ}

theorem byte_eq (hi : i < buf.bytes.length) : buf.byte i = .ok (buf.bytes.getD i 0) :=
  require_eq _ _ hi

theorem wavReadU16le_eq (hi : i + 2 ≤ buf.bytes.length) :
    wavReadU16le buf i = .ok (u16At buf.bytes i) := by
  rw [wavReadU16le, byte_eq (by omega), byte_eq (by omega)]
  rfl

theorem wavReadU32le_eq (hi : i + 4 ≤ buf.bytes.length) :
    wavReadU32le buf i = .ok (u32At buf.bytes i) := by
  rw [wavReadU32le, byte_eq (by omega), byte_eq (by omega), byte_eq (by omega), byte_eq (by omega)]
  rfl

theorem runs_s24le (hi : i + 3 ≤ buf.bytes.length) : Runs (wavReadS24le buf i) fun _ => True := by
  rw [wavReadS24le, byte_eq (by omega), byte_eq (by omega), byte_eq (by omega)]
  exact Runs.pure trivial

end Numbers

/-! ### Formats -/

/-- A sample of `PCM16`. -/
def samplePcm16 (buf : Buffer) (i : ℕ) : Except Fault CFloat := do
  let s ← wavReadU16le buf i
  return cfloatOf s.toInt16.toInt / 32768.0

/-- A sample of `PCM24`. -/
def samplePcm24 (buf : Buffer) (i : ℕ) : Except Fault CFloat := do
  let s ← wavReadS24le buf i
  return cfloatOf s.toInt / 8388608.0

theorem runs_pcm16 (buf : Buffer) (i : ℕ) (hi : i + 2 ≤ buf.bytes.length) :
    Runs (samplePcm16 buf i) fun _ => True := by
  rw [samplePcm16, wavReadU16le_eq hi]
  exact Runs.pure trivial

theorem runs_pcm24 (buf : Buffer) (i : ℕ) (hi : i + 3 ≤ buf.bytes.length) :
    Runs (samplePcm24 buf i) fun _ => True :=
  (runs_s24le hi).bind fun _ _ => Runs.pure trivial

theorem runs_f32 (buf : Buffer) (i : ℕ) (hi : i + 4 ≤ buf.bytes.length) :
    Runs (wavReadF32le buf i) fun _ => True := by
  rw [wavReadF32le, wavReadU32le_eq hi]
  exact Runs.pure trivial

/-- How the samples of a data chunk are read: a sample in the buffer is read without a fault. -/
structure SampleFormat where
  name : String
  width : ℕ
  sample : Buffer → ℕ → Except Fault CFloat
  width_bounds : 2 ≤ width ∧ width ≤ 4
  runs_sample : ∀ (buf : Buffer) (i : ℕ), i + width ≤ buf.bytes.length →
    Runs (sample buf i) fun _ => True

theorem width_pcm16 : 2 ≤ 2 ∧ 2 ≤ 4 := by omega
theorem width_pcm24 : 2 ≤ 3 ∧ 3 ≤ 4 := by omega
theorem width_f32 : 2 ≤ 4 ∧ 4 ≤ 4 := by omega

/-- `PCM16`. -/
def pcm16 : SampleFormat := ⟨"PCM16", 2, samplePcm16, width_pcm16, runs_pcm16⟩

/-- `PCM24`. -/
def pcm24 : SampleFormat := ⟨"PCM24", 3, samplePcm24, width_pcm24, runs_pcm24⟩

/-- `F32`. -/
def f32 : SampleFormat := ⟨"F32", 4, wavReadF32le, width_f32, runs_f32⟩

/-- What the last format chunk said. -/
structure Layout where
  nChannels : ℤ := 0
  sampleRate : ℤ := 0
  bitsPerSample : ℤ := 0
  audioFormat : UInt16 := 0
  extensibleSubformat : UInt16 := 0
  deriving DecidableEq, Repr

/-- The format of the samples, none for one that is not supported. -/
def Layout.format (layout : Layout) : Option SampleFormat :=
  if layout.audioFormat = 1 ∧ layout.bitsPerSample = 16 then some pcm16
  else if layout.audioFormat = 1 ∧ layout.bitsPerSample = 24 then some pcm24
  else if layout.audioFormat = 3 ∧ layout.bitsPerSample = 32 then some f32
  else none

/-! ### Outcomes -/

/-- Why there is no audio. -/
inductive Refusal
  | notWav
  | oom (format : String) (nSamples : ℕ)
  | unsupported (format : UInt16) (bits : ℤ) (subformat : UInt16)
  | noAudio
  deriving DecidableEq, Repr

/-- The message. -/
def Refusal.text : Refusal → String
  | notWav => "[WAV] Not a valid WAV buffer"
  | oom format nSamples =>
    "[WAV] OOM allocating " ++ format ++ " buffer for " ++ toString nSamples ++ " samples"
  | unsupported format bits subformat =>
    "[WAV] Unsupported: format=" ++ toString format ++ " bits=" ++ toString bits ++
      " subformat=" ++ toString subformat
  | noAudio => "[WAV] No audio data in buffer"

/-- What the reader returns: the frames of two floats each, how many, and the rate. -/
structure Audio where
  audio : List (Option CFloat)
  tAudio : ℕ
  sr : ℤ

/-- What it comes to. -/
abbrev Outcome := Except Refusal Audio

/-! ### The samples -/

/-- `audio[i] = x`, in floats that have no value until they are written. -/
def store (audio : List (Option CFloat)) (i : ℕ) (x : CFloat) : Except Fault (List (Option CFloat)) :=
  require (i < audio.length) .write (audio.set i (some x))

/-- The two floats of a frame: one sample of one channel, or the first two of more. -/
def readFrame (fmt : SampleFormat) (buf : Buffer) (pos : ℕ) (nChannels : ℤ) (t : ℕ) :
    Except Fault (CFloat × CFloat) :=
  if nChannels = 1 then do
    let offset ← asInt (t * fmt.width)
    let s ← fmt.sample buf (pos + offset)
    return (s, s)
  else do
    let frames ← asSize (t * nChannels.toNat)
    let offset ← asSize (frames * fmt.width)
    let l ← fmt.sample buf (pos + offset)
    let r ← fmt.sample buf (pos + offset + fmt.width)
    return (l, r)

/-- The body of the loop over the samples. -/
def convertFrame (fmt : SampleFormat) (buf : Buffer) (pos : ℕ) (nChannels : ℤ) (t : ℕ)
    (audio : List (Option CFloat)) : Except Fault (List (Option CFloat)) := do
  let frame ← readFrame fmt buf pos nChannels t
  let two ← asInt (t * 2)
  let left ← asInt (two + 0)
  let right ← asInt (two + 1)
  let audio ← store audio left frame.1
  store audio right frame.2

/-- The branch of a format. -/
def readSamples (malloc : ℕ → Bool) (fmt : SampleFormat) (buf : Buffer) (layout : Layout)
    (pos dataBytes : ℕ) : Except Fault Outcome := do
  let frameBytes ← asSize (layout.nChannels.toNat * fmt.width)
  let nSamples ← asInt (dataBytes / frameBytes)
  let floats ← asSize (nSamples * 2)
  let room ← asSize (floats * 4)
  if malloc room then do
    let audio ← countUp (convertFrame fmt buf pos layout.nChannels) nSamples 0
      (List.replicate floats none)
    return .ok ⟨audio, nSamples, layout.sampleRate⟩
  else return .error (.oom fmt.name nSamples)

/-- The data chunk. -/
def readData (malloc : ℕ → Bool) (buf : Buffer) (layout : Layout) (pos dataBytes : ℕ) :
    Except Fault Outcome :=
  match layout.format with
  | some fmt => readSamples malloc fmt buf layout pos dataBytes
  | none =>
    return .error <|
      .unsupported layout.audioFormat layout.bitsPerSample layout.extensibleSubformat

/-! ### The chunks -/

/-- The format chunk. -/
def readFmt (buf : Buffer) (pos chunkSize : ℕ) : Except Fault Layout := do
  let audioFormat ← wavReadU16le buf pos
  let nChannels ← wavReadU16le buf (pos + 2)
  let sampleRate ← wavReadU32le buf (pos + 4)
  let bitsPerSample ← wavReadU16le buf (pos + 14)
  let layout : Layout :=
    { nChannels := nChannels.toNat, sampleRate := sampleRate.toInt32.toInt
      bitsPerSample := bitsPerSample.toNat, audioFormat := audioFormat, extensibleSubformat := 0 }
  if audioFormat = 0xfffe ∧ 40 ≤ chunkSize then do
    let subformat ← wavReadU16le buf (pos + 24)
    return { layout with
      extensibleSubformat := subformat
      audioFormat := if subformat = 1 ∨ subformat = 3 then subformat else audioFormat }
  else return layout

/-- The loop over the chunks, for so many of them at most. -/
def readChunks (malloc : ℕ → Bool) (buf : Buffer) : ℕ → Layout → ℕ → Except Fault Outcome
  | 0, _, _ => .error .unfinished
  | left + 1, layout, pos => do
    let start ← asSize (pos + 8)
    if buf.bytes.length < start then return .error .noAudio
    else do
      let chunkId ← buf.slice pos 4
      let sizeField ← wavReadU32le buf (pos + 4)
      let stop ← asSize (start + sizeField.toNat)
      -- what is clipped is below the size it was read as, so it fits 32 bits again
      let chunkSize := if buf.bytes.length < stop then buf.bytes.length - start else sizeField.toNat
      let goOn := fun layout : Layout => do
        let pos ← asSize (start + chunkSize)
        let pos ← asSize (pos + chunkSize % 2)
        readChunks malloc buf left layout pos
      if chunkId = ascii "fmt " ∧ 16 ≤ chunkSize then do
        let layout ← readFmt buf start chunkSize
        goOn layout
      else if chunkId = ascii "data" ∧ 0 < layout.nChannels then
        readData malloc buf layout start chunkSize
      else goOn layout

/-- `read_wav_buf`; every chunk takes a byte or more. -/
def readWavBuf (malloc : ℕ → Bool) (buf : Buffer) : Except Fault Outcome :=
  if buf.bytes.length < 12 then return .error .notWav
  else do
    let riff ← buf.slice 0 4
    if riff ≠ ascii "RIFF" then return .error .notWav
    else do
      let wave ← buf.slice 8 4
      if wave ≠ ascii "WAVE" then return .error .notWav
      else readChunks malloc buf (buf.bytes.length + 1) {} 12

end Wav
end S2S
