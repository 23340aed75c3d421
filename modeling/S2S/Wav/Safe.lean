/-
# What the reader stays inside of

The chunks of a buffer, and the first data chunk under the last format before it,
as plain functions of the bytes (`firstData`).  The reader goes through the same
chunks without a fault (`readChunks_eq`), so what is left is one data chunk.

There the place of a sample is a `size_t` for two channels or more, but an `int`
for one: it does not fit from the byte 2³¹ of the chunk on.  So the reader keeps
inside its buffer, its samples and its types exactly when no mono chunk goes that
far (`readWavBuf_safe_iff`).
-/

import S2S.Wav.Read

namespace S2S
namespace Wav

open Json Llm Models

/-! ### The chunks -/

/-- A chunk: its name, where its bytes start, and how many the buffer has of them. -/
structure Chunk where
  id : Bytes
  start : ℕ
  size : ℕ
  deriving DecidableEq, Repr

/-- The chunks from a place on, so many of them at most. -/
def chunksAt (bytes : Bytes) : ℕ → ℕ → List Chunk
  | 0, _ => []
  | left + 1, pos =>
    if bytes.length < pos + 8 then []
    else
      let size := min (u32At bytes (pos + 4)).toNat (bytes.length - (pos + 8))
      ⟨(bytes.drop pos).take 4, pos + 8, size⟩ ::
        chunksAt bytes left (pos + 8 + size + size % 2)

/-- What a format chunk says. -/
def layoutAt (bytes : Bytes) (c : Chunk) : Layout :=
  let audioFormat := u16At bytes c.start
  let subformat := if audioFormat = 0xfffe ∧ 40 ≤ c.size then u16At bytes (c.start + 24) else 0
  { nChannels := (u16At bytes (c.start + 2)).toNat
    sampleRate := (u32At bytes (c.start + 4)).toInt32.toInt
    bitsPerSample := (u16At bytes (c.start + 14)).toNat
    audioFormat := if subformat = 1 ∨ subformat = 3 then subformat else audioFormat
    extensibleSubformat := subformat }

/-- The first data chunk, and the layout it is read in. -/
def dataUnder (bytes : Bytes) : Layout → List Chunk → Option (Layout × Chunk)
  | _, [] => none
  | layout, c :: cs =>
    if c.id = ascii "fmt " ∧ 16 ≤ c.size then dataUnder bytes (layoutAt bytes c) cs
    else if c.id = ascii "data" ∧ 0 < layout.nChannels then some (layout, c)
    else dataUnder bytes layout cs

/-- The same, of a buffer that is a WAV one. -/
def firstData (bytes : Bytes) : Option (Layout × Chunk) :=
  if bytes.length < 12 ∨ bytes.take 4 ≠ ascii "RIFF" ∨ (bytes.drop 8).take 4 ≠ ascii "WAVE" then none
  else dataUnder bytes {} (chunksAt bytes (bytes.length + 1) 12)

/-! ### Checked steps -/

theorem asInt_eq {n : ℕ} (h : n < 2 ^ 31) : asInt n = .ok n := require_eq _ _ h

theorem asSize_eq {n : ℕ} (h : n < 2 ^ 64) : asSize n = .ok n := require_eq _ _ h

theorem slice_eq {buf : Buffer} {pos n : ℕ} (h : pos + n ≤ buf.bytes.length) :
    buf.slice pos n = .ok ((buf.bytes.drop pos).take n) :=
  require_eq _ _ h

theorem runs_store {audio : List (Option CFloat)} {i n : ℕ} (x : CFloat) (hlen : audio.length = n)
    (hi : i < n) : Runs (store audio i x) fun audio' => audio'.length = n :=
  ⟨_, require_eq _ _ (hlen ▸ hi), List.length_set.trans hlen⟩

/-! ### The way to the data -/

theorem chunksAt_bounds {bytes : Bytes} {left pos : ℕ} {c : Chunk} (h : c ∈ chunksAt bytes left pos) :
    c.start + c.size ≤ bytes.length ∧ c.size < 2 ^ 32 := by
  induction left generalizing pos with
  | zero => exact absurd h (by simp [chunksAt])
  | succ left ih =>
    rw [chunksAt] at h
    split_ifs at h with hend
    · exact absurd h (by simp)
    · rcases List.mem_cons.1 h with rfl | h
      · have := (u32At bytes (pos + 4)).toNat_lt
        dsimp only
        omega
      · exact ih h

theorem dataUnder_bounds {bytes : Bytes} {layout : Layout} {cs : List Chunk}
    {found : Layout × Chunk} (h : dataUnder bytes layout cs = some found)
    (hlayout : layout.nChannels < 2 ^ 16) :
    found.2 ∈ cs ∧ 0 < found.1.nChannels ∧ found.1.nChannels < 2 ^ 16 := by
  induction cs generalizing layout with
  | nil => exact absurd h (by simp [dataUnder])
  | cons c cs ih =>
    rw [dataUnder] at h
    split_ifs at h with hfmt hdata
    · have hnew : (layoutAt bytes c).nChannels < 2 ^ 16 := by
        have := (u16At bytes (c.start + 2)).toNat_lt
        change ((u16At bytes (c.start + 2)).toNat : ℤ) < 2 ^ 16
        omega
      obtain ⟨hmem, hbounds⟩ := ih h hnew
      exact ⟨List.mem_cons_of_mem _ hmem, hbounds⟩
    · cases h
      exact ⟨List.mem_cons_self .., hdata.2, hlayout⟩
    · obtain ⟨hmem, hbounds⟩ := ih h hlayout
      exact ⟨List.mem_cons_of_mem _ hmem, hbounds⟩

/-- The format chunk is read in its own bytes. -/
theorem readFmt_eq {buf : Buffer} {c : Chunk} (hsize : 16 ≤ c.size)
    (hend : c.start + c.size ≤ buf.bytes.length) :
    readFmt buf c.start c.size = .ok (layoutAt buf.bytes c) := by
  rw [readFmt, wavReadU16le_eq (by omega), wavReadU16le_eq (by omega), wavReadU32le_eq (by omega),
    wavReadU16le_eq (by omega), layoutAt]
  by_cases hext : u16At buf.bytes c.start = 0xfffe ∧ 40 ≤ c.size
  · simp only [if_pos hext]
    rw [wavReadU16le_eq (by omega)]
    exact if_pos hext
  · simp only [if_neg hext]
    exact if_neg hext

variable (malloc : ℕ → Bool)

/-- What is left once the chunks are known. -/
def finish (buf : Buffer) : Option (Layout × Chunk) → Except Fault Outcome
  | none => .ok (.error .noAudio)
  | some (layout, c) => readData malloc buf layout c.start c.size

/-- **The loop goes through the chunks without a fault**, to the first data chunk. -/
theorem readChunks_eq (buf : Buffer) {left pos : ℕ} (layout : Layout)
    (hpos : pos ≤ buf.bytes.length + 1) (hleft : buf.bytes.length + 1 < left + pos) :
    readChunks malloc buf left layout pos =
      finish malloc buf (dataUnder buf.bytes layout (chunksAt buf.bytes left pos)) := by
  induction left generalizing pos layout with
  | zero => omega
  | succ left ih =>
    have hlen := buf.length_lt
    rw [readChunks, asSize_eq (by omega), chunksAt]
    by_cases hend : buf.bytes.length < pos + 8
    · simp only [ok_bind, if_pos hend]
      rfl
    have hfield := (u32At buf.bytes (pos + 4)).toNat_lt
    rw [slice_eq (by omega), wavReadU32le_eq (by omega)]
    simp only [ok_bind, if_neg hend, asSize_eq (n := pos + 8 + (u32At buf.bytes (pos + 4)).toNat)
      (by omega)]
    have hclip : (if buf.bytes.length < pos + 8 + (u32At buf.bytes (pos + 4)).toNat then
        buf.bytes.length - (pos + 8) else (u32At buf.bytes (pos + 4)).toNat) =
          min (u32At buf.bytes (pos + 4)).toNat (buf.bytes.length - (pos + 8)) := by
      split_ifs <;> omega
    rw [hclip]
    set size := min (u32At buf.bytes (pos + 4)).toNat (buf.bytes.length - (pos + 8)) with hsize
    have hgoOn : ∀ layout' : Layout, (do
        let pos ← asSize (pos + 8 + size)
        let pos ← asSize (pos + size % 2)
        readChunks malloc buf left layout' pos) = finish malloc buf
          (dataUnder buf.bytes layout' (chunksAt buf.bytes left (pos + 8 + size + size % 2))) := by
      intro layout'
      rw [asSize_eq (by omega), ok_bind, asSize_eq (by omega), ok_bind]
      exact ih layout' (by omega) (by omega)
    rw [dataUnder]
    by_cases hfmt : (buf.bytes.drop pos).take 4 = ascii "fmt " ∧ 16 ≤ size
    · have hread := @readFmt_eq buf ⟨(buf.bytes.drop pos).take 4, pos + 8, size⟩ hfmt.2
        (by dsimp only; omega)
      rw [if_pos hfmt, if_pos hfmt, hread, ok_bind]
      exact hgoOn _
    · rw [if_neg hfmt, if_neg hfmt]
      by_cases hdata : (buf.bytes.drop pos).take 4 = ascii "data" ∧ 0 < layout.nChannels
      · rw [if_pos hdata, if_pos hdata]
        rfl
      · rw [if_neg hdata, if_neg hdata]
        exact hgoOn layout

/-! ### The samples -/

section Samples

variable {buf : Buffer} {fmt : SampleFormat} {pos size : ℕ} {nChannels : ℤ}

/-- A frame that the chunk has is read, of one channel only while an `int` reaches it. -/
theorem runs_readFrame (hpos : 0 < nChannels) (hend : pos + size ≤ buf.bytes.length)
    (hsize : size < 2 ^ 32) {t : ℕ} (ht : (t + 1) * (nChannels.toNat * fmt.width) ≤ size)
    (hmono : nChannels = 1 → t * fmt.width < 2 ^ 31) :
    Runs (readFrame fmt buf pos nChannels t) fun _ => True := by
  rw [add_one_mul] at ht
  unfold readFrame
  by_cases hone : nChannels = 1
  · rw [if_pos hone, asInt_eq (hmono hone), ok_bind]
    rw [hone, Int.toNat_one, one_mul] at ht
    exact (fmt.runs_sample buf _ (by omega)).bind fun _ _ => Runs.pure trivial
  · obtain ⟨c, hc, hchannels⟩ : ∃ c : ℕ, 2 ≤ c ∧ nChannels.toNat = c :=
      ⟨nChannels.toNat, by omega, rfl⟩
    have hplace : t * c * fmt.width = t * (c * fmt.width) := mul_assoc t c fmt.width
    have hwide : 2 * fmt.width ≤ c * fmt.width := Nat.mul_le_mul_right _ hc
    have hframes : t * c ≤ t * c * fmt.width :=
      Nat.le_mul_of_pos_right _ (by have := fmt.width_bounds; omega)
    rw [hchannels] at ht ⊢
    rw [if_neg hone, asSize_eq (by omega), ok_bind, asSize_eq (by omega), ok_bind]
    refine (fmt.runs_sample buf _ (by omega)).bind fun _ _ => ?_
    exact (fmt.runs_sample buf _ (by omega)).bind fun _ _ => Runs.pure trivial

/-- Its two floats are written where they belong. -/
theorem runs_convertFrame {t n : ℕ} {audio : List (Option CFloat)} (hlen : audio.length = n * 2)
    (ht : t < n) (hindex : t * 2 + 1 < 2 ^ 31)
    (hframe : Runs (readFrame fmt buf pos nChannels t) fun _ => True) :
    Runs (convertFrame fmt buf pos nChannels t audio) fun audio' => audio'.length = n * 2 := by
  refine hframe.bind fun frame _ => ?_
  rw [asInt_eq (by omega), ok_bind, asInt_eq (by omega), ok_bind, asInt_eq (by omega), ok_bind]
  exact (runs_store frame.1 hlen (by omega)).bind fun audio' hlen' =>
    runs_store frame.2 hlen' (by omega)

/-- One sample of one channel that an `int` does not reach. -/
theorem faults_convertFrame {t : ℕ} (ht : 2 ^ 31 ≤ t * fmt.width) (audio : List (Option CFloat)) :
    Faults (convertFrame fmt buf pos 1 t audio) := by
  refine Faults.bind ?_ _
  rw [readFrame, if_pos rfl]
  exact (faults_require _ _ (Nat.not_lt.2 ht)).bind _

end Samples

/-- **The samples that an `int` does not reach**: the last one of a mono chunk starts at its byte 2³¹
or later, and there is room for them all. -/
def TooFar (layout : Layout) (fmt : SampleFormat) (size : ℕ) : Prop :=
  layout.nChannels = 1 ∧ 2 ^ 31 ≤ (size / fmt.width - 1) * fmt.width ∧
    malloc (size / fmt.width * 2 * 4) = true

section Branch

variable {buf : Buffer} {fmt : SampleFormat} {layout : Layout} {pos size : ℕ}

theorem runs_readSamples (hpos : 0 < layout.nChannels) (hchannels : layout.nChannels < 2 ^ 16)
    (hend : pos + size ≤ buf.bytes.length) (hsize : size < 2 ^ 32)
    (hnear : ¬TooFar malloc layout fmt size) :
    Runs (readSamples malloc fmt buf layout pos size) fun _ => True := by
  obtain ⟨c, hc, hcEq⟩ : ∃ c : ℕ, layout.nChannels = c ∧ layout.nChannels.toNat = c :=
    ⟨layout.nChannels.toNat, by omega, rfl⟩
  have hwidth := fmt.width_bounds
  have hframe : 2 ≤ c * fmt.width := hwidth.1.trans (Nat.le_mul_of_pos_left _ (by omega))
  have hframeLt : c * fmt.width ≤ 2 ^ 16 * 4 := Nat.mul_le_mul (by omega) hwidth.2
  obtain ⟨n, hn⟩ : ∃ n, n = size / (c * fmt.width) := ⟨_, rfl⟩
  have hnMul : n * (c * fmt.width) ≤ size := hn ▸ Nat.div_mul_le_self size _
  have hnLt : n * 2 ≤ n * (c * fmt.width) := Nat.mul_le_mul_left n hframe
  rw [readSamples, hcEq, asSize_eq (by omega), ok_bind, ← hn, asInt_eq (by omega), ok_bind,
    asSize_eq (by omega), ok_bind, asSize_eq (by omega), ok_bind]
  by_cases hmalloc : malloc (n * 2 * 4) = true
  · rw [if_pos hmalloc]
    have hloop : Runs (countUp (convertFrame fmt buf pos layout.nChannels) n 0
        (List.replicate (n * 2) none)) fun audio => audio.length = n * 2 := by
      refine runs_countUp _ (fun t audio _ ht hlen => ?_) List.length_replicate
      have hlast : (t + 1) * (c * fmt.width) ≤ size :=
        (Nat.mul_le_mul_right _ (by omega)).trans hnMul
      have hmono : layout.nChannels = 1 → t * fmt.width < 2 ^ 31 := by
        intro hone
        have hcOne : c = 1 := by omega
        rw [hcOne, one_mul] at hn
        by_contra hfar
        have hle : t * fmt.width ≤ (n - 1) * fmt.width := Nat.mul_le_mul_right _ (by omega)
        exact hnear ⟨hone, hn ▸ (by omega), hn ▸ hmalloc⟩
      have hindex : t * 2 + 1 < 2 ^ 31 := by
        by_cases hone : layout.nChannels = 1
        · have hdouble : t * 2 ≤ t * fmt.width := Nat.mul_le_mul_left t hwidth.1
          have := hmono hone
          omega
        · have hfour : 2 * 2 ≤ c * fmt.width := Nat.mul_le_mul (by omega) hwidth.1
          have hquad : (t + 1) * (2 * 2) ≤ (t + 1) * (c * fmt.width) := Nat.mul_le_mul_left _ hfour
          omega
      exact runs_convertFrame hlen (by omega) hindex
        (runs_readFrame hpos hend hsize (by rw [hcEq]; exact hlast) hmono)
    exact hloop.bind fun audio _ => Runs.pure trivial
  · rw [if_neg hmalloc]
    exact Runs.pure trivial

theorem faults_readSamples (hsize : size < 2 ^ 32) (hfar : TooFar malloc layout fmt size) :
    Faults (readSamples malloc fmt buf layout pos size) := by
  obtain ⟨hone, hlast, hmalloc⟩ := hfar
  have hwidth := fmt.width_bounds
  obtain ⟨n, hn⟩ : ∃ n, n = size / fmt.width := ⟨_, rfl⟩
  have hnMul : n * fmt.width ≤ size := hn ▸ Nat.div_mul_le_self size _
  have hnLt : n * 2 ≤ n * fmt.width := Nat.mul_le_mul_left n hwidth.1
  rw [← hn] at hlast hmalloc
  have hpos : 0 < n := by
    rcases Nat.eq_zero_or_pos n with hzero | hpos
    · rw [hzero, Nat.zero_sub, zero_mul] at hlast
      omega
    · exact hpos
  rw [readSamples, hone, Int.toNat_one, one_mul, asSize_eq (by omega), ok_bind, ← hn,
    asInt_eq (by omega), ok_bind, asSize_eq (by omega), ok_bind, asSize_eq (by omega), ok_bind,
    if_pos hmalloc]
  refine (faults_countUp (k := n - 1) (Nat.zero_le _) (by omega) (fun audio => ?_) _).bind _
  exact faults_convertFrame hlast audio

end Branch

/-! ### The whole reader -/

/-- **The inputs that break the reader**: the first data chunk under a format is mono, of a supported
format, and its samples go too far. -/
def Overlong (buf : Buffer) : Prop :=
  ∃ layout c fmt, firstData buf.bytes = some (layout, c) ∧ layout.format = some fmt ∧
    TooFar malloc layout fmt c.size

/-- Without a fault the reader goes as far as the data. -/
theorem readWavBuf_eq (buf : Buffer) : (∃ refusal, readWavBuf malloc buf = .ok (.error refusal) ∧
      firstData buf.bytes = none) ∨
    readWavBuf malloc buf = finish malloc buf (firstData buf.bytes) := by
  have hlen := buf.length_lt
  unfold readWavBuf firstData
  by_cases hshort : buf.bytes.length < 12
  · exact .inl ⟨.notWav, if_pos hshort, if_pos (.inl hshort)⟩
  rw [if_neg hshort, slice_eq (by omega), ok_bind, List.drop_zero]
  by_cases hriff : buf.bytes.take 4 ≠ ascii "RIFF"
  · exact .inl ⟨.notWav, if_pos hriff, if_pos (.inr (.inl hriff))⟩
  rw [if_neg hriff, slice_eq (by omega), ok_bind]
  by_cases hwave : (buf.bytes.drop 8).take 4 ≠ ascii "WAVE"
  · exact .inl ⟨.notWav, if_pos hwave, if_pos (.inr (.inr hwave))⟩
  rw [if_neg hwave, if_neg (by simp only [not_or]; exact ⟨hshort, hriff, hwave⟩)]
  exact .inr (readChunks_eq malloc buf {} (by omega) (by omega))

theorem firstData_bounds {bytes : Bytes} {layout : Layout} {c : Chunk}
    (h : firstData bytes = some (layout, c)) :
    c.start + c.size ≤ bytes.length ∧ c.size < 2 ^ 32 ∧ 0 < layout.nChannels ∧
      layout.nChannels < 2 ^ 16 := by
  unfold firstData at h
  split_ifs at h
  obtain ⟨hmem, hpos, hlt⟩ := dataUnder_bounds h (by norm_num)
  obtain ⟨hend, hsize⟩ := chunksAt_bounds hmem
  exact ⟨hend, hsize, hpos, hlt⟩

theorem runs_readWavBuf {buf : Buffer} (h : ¬Overlong malloc buf) :
    Runs (readWavBuf malloc buf) fun _ => True := by
  rcases readWavBuf_eq malloc buf with ⟨refusal, hread, -⟩ | hread
  · exact ⟨_, hread, trivial⟩
  rw [hread]
  cases hfirst : firstData buf.bytes with
  | none => exact Runs.pure trivial
  | some found =>
    obtain ⟨layout, c⟩ := found
    obtain ⟨hend, hsize, hpos, hlt⟩ := firstData_bounds hfirst
    rw [finish, readData]
    cases hformat : layout.format with
    | none => exact Runs.pure trivial
    | some fmt =>
      exact runs_readSamples malloc hpos hlt hend hsize fun hfar =>
        h ⟨layout, c, fmt, hfirst, hformat, hfar⟩

theorem faults_readWavBuf {buf : Buffer} (h : Overlong malloc buf) :
    Faults (readWavBuf malloc buf) := by
  obtain ⟨layout, c, fmt, hfirst, hformat, hfar⟩ := h
  rcases readWavBuf_eq malloc buf with ⟨refusal, -, hnone⟩ | hread
  · exact absurd (hnone.symm.trans hfirst) (by simp)
  · rw [hread, hfirst, finish, readData, hformat]
    exact faults_readSamples malloc (firstData_bounds hfirst).2.1 hfar

/-- **When the reader keeps inside**: it ends, no byte outside the buffer is read, no float outside the
samples is written and every index fits its type, exactly for a buffer that is not `Overlong`. -/
theorem readWavBuf_safe_iff (buf : Buffer) :
    Runs (readWavBuf malloc buf) (fun _ => True) ↔ ¬Overlong malloc buf :=
  ⟨fun hruns hlong => (faults_readWavBuf malloc hlong).not_runs _ hruns, runs_readWavBuf malloc⟩

/-! ### A file that breaks it -/

/-- The head of a mono file of 16 bits at 8 kHz, its data chunk of 2³¹ + 2 bytes. -/
def longHead : Bytes :=
  ascii "RIFF" ++ [0x26, 0, 0, 0x80] ++ ascii "WAVE" ++ ascii "fmt " ++ [16, 0, 0, 0] ++
    [1, 0, 1, 0, 0x40, 0x1F, 0, 0, 0x80, 0x3E, 0, 0, 2, 0, 16, 0] ++ ascii "data" ++ [2, 0, 0, 0x80]

theorem length_longHead : longHead.length = 44 := by decide

/-- The layout it gives. -/
def longLayout : Layout where
  nChannels := 1
  sampleRate := 8000
  bitsPerSample := 16
  audioFormat := 1

theorem getD_append {xs ys : Bytes} {i : ℕ} (hi : i < xs.length) :
    (xs ++ ys).getD i 0 = xs.getD i 0 := by
  rw [List.getD_eq_getElem?_getD, List.getD_eq_getElem?_getD, List.getElem?_append_left hi]

theorem u16At_append {xs : Bytes} (ys : Bytes) {i : ℕ} (hi : i + 2 ≤ xs.length) :
    u16At (xs ++ ys) i = u16At xs i := by
  rw [u16At, getD_append (by omega), getD_append (by omega), u16At]

theorem u32At_append {xs : Bytes} (ys : Bytes) {i : ℕ} (hi : i + 4 ≤ xs.length) :
    u32At (xs ++ ys) i = u32At xs i := by
  rw [u32At, getD_append (by omega), getD_append (by omega), getD_append (by omega),
    getD_append (by omega), u32At]

theorem slice_append {xs : Bytes} (ys : Bytes) {i n : ℕ} (hi : i + n ≤ xs.length) :
    ((xs ++ ys).drop i).take n = (xs.drop i).take n := by
  rw [List.drop_append_of_le_length (by omega),
    List.take_append_of_le_length (by rw [List.length_drop]; omega)]

theorem chunksAt_succ {bytes : Bytes} {left pos : ℕ} (size : ℕ) (hend : pos + 8 ≤ bytes.length)
    (hsize : min (u32At bytes (pos + 4)).toNat (bytes.length - (pos + 8)) = size) :
    chunksAt bytes (left + 1) pos = ⟨(bytes.drop pos).take 4, pos + 8, size⟩ ::
      chunksAt bytes left (pos + 8 + size + size % 2) := by
  rw [chunksAt, if_neg (Nat.not_lt.2 hend), ← hsize]

section LongFile

variable {body : Bytes}

theorem chunksAt_long (hbody : body.length = 2 ^ 31 + 2) :
    ∃ rest, chunksAt (longHead ++ body) ((longHead ++ body).length + 1) 12 =
      ⟨ascii "fmt ", 20, 16⟩ :: ⟨ascii "data", 44, 2 ^ 31 + 2⟩ :: rest := by
  have hhead := length_longHead
  have hlen : (longHead ++ body).length = 2 ^ 31 + 46 := by
    rw [List.length_append]
    omega
  have hfmt : (u32At (longHead ++ body) (12 + 4)).toNat = 16 := by
    rw [u32At_append body (by omega)]
    decide +kernel
  have hdata : (u32At (longHead ++ body) (36 + 4)).toNat = 2 ^ 31 + 2 := by
    rw [u32At_append body (by omega)]
    decide +kernel
  have hfmtId : ((longHead ++ body).drop 12).take 4 = ascii "fmt " := by
    rw [slice_append body (by omega)]
    decide +kernel
  have hdataId : ((longHead ++ body).drop 36).take 4 = ascii "data" := by
    rw [slice_append body (by omega)]
    decide +kernel
  obtain ⟨left, hleft⟩ : ∃ left, (longHead ++ body).length + 1 = left + 1 + 1 := ⟨_, rfl⟩
  have hnext : 12 + 8 + 16 + 16 % 2 = 36 := rfl
  rw [hleft, chunksAt_succ 16 (by omega) (by omega), hfmtId, hnext,
    chunksAt_succ (2 ^ 31 + 2) (by omega) (by omega), hdataId]
  exact ⟨_, rfl⟩

theorem layoutAt_long : layoutAt (longHead ++ body) ⟨ascii "fmt ", 20, 16⟩ = longLayout := by
  have hhead := length_longHead
  have hplain : ¬(u16At (longHead ++ body) 20 = 0xfffe ∧ 40 ≤ 16) := fun h => absurd h.2 (by decide)
  unfold layoutAt
  dsimp only
  rw [if_neg hplain, u16At_append body (by omega), u16At_append body (by omega),
    u16At_append body (by omega), u32At_append body (by omega)]
  decide +kernel

/-- The data chunk is found, whatever is in it. -/
theorem firstData_long (hbody : body.length = 2 ^ 31 + 2) :
    firstData (longHead ++ body) = some (longLayout, ⟨ascii "data", 44, 2 ^ 31 + 2⟩) := by
  have hhead := length_longHead
  have hlong : ¬(longHead ++ body).length < 12 := by
    rw [List.length_append]
    omega
  have hriff : (longHead ++ body).take 4 = ascii "RIFF" := by
    rw [List.take_append_of_le_length (by omega)]
    decide +kernel
  have hwave : ((longHead ++ body).drop 8).take 4 = ascii "WAVE" := by
    rw [slice_append body (by omega)]
    decide +kernel
  obtain ⟨rest, hchunks⟩ := chunksAt_long hbody
  have hwav : ¬((longHead ++ body).length < 12 ∨ (longHead ++ body).take 4 ≠ ascii "RIFF" ∨
      ((longHead ++ body).drop 8).take 4 ≠ ascii "WAVE") := by
    rw [hriff, hwave]
    simpa using hlong
  rw [firstData, if_neg hwav, hchunks, dataUnder,
    if_pos ⟨rfl, le_rfl⟩, layoutAt_long, dataUnder, if_neg (by decide), if_pos (by decide)]

end LongFile

theorem length_longFile : (longHead ++ List.replicate (2 ^ 31 + 2) 0).length < 2 ^ 63 := by
  rw [List.length_append, length_longHead, List.length_replicate]
  norm_num

/-- The file, silent. -/
def longFile : Buffer := ⟨longHead ++ List.replicate (2 ^ 31 + 2) 0, length_longFile⟩

/-- Its sample at byte 2³¹ is not reached. -/
theorem longFile_unsafe : ¬Runs (readWavBuf (fun _ => true) longFile) fun _ => True := by
  have hfar : TooFar (fun _ => true) longLayout pcm16 (2 ^ 31 + 2) := ⟨rfl, by decide, rfl⟩
  have hfirst : firstData longFile.bytes = some (longLayout, ⟨ascii "data", 44, 2 ^ 31 + 2⟩) :=
    firstData_long List.length_replicate
  exact (faults_readWavBuf (fun _ => true) ⟨_, _, pcm16, hfirst, rfl, hfar⟩).not_runs _

end Wav
end S2S
