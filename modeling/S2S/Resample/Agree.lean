/-
# The stream and the whole buffer

Both resamplers are the same computation: a window of the padded input against
the rows of the kernel (`group`).  The stream puts out the windows its pieces
complete (`pushAll_eq`), which do not depend on where they are cut
(`cutPieces_flatten`); the whole buffer has those windows first and more behind
them, because its pad is longer.  So what the stream puts out is the start of
what the buffer holds (`resample_agrees`).
-/

import S2S.Resample.Length

namespace S2S
namespace Resample

/-- A loop whose every turn succeeds gives every result. -/
theorem mapM_eq_ok {ε α β : Type} {f : α → Except ε β} {g : α → β} {l : List α}
    (h : ∀ a ∈ l, f a = .ok (g a)) : l.mapM f = .ok (l.map g) := by
  induction l with
  | nil => rfl
  | cons a l ih =>
    rw [List.mapM_cons, h a List.mem_cons_self, ih fun b hb => h b (List.mem_cons_of_mem _ hb)]
    rfl

/-- Quotients and remainders of the numbers below a product go through a table. -/
theorem range_mul_map {β : Type} (f : ℕ → ℕ → β) (rows : ℕ) {columns : ℕ} (hc : 0 < columns) :
    (List.range (rows * columns)).map (fun t => f (t / columns) (t % columns)) =
      (List.range rows).flatMap fun g => (List.range columns).map (f g) := by
  induction rows with
  | zero => simp
  | succ rows ih =>
    rw [Nat.succ_mul, List.range_add, List.map_append, ih, List.range_succ, List.flatMap_append,
      List.flatMap_singleton, List.map_map]
    congr 1
    refine List.map_congr_left fun j hj => ?_
    have hlt := List.mem_range.1 hj
    simp only [Function.comp_apply]
    rw [Nat.mul_comm rows, Nat.mul_add_div hc, Nat.mul_add_mod, Nat.div_eq_of_lt hlt,
      Nat.mod_eq_of_lt hlt, Nat.add_zero]

/-- A channel of a planar buffer. -/
theorem length_cut {F : Type} {samples : List F} {n nch ch : ℕ} (hlen : samples.length = nch * n)
    (hch : ch < nch) : ((samples.drop (ch * n)).take n).length = n := by
  have hroom := Nat.mul_le_mul_right n (Nat.succ_le_of_lt hch)
  rw [Nat.succ_mul] at hroom
  rw [List.length_take, List.length_drop]
  omega

/-- The numbers below a bound begin those below a greater one. -/
theorem range_begins {a b : ℕ} (h : a ≤ b) : List.range a <+: List.range b := by
  obtain ⟨c, rfl⟩ := Nat.exists_eq_add_of_le h
  rw [List.range_add]
  exact List.prefix_append _ _

section Window
variable {F : Type}

/-- A kernel of `newf` rows, each long enough for one step of the input. -/
structure Built (orig newf : ℕ) (kernel : Kernel F) : Prop where
  orig_pos : 0 < orig
  newf_pos : 0 < newf
  width_pos : 0 < kernel.width
  size : kernel.K = 2 * kernel.width + orig
  rows : kernel.coefficients.length = newf * kernel.K

theorem Built.orig_le {orig newf : ℕ} {kernel : Kernel F} (hb : Built orig newf kernel) : orig ≤ kernel.K := by
  rw [hb.size]
  omega

/-- Row `j` of the kernel. -/
def row (kernel : Kernel F) (j : ℕ) : List F := window kernel.K kernel.K kernel.coefficients j

theorem length_pad [Zero F] (orig width : ℕ) (input : List F) :
    (pad orig width input).length = input.length + 2 * width + orig := by
  simp only [pad, List.length_append, List.length_replicate]
  omega

variable [Add F] [Mul F]

theorem sumProducts_eq (K : ℕ) : ∀ {xs ws : List F} {sum : F}, K ≤ xs.length → K ≤ ws.length →
    sumProducts K xs ws sum =
      .ok ((List.zipWith (· * ·) (xs.take K) (ws.take K)).foldl (· + ·) sum) := by
  induction K with
  | zero =>
    intro xs ws sum _ _
    simp [sumProducts]
  | succ K ih =>
    intro xs ws sum hx hw
    cases xs with
    | nil => simp at hx
    | cons x xs =>
      cases ws with
      | nil => simp at hw
      | cons w ws =>
        simp only [List.length_cons, Nat.add_le_add_iff_right] at hx hw
        simp only [sumProducts, List.take_succ_cons, List.zipWith_cons_cons, List.foldl_cons]
        exact ih hx hw

variable {orig newf : ℕ} {kernel : Kernel F}

variable [Zero F]

/-- The sum of a window against a row, from its first sample on. -/
def weighted (x w : List F) : F := (List.zipWith (· * ·) x w).foldl (· + ·) 0

/-- The outputs of a window. -/
def group (newf : ℕ) (kernel : Kernel F) (x : List F) : List F :=
  (List.range newf).map fun j => weighted x (row kernel j)

theorem sumProducts_row (hb : Built orig newf kernel) {xs : List F} {j : ℕ}
    (hx : kernel.K ≤ xs.length) (hj : j < newf) :
    sumProducts kernel.K xs (kernel.coefficients.drop (j * kernel.K)) 0 =
      .ok (weighted (xs.take kernel.K) (row kernel j)) := by
  refine sumProducts_eq _ hx ?_
  have hrow := Nat.mul_le_mul_right kernel.K (Nat.succ_le_of_lt hj)
  rw [Nat.succ_mul] at hrow
  rw [List.length_drop, hb.rows]
  omega

/-! ### The stream -/

/-- A stream with its kernel built. -/
def Started (s : AudioResampleStream F) : Prop := Built s.orig s.newf s.kernel

theorem groupAt_eq {s : AudioResampleStream F} (hs : Started s) {x : List F}
    (hx : s.kernel.K ≤ x.length) : groupAt s x = .ok (group s.newf s.kernel (x.take s.kernel.K)) :=
  mapM_eq_ok fun _ hj => sumProducts_row hs hx (List.mem_range.1 hj)

/-- **The loop takes every window** and stops where the next one would begin. -/
theorem pushFrom_eq {s : AudioResampleStream F} (hs : Started s) :
    ∀ (fuel pos : ℕ) (out : List F), s.history.length - pos < fuel →
      pushFrom s fuel pos out = .ok
        (out ++ (windows s.kernel.K s.orig (s.history.drop pos)).flatMap (group s.newf s.kernel),
          pos + windowCount s.kernel.K s.orig (s.history.length - pos) * s.orig) := by
  have ho := hs.orig_pos
  intro fuel
  induction fuel with
  | zero => intro pos out hfuel; omega
  | succ fuel ih =>
    intro pos out hfuel
    have hlen : (s.history.drop pos).length = s.history.length - pos := List.length_drop
    by_cases hfit : pos + s.kernel.K ≤ s.history.length
    · have hle : s.kernel.K ≤ s.history.length - pos := by omega
      have hsub : s.history.length - (pos + s.orig) = s.history.length - pos - s.orig := by omega
      have hK := hs.orig_le
      have hfirst : windows s.kernel.K s.orig (s.history.drop pos) =
          (s.history.drop pos).take s.kernel.K ::
            windows s.kernel.K s.orig ((s.history.drop pos).drop s.orig) :=
        windows_of_le ho hK _ (by omega)
      rw [pushFrom, if_pos hfit, groupAt_eq hs (by omega)]
      simp only [bind, Except.bind]
      rw [ih _ _ (by omega), hfirst, windowCount_of_le ho hK hle,
        List.drop_drop, List.flatMap_cons, List.append_assoc, hsub, Nat.succ_mul, Nat.add_assoc,
        Nat.add_comm s.orig]
    · have hlt : (s.history.drop pos).length < s.kernel.K := by
        have := hs.size
        omega
      have hcount : windowCount s.kernel.K s.orig (s.history.length - pos) = 0 := by
        rw [windowCount, if_pos (hlen ▸ hlt)]
      rw [pushFrom, if_neg hfit, windows_of_lt hlt, hcount]
      simp

/-- **A push puts out the windows its piece completes** and keeps the rest. -/
theorem push_eq {s : AudioResampleStream F} (hs : Started s) (input : List F) :
    audioResampleStreamPush s input = .ok
      ({ s with history := leftover s.kernel.K s.orig (s.history ++ input) },
        (windows s.kernel.K s.orig (s.history ++ input)).flatMap (group s.newf s.kernel)) := by
  have hloop := @pushFrom_eq F _ _ _ { s with history := s.history ++ input } hs
    ((s.history ++ input).length + 1) 0 [] (by simp)
  unfold audioResampleStreamPush
  simp only [bind, Except.bind, pure, Except.pure]
  rw [hloop]
  simp [leftover]

/-- **The pieces put out the windows of what they carry.** -/
theorem pushAll_eq (pieces : List (List F)) : ∀ {s : AudioResampleStream F}, Started s →
    pushAll s pieces = .ok
      ({ s with history := (cutPieces s.kernel.K s.orig s.history pieces).2 },
        (cutPieces s.kernel.K s.orig s.history pieces).1.flatten.flatMap
          (group s.newf s.kernel)) := by
  induction pieces with
  | nil => intro s _; simp [pushAll, cutPieces]
  | cons piece pieces ih =>
    intro s hs
    rw [pushAll, push_eq hs]
    simp only [bind, Except.bind, pure, Except.pure]
    rw [ih (s := { s with history := leftover s.kernel.K s.orig (s.history ++ piece) }) hs]
    simp [cutPieces, List.flatMap_append]

/-! ### The whole buffer -/

/-- The output of the whole buffer at `t`. -/
def sampleAt (orig newf : ℕ) (kernel : Kernel F) (input : List F) (t : ℕ) : F :=
  weighted (window kernel.K orig (pad orig kernel.width input) (t / newf)) (row kernel (t % newf))

/-- **Every output is written from within the padded buffer.** -/
theorem applyMono_eq (hb : Built orig newf kernel) {input : List F} {target : ℕ}
    (hpad : input.length + 2 * kernel.width + orig ≤ intMax)
    (htarget : target ≤ (input.length / orig + 1) * newf) :
    audioResampleApplyMono input orig newf kernel target =
      .ok ((List.range target).map (sampleAt orig newf kernel input)) := by
  have hsize := hb.size
  have hcount : input.length + 2 * kernel.width + orig - kernel.K = input.length := by omega
  have hmin : (if target < (input.length / orig + 1) * newf then target
      else (input.length / orig + 1) * newf) = target := by
    split_ifs <;> omega
  unfold audioResampleApplyMono
  simp only [hcount, hmin]
  rw [if_neg (by omega)]
  refine mapM_eq_ok fun t ht => ?_
  have hgroup : t / newf < input.length / orig + 1 :=
    (Nat.div_lt_iff_lt_mul hb.newf_pos).2 (lt_of_lt_of_le (List.mem_range.1 ht) htarget)
  have hend : t / newf * orig ≤ input.length :=
    le_trans (Nat.mul_le_mul_right _ (Nat.lt_succ_iff.1 hgroup)) (Nat.div_mul_le_self _ _)
  refine sumProducts_row hb ?_ (Nat.mod_lt _ hb.newf_pos)
  rw [List.length_drop, length_pad]
  omega

/-- **The windows of the input alone** give the first outputs of the buffer. -/
theorem windows_group (hb : Built orig newf kernel) (input : List F) :
    (windows kernel.K orig (List.replicate kernel.width 0 ++ input)).flatMap (group newf kernel) =
      (List.range (windowCount kernel.K orig (kernel.width + input.length) * newf)).map
        (sampleAt orig newf kernel input) := by
  have hlen : (List.replicate kernel.width (0 : F) ++ input).length =
      kernel.width + input.length := by simp
  have htable := range_mul_map
    (fun g j => weighted (window kernel.K orig (pad orig kernel.width input) g) (row kernel j))
    (windowCount kernel.K orig (kernel.width + input.length)) hb.newf_pos
  unfold sampleAt
  rw [htable, windows, hlen, List.flatMap_map]
  refine List.flatMap_congr fun g hg => ?_
  have hin := (lt_windowCount_iff hb.orig_pos).1 (List.mem_range.1 hg)
  have hwindow : window kernel.K orig (pad orig kernel.width input) g =
      window kernel.K orig (List.replicate kernel.width 0 ++ input) g :=
    window_append (by omega)
  rw [hwindow]
  rfl

/-- **What a stream puts out**, whatever the pieces: the windows that end within
what was received. -/
theorem pushAll_fresh {s : AudioResampleStream F} (hs : Started s)
    (hfresh : s.history = List.replicate s.kernel.width 0) (pieces : List (List F)) :
    ∃ s', pushAll s pieces = .ok (s',
      (List.range (windowCount s.kernel.K s.orig (s.kernel.width + pieces.flatten.length) *
        s.newf)).map (sampleAt s.orig s.newf s.kernel pieces.flatten)) := by
  have hshort : s.history.length < s.kernel.K := by
    have := hs.size
    have := hs.orig_pos
    rw [hfresh, List.length_replicate]
    omega
  have hcut := (cutPieces_flatten hs.orig_pos hs.orig_le pieces _ hshort).1
  refine ⟨{ s with history := (cutPieces s.kernel.K s.orig s.history pieces).2 }, ?_⟩
  rw [pushAll_eq pieces hs, hcut, hfresh, windows_group hs]

end Window

/-! ### Agreement -/

/-- Every `int` of `audio_resample` holds what is put into it. -/
structure FitsInt (srIn srOut n : ℕ) : Prop where
  padded : n + kernelSize (srIn / Nat.gcd srIn srOut) (srOut / Nat.gcd srIn srOut) ≤ intMax
  target : targetLength n srIn srOut ≤ intMax

section Agreement
variable {F : Type} (tap : ℕ → ℕ → ℕ → ℕ → F)

/-- What `audio_resample_build_kernel` builds. -/
def builtKernel (orig newf : ℕ) : Kernel F where
  width := filterWidth orig newf
  K := kernelSize orig newf
  coefficients := kernelRows tap orig newf

theorem built_builtKernel {srIn srOut orig newf : ℕ} (hred : Reduced srIn srOut orig newf) :
    Built orig newf (builtKernel tap orig newf) where
  orig_pos := hred.orig_pos
  newf_pos := hred.newf_pos
  width_pos := filterWidth_pos hred.orig_pos hred.newf_pos
  size := rfl
  rows := by simp [builtKernel, kernelRows]

theorem buildKernel_eq {orig newf : ℕ} (h : kernelSize orig newf ≤ intMax) :
    audioResampleBuildKernel tap orig newf = .ok (builtKernel tap orig newf) :=
  if_neg (not_lt.2 h)

/-- The stream `audio_resample_stream_init` starts. -/
def freshStream [Zero F] (srIn srOut : ℕ) : AudioResampleStream F :=
  let orig := srIn / Nat.gcd srIn srOut
  let newf := srOut / Nat.gcd srIn srOut
  { orig, newf
    kernel := builtKernel tap orig newf
    history := List.replicate (filterWidth orig newf) 0 }

theorem streamInit_eq [Zero F] {srIn srOut n : ℕ} (hfits : FitsInt srIn srOut n) :
    audioResampleStreamInit tap srIn srOut = .ok (freshStream tap srIn srOut) := by
  have hsize := le_trans (Nat.le_add_left _ n) hfits.padded
  unfold audioResampleStreamInit
  simp only [audioResampleGcd_eq]
  rw [buildKernel_eq tap hsize]
  rfl

variable [Zero F] [Add F] [Mul F] {srIn srOut : ℕ}

/-- The outputs of a channel. -/
def channel (srIn srOut : ℕ) (input : List F) : List F :=
  let orig := srIn / Nat.gcd srIn srOut
  let newf := srOut / Nat.gcd srIn srOut
  (List.range (targetLength input.length srIn srOut).toNat).map
    (sampleAt orig newf (builtKernel tap orig newf) input)

/-- **Every sample of a channel is written.** -/
theorem writeChannel_eq (hin : 0 < srIn) (hout : 0 < srOut) {input : List F}
    (hn : 0 < input.length) (hfits : FitsInt srIn srOut input.length) :
    writeChannel (srIn / Nat.gcd srIn srOut) (srOut / Nat.gcd srIn srOut)
        (builtKernel tap (srIn / Nat.gcd srIn srOut) (srOut / Nat.gcd srIn srOut))
        (targetLength input.length srIn srOut).toNat input =
      .ok ((channel tap srIn srOut input).map some) := by
  have hred := reduced hin hout
  have hpad : input.length + 2 * filterWidth (srIn / Nat.gcd srIn srOut)
      (srOut / Nat.gcd srIn srOut) + srIn / Nat.gcd srIn srOut ≤ intMax := by
    have := hfits.padded
    unfold kernelSize at this
    omega
  have htotal := target_le_total hred hn (le_trans (Nat.le_add_right _ _) hfits.padded) hin hout
  unfold writeChannel
  rw [applyMono_eq (built_builtKernel tap hred) hpad (by omega)]
  simp [bind, Except.bind, pure, Except.pure, channel]

/-- **The whole buffer is written**, channel by channel. -/
theorem audioResample_eq (hin : 0 < srIn) (hout : 0 < srOut) (hne : srIn ≠ srOut) {n nch : ℕ}
    (hn : 0 < n) (hch : 0 < nch) (hfits : FitsInt srIn srOut n) {samples : List F}
    (hlen : samples.length = nch * n) :
    audioResample tap true (some samples) n srIn srOut nch =
      .ok (some (((List.range nch).flatMap fun ch =>
        channel tap srIn srOut ((samples.drop (ch * n)).take n)).map some),
          targetLength n srIn srOut) := by
  have hpos := targetLength_pos hn hin hout
  have hsize : kernelSize (srIn / Nat.gcd srIn srOut) (srOut / Nat.gcd srIn srOut) ≤ intMax :=
    le_trans (Nat.le_add_left _ _) hfits.padded
  have hint : (targetLength n srIn srOut).bmod (2 ^ 32) = targetLength n srIn srOut := by
    have := hfits.target
    unfold intMax at this
    exact Int.bmod_eq_of_le (by omega) (by omega)
  have hchannel : ∀ ch ∈ List.range nch,
      writeChannel (srIn / Nat.gcd srIn srOut) (srOut / Nat.gcd srIn srOut)
          (builtKernel tap (srIn / Nat.gcd srIn srOut) (srOut / Nat.gcd srIn srOut))
          (targetLength n srIn srOut).toNat ((samples.drop (ch * n)).take n) =
        .ok ((channel tap srIn srOut ((samples.drop (ch * n)).take n)).map some) := by
    intro ch hmem
    have hcut := length_cut hlen (List.mem_range.1 hmem)
    have hwrite := writeChannel_eq tap hin hout (hcut.symm ▸ hn) (hcut.symm ▸ hfits)
    rwa [hcut] at hwrite
  unfold audioResample
  simp only [audioResampleGcd_eq, Int.toNat_natCast]
  rw [if_neg (by omega), if_neg (by exact_mod_cast hne), buildKernel_eq tap hsize]
  simp only [if_neg (not_le.2 hpos), if_true]
  rw [mapM_eq_ok hchannel, hint]
  simp only [bind, Except.bind, pure, Except.pure]
  rw [List.flatMap, List.map_flatten, List.map_map]
  rfl

theorem length_channel (input : List F) : (channel tap srIn srOut input).length =
    (targetLength input.length srIn srOut).toNat := by
  simp [channel]

theorem targetLength_zero : targetLength 0 srIn srOut = 0 := by
  have hzero : toDouble (0 : ℚ) = 0 := by simpa using @toDouble_natCast 0 (by norm_num)
  simp [targetLength, hzero]

/-- **One channel**: a buffer that holds its outputs, none for no input. -/
theorem audioResample_mono (hin : 0 < srIn) (hout : 0 < srOut) (hne : srIn ≠ srOut)
    {input : List F} (hfits : FitsInt srIn srOut input.length) :
    audioResample tap true (some input) input.length srIn srOut 1 =
      .ok (if input = [] then none else some ((channel tap srIn srOut input).map some),
        (channel tap srIn srOut input).length) := by
  rw [length_channel]
  rcases input.length.eq_zero_or_pos with hzero | hn
  · obtain rfl := List.eq_nil_of_length_eq_zero hzero
    simp [audioResample, targetLength_zero]
  · have hpos := targetLength_pos hn hin hout
    have hone := audioResample_eq tap hin hout hne hn one_pos hfits (Nat.one_mul _).symm
    rw [if_neg (List.ne_nil_of_length_pos hn), Int.toNat_of_nonneg hpos.le]
    simpa using hone

/-- **What the stream puts out begins what the buffer holds.** -/
theorem stream_prefix_channel (hin : 0 < srIn) (hout : 0 < srOut) {input : List F}
    (hfits : FitsInt srIn srOut input.length) :
    (List.range (windowCount (freshStream tap srIn srOut).kernel.K
        (freshStream tap srIn srOut).orig ((freshStream tap srIn srOut).kernel.width +
          input.length) * (freshStream tap srIn srOut).newf)).map
        (sampleAt (freshStream tap srIn srOut).orig (freshStream tap srIn srOut).newf
          (freshStream tap srIn srOut).kernel input) <+: channel tap srIn srOut input := by
  have hb := built_builtKernel tap (reduced hin hout)
  refine (range_begins ?_).map _
  rcases input.length.eq_zero_or_pos with hzero | hn
  · have hshort : (freshStream tap srIn srOut).kernel.width + 0 <
        (freshStream tap srIn srOut).kernel.K := by
      have := hb.size
      have := hb.orig_pos
      simp only [freshStream]
      omega
    rw [hzero, windowCount, if_pos hshort]
    omega
  · have hmax := le_trans (Nat.le_add_right _ _) hfits.padded
    have hle := windows_le_target (reduced hin hout) hn hmax hin hout hb.width_pos
    exact (Int.le_toNat (targetLength_pos hn hin hout).le).2 hle

/-- A padded buffer longer than an `int` counts is a fault. -/
theorem audioResample_overflow (hin : 0 < srIn) (hout : 0 < srOut) (hne : srIn ≠ srOut)
    {input : List F} {n : ℕ} (hlen : input.length = n) (hn : 0 < n)
    (hsize : kernelSize (srIn / Nat.gcd srIn srOut) (srOut / Nat.gcd srIn srOut) ≤ intMax)
    (hpad : intMax < n + kernelSize (srIn / Nat.gcd srIn srOut) (srOut / Nat.gcd srIn srOut)) :
    audioResample tap true (some input) n srIn srOut 1 = .error .overflow := by
  have hpos := targetLength_pos hn hin hout
  have hnp : intMax < n + 2 * filterWidth (srIn / Nat.gcd srIn srOut)
      (srOut / Nat.gcd srIn srOut) + srIn / Nat.gcd srIn srOut := by
    unfold kernelSize at hpad
    omega
  have hmono : ∀ target, audioResampleApplyMono ((input.drop (0 * n)).take n)
      (srIn / Nat.gcd srIn srOut) (srOut / Nat.gcd srIn srOut)
      (builtKernel tap (srIn / Nat.gcd srIn srOut) (srOut / Nat.gcd srIn srOut)) target =
      .error .overflow := by
    intro target
    unfold audioResampleApplyMono
    rw [length_cut (by rw [hlen, Nat.one_mul]) one_pos]
    exact if_pos hnp
  unfold audioResample
  simp only [audioResampleGcd_eq, Int.toNat_natCast]
  rw [if_neg (by omega), if_neg (by exact_mod_cast hne), buildKernel_eq tap hsize]
  simp only [if_neg (not_le.2 hpos), if_true]
  rw [Int.toNat_one, List.range_one, List.mapM_cons, writeChannel, hmono]
  rfl

/-- **The stream and the whole buffer agree.**  However a signal is cut, the
stream puts out the start of what `audio_resample` writes for the whole of it,
and lacks the groups whose kernel reaches past what was received.
`audio_resample` writes all of its samples, of each channel, from within its
buffers; there are as many as the ceiling says while the product has 53 bits. -/
theorem resample_agrees (hin : 0 < srIn) (hout : 0 < srOut) (hne : srIn ≠ srOut) :
    (∀ pieces : List (List F), FitsInt srIn srOut pieces.flatten.length →
      ∃ (started s : AudioResampleStream F) (out whole : List F),
        audioResampleStreamInit tap srIn srOut = .ok started ∧
        pushAll started pieces = .ok (s, out) ∧
        audioResample tap true (some pieces.flatten) pieces.flatten.length srIn srOut 1 =
          .ok (if pieces.flatten = [] then none else some (whole.map some), whole.length) ∧
        out <+: whole ∧
        ∀ t < whole.length, t < out.length ↔
          t / started.newf * started.orig + started.kernel.K ≤
            started.kernel.width + pieces.flatten.length) ∧
    (∀ (n nch : ℕ) (samples : List F), 0 < n → 0 < nch → samples.length = nch * n →
      FitsInt srIn srOut n →
      ∃ whole : List F,
        audioResample tap true (some samples) n srIn srOut nch =
          .ok (some (whole.map some), targetLength n srIn srOut) ∧
        (whole.length : ℤ) = nch * targetLength n srIn srOut) ∧
    ∀ n : ℕ, srOut * n < 2 ^ 53 →
      targetLength n srIn srOut = ⌈((srOut * n : ℕ) : ℚ) / srIn⌉ := by
  have hb := built_builtKernel tap (reduced hin hout)
  refine ⟨fun pieces hfits => ?_, fun n nch samples hn hch hlen hfits => ?_, fun n hprod =>
    targetLength_exact hin hprod⟩
  · have hs : Started (freshStream tap srIn srOut) := hb
    obtain ⟨s, hpush⟩ := pushAll_fresh hs rfl pieces
    refine ⟨_, s, _, channel tap srIn srOut pieces.flatten, streamInit_eq tap hfits, hpush,
      audioResample_mono tap hin hout hne hfits, stream_prefix_channel tap hin hout hfits,
      fun t _ => ?_⟩
    rw [List.length_map, List.length_range, ← Nat.div_lt_iff_lt_mul hs.newf_pos,
      lt_windowCount_iff hs.orig_pos]
  · refine ⟨_, audioResample_eq tap hin hout hne hn hch hfits hlen, ?_⟩
    have hlength : ∀ ch ∈ List.range nch,
        (channel tap srIn srOut ((samples.drop (ch * n)).take n)).length =
          (targetLength n srIn srOut).toNat := by
      intro ch hmem
      rw [length_channel, length_cut hlen (List.mem_range.1 hmem)]
    rw [List.length_flatMap, List.map_congr_left hlength, List.map_const', List.sum_replicate_nat,
      List.length_range, Nat.cast_mul, Int.toNat_of_nonneg]
    exact (targetLength_pos hn hin hout).le

/-- Three pieces, one of them empty, at 24000 and 16000 samples a second. -/
theorem resample_agrees_pieces :
    ∃ (started s : AudioResampleStream ℤ) (out whole : List ℤ),
      audioResampleStreamInit (fun _ _ j k => (j + k : ℤ)) 24000 16000 = .ok started ∧
      pushAll started [[3, 1], [], [4, 1, 5]] = .ok (s, out) ∧
      audioResample (fun _ _ j k => (j + k : ℤ)) true (some [3, 1, 4, 1, 5]) 5 24000 16000 1 =
        .ok (some (whole.map some), whole.length) ∧
      out <+: whole ∧
      ∀ t < whole.length, t < out.length ↔
        t / started.newf * started.orig + started.kernel.K ≤ started.kernel.width + 5 :=
  (resample_agrees (fun _ _ j k => (j + k : ℤ)) (by decide : 0 < 24000) (by decide : 0 < 16000)
    (by decide)).1 [[3, 1], [], [4, 1, 5]] ⟨by decide +kernel, by decide +kernel⟩

/-- **Two roundings can add a sample**, and the padded buffer of a long signal is
not counted by an `int`. -/
theorem length_rounds_up :
    (∃ whole : List (Option ℤ),
      audioResample (fun _ _ _ _ => (0 : ℤ)) true (some (List.replicate 5000001 0)) 5000001
        700000001 2100000003 1 = .ok (some whole, 15000004)) ∧
    ⌈((2100000003 * 5000001 : ℕ) : ℚ) / 700000001⌉ = 15000003 ∧
    audioResample (fun _ _ _ _ => (0 : ℤ)) true (some (List.replicate 2147483647 0)) 2147483647
      48000 16000 1 = .error .overflow := by
  have hlength : targetLength 5000001 700000001 2100000003 = 15000004 := by decide +kernel
  have hfits : FitsInt 700000001 2100000003 5000001 := ⟨by decide +kernel, by decide +kernel⟩
  have hzeros : (List.replicate 5000001 (0 : ℤ)).length = 1 * 5000001 := List.length_replicate
  refine ⟨?_, by decide +kernel, ?_⟩
  · have heq := audioResample_eq (fun _ _ _ _ => (0 : ℤ)) (by decide : 0 < 700000001)
      (by decide : 0 < 2100000003) (by decide) (by decide : 0 < 5000001) one_pos hfits hzeros
    rw [hlength] at heq
    exact ⟨_, heq⟩
  · exact audioResample_overflow _ (by decide : 0 < 48000) (by decide : 0 < 16000) (by decide)
      List.length_replicate (by decide : 0 < 2147483647) (by decide +kernel) (by decide +kernel)

end Agreement

end Resample
end S2S
