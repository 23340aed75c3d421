/-
# The resampler: `src/audio-resample.h`

`audio_resample` works on a whole buffer, `AudioResampleStream` on one that
arrives in pieces; both hold the kernel against windows of `K` samples that
advance by `orig`, `newf` outputs a window.

A sample is any type with a zero, a sum and a product that need not obey a law,
so two sums are equal here when they are the same sum in the same order.  The
coefficients of the kernel are a parameter (`tap`): no index depends on them.
What is counted in `double` is rounded as there (`toDouble`).

A read outside a buffer and an `int` that does not fit are faults.
-/

import S2S.Double
import Mathlib.Algebra.Group.Defs

namespace S2S
namespace Resample

/-- What the language leaves undefined. -/
inductive Fault
  | overflow
  | outside
  deriving DecidableEq, Repr

/-- The largest `int`. -/
def intMax : ℕ := 2 ^ 31 - 1

/-- `audio_resample_gcd`. -/
def audioResampleGcd (a b : ℕ) : ℕ :=
  if _h : b = 0 then a else audioResampleGcd b (a % b)
termination_by b
decreasing_by exact Nat.mod_lt _ (Nat.pos_of_ne_zero _h)

theorem audioResampleGcd_eq (a b : ℕ) : audioResampleGcd a b = Nat.gcd a b := by
  fun_induction audioResampleGcd a b with
  | case1 a => simp
  | case2 a b _ ih => rw [ih, Nat.gcd_comm a b, Nat.gcd_rec b a, Nat.gcd_comm]

/-- `AUDIO_RESAMPLE_LPFW`. -/
def lpfw : ℕ := 6

/-- `AUDIO_RESAMPLE_ROLLOFF`, a literal of 53 bits. -/
def rolloff : ℚ := toDouble (99 / 100)

/-- `width` of `audio_resample_build_kernel`. -/
def filterWidth (orig newf : ℕ) : ℕ :=
  let base := toDouble ((if orig < newf then orig else newf : ℕ) * rolloff)
  ⌈toDouble (toDouble (lpfw * orig : ℕ) / base)⌉.toNat

/-- The length of a row of the kernel. -/
def kernelSize (orig newf : ℕ) : ℕ := 2 * filterWidth orig newf + orig

section Kernel
variable {F : Type} (tap : ℕ → ℕ → ℕ → ℕ → F)

/-- The rows of the kernel one after the other, `newf` of `K` coefficients. -/
def kernelRows (orig newf : ℕ) : List F :=
  (List.range newf).flatMap fun j => (List.range (kernelSize orig newf)).map (tap orig newf j)

/-- A kernel with its width and the length of a row. -/
structure Kernel (F : Type) where
  width : ℕ
  K : ℕ
  coefficients : List F

/-- `audio_resample_build_kernel`. -/
def audioResampleBuildKernel (orig newf : ℕ) : Except Fault (Kernel F) :=
  if intMax < kernelSize orig newf then .error .overflow
  else .ok
    { width := filterWidth orig newf
      K := kernelSize orig newf
      coefficients := kernelRows tap orig newf }

end Kernel

section Sum
variable {F : Type} [Zero F] [Add F] [Mul F]

/-- `for (int k = 0; k < K; k++) sum += x[k] * w[k];`, the two pointers moving on. -/
def sumProducts : ℕ → List F → List F → F → Except Fault F
  | 0, _, _, sum => .ok sum
  | K + 1, x :: xs, w :: ws, sum => sumProducts K xs ws (sum + x * w)
  | _ + 1, _, _, _ => .error .outside

/-- The body of `audio_resample_apply_mono` at `t_out`. -/
def outputAt (orig newf K : ℕ) (kernel padded : List F) (t : ℕ) : Except Fault F :=
  sumProducts K (padded.drop (t / newf * orig)) (kernel.drop (t % newf * K)) 0

/-- The input between its two pads of zeros. -/
def pad (orig width : ℕ) (input : List F) : List F :=
  List.replicate width 0 ++ input ++ List.replicate (width + orig) 0

/-- `audio_resample_apply_mono`: what it writes, from the first sample on. -/
def audioResampleApplyMono (input : List F) (orig newf : ℕ) (kernel : Kernel F)
    (target : ℕ) : Except Fault (List F) :=
  let np := input.length + 2 * kernel.width + orig
  if intMax < np then .error .overflow
  else
    let perChan := (np - kernel.K) / orig + 1
    let total := perChan * newf
    let outLen := if target < total then target else total
    (List.range outLen).mapM
      (outputAt orig newf kernel.K kernel.coefficients (pad orig kernel.width input))

/-- The part of the buffer of a channel: a sample where one was written. -/
def writeChannel (orig newf : ℕ) (kernel : Kernel F) (target : ℕ) (src : List F) :
    Except Fault (List (Option F)) := do
  let dst ← audioResampleApplyMono src orig newf kernel target
  return dst.map some ++ List.replicate (target - dst.length) none

/-- `target` of `audio_resample`. -/
def targetLength (n srIn srOut : ℕ) : ℤ :=
  ⌈toDouble (toDouble (srOut * n : ℕ) / srIn)⌉

variable (tap : ℕ → ℕ → ℕ → ℕ → F)

/-- `audio_resample`: the buffer, or none for `NULL`, and `*n_out`. -/
def audioResample (mallocs : Bool) (input : Option (List F)) (nIn srIn srOut nch : ℤ) :
    Except Fault (Option (List (Option F)) × ℤ) :=
  match input with
  | none => .ok (none, 0)
  | some samples =>
    if nIn ≤ 0 ∨ srIn ≤ 0 ∨ srOut ≤ 0 ∨ nch ≤ 0 then .ok (none, 0)
    else if srIn = srOut then
      if mallocs then .ok (some ((samples.take (nIn.toNat * nch.toNat)).map some), nIn)
      else .ok (none, 0)
    else
      let n := nIn.toNat
      let g := audioResampleGcd srIn.toNat srOut.toNat
      let orig := srIn.toNat / g
      let newf := srOut.toNat / g
      match audioResampleBuildKernel tap orig newf with
      | .error fault => .error fault
      | .ok kernel =>
        let target := targetLength n srIn.toNat srOut.toNat
        if target ≤ 0 then .ok (none, 0)
        else if mallocs then do
          let channels ← (List.range nch.toNat).mapM fun ch =>
            writeChannel orig newf kernel target.toNat ((samples.drop (ch * n)).take n)
          return (some channels.flatten, target.bmod (2 ^ 32))
        else .ok (none, 0)

/-- `AudioResampleStream`. -/
structure AudioResampleStream (F : Type) where
  orig : ℕ
  newf : ℕ
  kernel : Kernel F
  history : List F

/-- `audio_resample_stream_init`. -/
def audioResampleStreamInit (srIn srOut : ℕ) : Except Fault (AudioResampleStream F) := do
  let g := audioResampleGcd srIn srOut
  let orig := srIn / g
  let newf := srOut / g
  let kernel ← audioResampleBuildKernel tap orig newf
  return { orig, newf, kernel, history := List.replicate kernel.width 0 }

/-- The outputs of the window that begins at `x`. -/
def groupAt (s : AudioResampleStream F) (x : List F) : Except Fault (List F) :=
  (List.range s.newf).mapM fun j =>
    sumProducts s.kernel.K x (s.kernel.coefficients.drop (j * s.kernel.K)) 0

/-- The loop of `audio_resample_stream_push` from `pos` on, and where it ends. -/
def pushFrom (s : AudioResampleStream F) : ℕ → ℕ → List F → Except Fault (List F × ℕ)
  | 0, pos, out => .ok (out, pos)
  | fuel + 1, pos, out =>
    if pos + s.kernel.K ≤ s.history.length then do
      let group ← groupAt s (s.history.drop pos)
      pushFrom s fuel (pos + s.orig) (out ++ group)
    else .ok (out, pos)

/-- `audio_resample_stream_push`: the stream after it and what it puts out. -/
def audioResampleStreamPush (s : AudioResampleStream F) (input : List F) :
    Except Fault (AudioResampleStream F × List F) := do
  let s := { s with history := s.history ++ input }
  let (out, pos) ← pushFrom s (s.history.length + 1) 0 []
  return ({ s with history := s.history.drop pos }, out)

/-- Every piece pushed, the outputs one after the other. -/
def pushAll : AudioResampleStream F → List (List F) → Except Fault (AudioResampleStream F × List F)
  | s, [] => .ok (s, [])
  | s, piece :: pieces => do
    let (s, out) ← audioResampleStreamPush s piece
    let (s, outs) ← pushAll s pieces
    return (s, out ++ outs)

end Sum

end Resample
end S2S
