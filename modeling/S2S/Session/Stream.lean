/-
# Audio as one stream

`s2s_session_push` takes audio in pieces of any length and works in windows.
The pieces do not matter: a push feeds the windows that what was left over and
the new samples fill together (`push_eq`), so two pushes are one push of both
(`push_append`).
-/

import S2S.Session.Basic

namespace S2S
namespace Session

variable {F V : Type} (M : Models F V)

/-- A session with other samples left over. -/
def State.withPartial (s : State F V) (pcm : List F) : State F V := { s with partialPcm := pcm }

@[simp] theorem State.withPartial_withPartial (s : State F V) (pcm pcm' : List F) :
    (s.withPartial pcm).withPartial pcm' = s.withPartial pcm' := rfl

@[simp] theorem State.withPartial_self (s : State F V) : s.withPartial s.partialPcm = s := rfl

/-! ### A window does not look at what is left over -/

theorem tryFinal_withPartial (s : State F V) (pcm : List F) :
    tryFinal M (s.withPartial pcm) = ((tryFinal M s).1.withPartial pcm, (tryFinal M s).2) := by
  unfold tryFinal
  change (if s.committed ∧ s.released ∧ s.graceLeft = 0 then _ else _) = _
  split_ifs <;> rfl

theorem tickGrace_withPartial (s : State F V) (pcm : List F) :
    tickGrace M (s.withPartial pcm) = ((tickGrace M s).1.withPartial pcm, (tickGrace M s).2) := by
  unfold tickGrace
  rw [show (s.withPartial pcm).graceLeft = s.graceLeft from rfl]
  by_cases hpos : 0 < s.graceLeft
  · rw [if_pos hpos, if_pos hpos]
    dsimp only
    by_cases hzero : s.graceLeft - 1 = 0
    · rw [if_pos hzero, if_pos hzero]
      exact tryFinal_withPartial M { s with graceLeft := s.graceLeft - 1 } pcm
    · rw [if_neg hzero, if_neg hzero]
      rfl
  · rw [if_neg hpos, if_neg hpos]

theorem hear_withPartial (s : State F V) (pcm window : List F) :
    hear M (s.withPartial pcm) window = (hear M s window).withPartial pcm := rfl

theorem advance_withPartial (s : State F V) (pcm : List F) :
    advance M (s.withPartial pcm) = ((advance M s).1.withPartial pcm, (advance M s).2) := by
  have hsame : (s.withPartial pcm).phase = s.phase := rfl
  rw [advance, advance, hsame]
  cases s.phase with
  | idle =>
    dsimp only [advanceIdle, State.withPartial]
    by_cases hresume : s.committed ∧ s.counts.reopenWindows ≤ s.speechRun
    · simp only [if_pos hresume]
      rfl
    · simp only [if_neg hresume]
      split_ifs <;> rfl
  | userSpeaking =>
    dsimp only [advanceSpeaking, State.withPartial]
    split_ifs <;> rfl
  | pendingEnd =>
    dsimp only [advancePending, State.withPartial]
    split_ifs <;> rfl

theorem sessionWindow_withPartial (s : State F V) (pcm window : List F) :
    sessionWindow M (s.withPartial pcm) window
      = ((sessionWindow M s window).1.withPartial pcm, (sessionWindow M s window).2) := by
  unfold sessionWindow
  simp only [tickGrace_withPartial, hear_withPartial, advance_withPartial]
  rfl

/-- A window neither reads nor changes what is left over. -/
theorem partialPcm_sessionWindow (s : State F V) (window : List F) :
    (sessionWindow M s window).1.partialPcm = s.partialPcm := by
  have h := sessionWindow_withPartial M s s.partialPcm window
  rw [State.withPartial_self] at h
  exact congrArg (fun r => r.1.partialPcm) h

/-! ### Pieces -/

/-- Without a window whole, everything is left over. -/
theorem pushWindows_zero (s : State F V) (pcm : List F) :
    pushWindows M 0 s pcm = (s.withPartial pcm, []) := by
  simp only [pushWindows, State.withPartial]

theorem pushWindows_withPartial (n : ℕ) (s : State F V) (pcm pcm' : List F) :
    pushWindows M n (s.withPartial pcm') pcm = pushWindows M n s pcm := by
  induction n generalizing s pcm with
  | zero => simp only [pushWindows_zero, State.withPartial]
  | succ n ih => simp only [pushWindows, sessionWindow_withPartial, ih]

/-- What was left over is not looked at again. -/
example (s : State F V) (pcm pcm' : List F) :
    pushWindows M 1 (s.withPartial pcm') pcm = pushWindows M 1 s pcm := by
  simp only [pushWindows, sessionWindow_withPartial]
  rfl

theorem partialPcm_pushWindows (n : ℕ) (s : State F V) (pcm : List F) :
    (pushWindows M n s pcm).1.partialPcm = pcm.drop (n * M.window) := by
  induction n generalizing s pcm with
  | zero => simp [pushWindows_zero, State.withPartial]
  | succ n ih =>
    rw [pushWindows]
    dsimp only
    rw [ih, List.drop_drop, Nat.succ_mul, Nat.add_comm]

/-- The windows at the front do not look further than they reach. -/
theorem pushWindows_append (n m : ℕ) (s : State F V) (pcm : List F) :
    pushWindows M (n + m) s pcm
      = ((pushWindows M m (pushWindows M n s pcm).1 (pcm.drop (n * M.window))).1,
        (pushWindows M n s pcm).2
          ++ (pushWindows M m (pushWindows M n s pcm).1 (pcm.drop (n * M.window))).2) := by
  induction n generalizing s pcm with
  | zero =>
    rw [pushWindows_zero, pushWindows_withPartial, Nat.zero_add, Nat.zero_mul, List.drop_zero,
      List.nil_append]
  | succ n ih =>
    rw [Nat.succ_add, pushWindows, pushWindows]
    dsimp only
    rw [ih]
    simp only [List.drop_drop, List.append_assoc, Nat.succ_mul, Nat.add_comm M.window]

theorem pushWindows_take (n : ℕ) (s : State F V) {pcm pcm' : List F}
    (h : pcm.take (n * M.window) = pcm'.take (n * M.window)) :
    (pushWindows M n s pcm).2 = (pushWindows M n s pcm').2 ∧
      (pushWindows M n s pcm).1.withPartial [] = (pushWindows M n s pcm').1.withPartial [] := by
  induction n generalizing s pcm pcm' with
  | zero => exact ⟨rfl, rfl⟩
  | succ n ih =>
    rw [Nat.succ_mul] at h
    have hfirst : pcm.take M.window = pcm'.take M.window := by
      have := congrArg (List.take M.window) h
      simpa [List.take_take] using this
    have hrest : (pcm.drop M.window).take (n * M.window)
        = (pcm'.drop M.window).take (n * M.window) := by
      rw [List.take_drop, List.take_drop, Nat.add_comm M.window, h]
    obtain ⟨h₁, h₂⟩ := ih (sessionWindow M s (pcm.take M.window)).1 hrest
    rw [pushWindows, pushWindows, ← hfirst]
    exact ⟨congrArg ((sessionWindow M s (pcm.take M.window)).2 ++ ·) h₁, h₂⟩

theorem partialPcm_pushWhole (s : State F V) (pcm : List F) :
    (pushWhole M s pcm).1.partialPcm = pcm.drop (pcm.length / M.window * M.window) :=
  partialPcm_pushWindows M _ s pcm

/-- What a push leaves over does not fill a window. -/
theorem length_partialPcm_pushWhole (s : State F V) (pcm : List F) :
    (pushWhole M s pcm).1.partialPcm.length < M.window := by
  have h := Nat.mod_lt pcm.length M.window_pos
  have := Nat.div_add_mod' pcm.length M.window
  rw [partialPcm_pushWhole, List.length_drop]
  omega

/-- **A push feeds what was left over and the new samples as one.** -/
theorem push_eq {s : State F V} (hs : s.partialPcm.length < M.window) (pcm : List F) :
    push M s pcm = pushWhole M s (s.partialPcm ++ pcm) := by
  unfold push
  by_cases hempty : s.partialPcm = []
  · rw [if_pos hempty, hempty, List.nil_append]
  · rw [if_neg hempty]
    dsimp only
    set missing := M.window - s.partialPcm.length with hmissing
    have hpos := M.window_pos
    split_ifs with hshort
    · have hlt : pcm.length < missing := by
        simp only [List.length_append, List.length_take] at hshort
        omega
      have htake : pcm.take (min missing pcm.length) = pcm := by
        rw [min_eq_right hlt.le, List.take_length]
      have hzero : (s.partialPcm ++ pcm).length / M.window = 0 :=
        Nat.div_eq_of_lt (by simp only [List.length_append]; omega)
      rw [htake, pushWhole, hzero]
      rfl
    · have hle : missing ≤ pcm.length := by
        simp only [List.length_append, List.length_take] at hshort
        omega
      have hwindow : s.partialPcm ++ pcm.take missing = (s.partialPcm ++ pcm).take M.window := by
        rw [List.take_append, List.take_of_length_le hs.le]
      have hdrop : pcm.drop missing = (s.partialPcm ++ pcm).drop M.window := by
        rw [List.drop_append, List.drop_eq_nil_of_le hs.le, List.nil_append]
      have hcount : (s.partialPcm ++ pcm).length / M.window
          = ((s.partialPcm ++ pcm).drop M.window).length / M.window + 1 := by
        rw [List.length_drop]
        refine Nat.div_eq_sub_div hpos ?_
        simp only [List.length_append]
        omega
      rw [min_eq_left hle, hwindow, hdrop]
      have hstate : ({ s with partialPcm := (s.partialPcm ++ pcm).take M.window } : State F V)
          = s.withPartial ((s.partialPcm ++ pcm).take M.window) := rfl
      have hclear : ∀ t : State F V, ({ t with partialPcm := [] } : State F V) = t.withPartial [] :=
        fun _ => rfl
      rw [hstate, hclear, sessionWindow_withPartial, pushWhole, pushWindows_withPartial, pushWhole,
        hcount, pushWindows, pushWindows_withPartial]

theorem length_partialPcm_push {s : State F V} (hs : s.partialPcm.length < M.window)
    (pcm : List F) : (push M s pcm).1.partialPcm.length < M.window := by
  rw [push_eq M hs]
  exact length_partialPcm_pushWhole M _ _

/-- **Two pushes are one.** -/
theorem push_append {s : State F V} (hs : s.partialPcm.length < M.window) (pcm pcm' : List F) :
    push M s (pcm ++ pcm')
      = ((push M (push M s pcm).1 pcm').1, (push M s pcm).2 ++ (push M (push M s pcm).1 pcm').2) := by
  have hfirst := length_partialPcm_push M hs pcm
  rw [push_eq M hfirst, push_eq M hs, push_eq M hs, ← List.append_assoc]
  set joined := s.partialPcm ++ pcm
  set n := joined.length / M.window with hn
  have hwhole : n * M.window ≤ joined.length := Nat.div_mul_le_self _ _
  have hleft : (pushWhole M s joined).1.partialPcm ++ pcm'
      = (joined ++ pcm').drop (n * M.window) := by
    rw [partialPcm_pushWhole, List.drop_append_of_le_length hwhole]
  have hcount : (joined ++ pcm').length / M.window
      = n + ((joined ++ pcm').drop (n * M.window)).length / M.window := by
    have h : (joined ++ pcm').length
        = ((joined ++ pcm').drop (n * M.window)).length + n * M.window := by
      simp only [List.length_drop, List.length_append]
      omega
    rw [h, Nat.add_mul_div_right _ _ M.window_pos, Nat.add_comm]
  have htake : (joined ++ pcm').take (n * M.window) = joined.take (n * M.window) :=
    List.take_append_of_le_length hwhole
  obtain ⟨hreports, hstate⟩ := pushWindows_take M n s htake
  rw [hleft, pushWhole, hcount, pushWindows_append, hreports]
  simp only [← pushWindows_withPartial M _ (pushWindows M n s (joined ++ pcm')).1 _ [], hstate,
    pushWindows_withPartial]
  rfl

end Session
end S2S
