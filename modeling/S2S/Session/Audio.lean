/-
# The audio of a turn

Where the samples a session holds come from, over a whole run: the windows
consumed so far are the stream, the lookback and the audio of a live turn are
its last samples (`Tracks`), and what a turn hands over at a commit is the
beginning of what it hands over at the next one (`audio_run`).

The earlier audio is strictly shorter: a commit forgets the speech so far, so a
turn resumes on a window heard after it, and the speech then ends behind all
that was held.
-/

import S2S.Session.Grammar
import S2S.Session.Stream

namespace S2S
namespace Session

variable {F V : Type} (M : Models F V)

/-- The session keeps the audio of a turn: one is open, or committed and not final yet. -/
def State.Live (s : State F V) : Prop := s.phase ≠ .idle ∨ s.committed = true

instance (s : State F V) : Decidable s.Live := inferInstanceAs (Decidable (_ ∨ _))

/-- `r` is an earlier commit of the same turn as `r'`. -/
def SameTurn (r r' : Report F) : Prop :=
  r.event = .turnCommitted ∧ r'.event = .turnCommitted ∧ r.turnId = r'.turnId

/-- A strict prefix. -/
def StrictPrefix (l l' : List F) : Prop := l <+: l' ∧ l.length < l'.length

/-- **What is held is the end of the stream.**  `consumed` are the samples of the windows so far,
`reports` what was reported over them. -/
structure Tracks (consumed : List F) (reports : List (Report F)) (s : State F V) : Prop where
  lookback : s.lookback.read <:+ consumed
  held : s.Live → s.turnPcm <:+ consumed
  speech : s.Live → s.speechEnd ≤ s.turnPcm.length
  numbered : ∀ r ∈ reports, r.turnId ≤ s.turnId
  prior : s.Live → ∀ r ∈ reports, r.event = .turnCommitted → r.turnId = s.turnId →
    r.pcm <+: s.turnPcm ∧ (s.phase ≠ .idle → r.pcm.length < s.speechEnd)
  ordered : reports.Pairwise fun r r' => SameTurn r r' → StrictPrefix r.pcm r'.pcm

/-- All of a session that its audio depends on. -/
def State.audio (s : State F V) : Phase × Bool × SampleRing F × List F × ℕ × ℕ :=
  (s.phase, s.committed, s.lookback, s.turnPcm, s.speechEnd, s.turnId)

theorem Tracks.congr {consumed : List F} {reports : List (Report F)} {s s' : State F V}
    (h : Tracks consumed reports s) (hsame : s'.audio = s.audio) : Tracks consumed reports s' := by
  simp only [State.audio, Prod.mk.injEq] at hsame
  obtain ⟨hphase, hcommitted, hlookback, hpcm, hend, hid⟩ := hsame
  have hlive : s'.Live → s.Live := fun hl => by rwa [State.Live, hphase, hcommitted] at hl
  refine ⟨hlookback ▸ h.lookback, fun hl => hpcm ▸ h.held (hlive hl), fun hl => ?_,
    hid ▸ h.numbered, fun hl => ?_, h.ordered⟩
  · rw [hend, hpcm]
    exact h.speech (hlive hl)
  · rw [hid, hpcm, hphase, hend]
    exact h.prior (hlive hl)

/-! ### What a window does to the audio -/

theorem turnPcm_hear {s : State F V} (hlive : s.Live) (window : List F) :
    (hear M s window).turnPcm = s.turnPcm ++ window := if_pos hlive

theorem speechEnd_hear {s : State F V} (hlive : s.Live) (window : List F) :
    (hear M s window).speechEnd
      = if (hear M s window).inSpeech then (s.turnPcm ++ window).length else s.speechEnd := by
  cases hspeech : (hear M s window).inSpeech with
  | true => exact (if_pos ⟨hlive, hspeech⟩).trans (congrArg List.length (turnPcm_hear M hlive window))
  | false => exact if_neg fun h => Bool.false_ne_true (hspeech.symm.trans h.2)

theorem speechRun_hear (s : State F V) (window : List F) :
    (hear M s window).speechRun = if (hear M s window).inSpeech then s.speechRun + 1 else 0 := rfl

theorem rtake_suffix (l : List F) (n : ℕ) : l.rtake n <:+ l := List.drop_suffix _ _

theorem suffix_append_right {l l' : List F} (h : l <:+ l') (x : List F) : l ++ x <:+ l' ++ x := by
  obtain ⟨front, rfl⟩ := h
  exact ⟨front, by simp⟩

namespace Tracks

variable {M} {consumed : List F} {reports : List (Report F)} {s : State F V}

/-- One more report, not of a commit. -/
theorem report (h : Tracks consumed reports s) {r : Report F} (hr : r.event ≠ .turnCommitted)
    (hid : r.turnId ≤ s.turnId) : Tracks consumed (reports ++ [r]) s where
  lookback := h.lookback
  held := h.held
  speech := h.speech
  numbered := by
    intro r' hr'
    rcases List.mem_append.1 hr' with hr' | hr'
    · exact h.numbered r' hr'
    · obtain rfl := List.mem_singleton.1 hr'
      exact hid
  prior := by
    intro hlive r' hr' hevent
    rcases List.mem_append.1 hr' with hr' | hr'
    · exact h.prior hlive r' hr' hevent
    · obtain rfl := List.mem_singleton.1 hr'
      exact absurd hevent hr
  ordered := by
    rw [List.pairwise_append]
    refine ⟨h.ordered, List.pairwise_singleton _ _, fun r₁ _ r₂ hr₂ hsame => ?_⟩
    obtain rfl := List.mem_singleton.1 hr₂
    exact absurd hsame.2.1 hr

theorem emit (h : Tracks consumed reports s) (s₀ : State F V) (hid : s₀.turnId ≤ s.turnId)
    {e : Event} (he : e ≠ .turnCommitted) (score : F) :
    Tracks consumed (reports ++ [Session.emit M s₀ e score]) s :=
  h.report he hid

/-- The audio of a turn that is over is nobody's. -/
theorem ended (h : Tracks consumed reports s) {s' : State F V} (hidle : s'.phase = .idle)
    (hcommitted : s'.committed = false) (hlookback : s'.lookback = s.lookback)
    (hid : s'.turnId = s.turnId) : Tracks consumed reports s' := by
  have hdead : ¬s'.Live := by simp [State.Live, hidle, hcommitted]
  exact ⟨hlookback ▸ h.lookback, fun h' => absurd h' hdead, fun h' => absurd h' hdead,
    hid ▸ h.numbered, fun h' => absurd h' hdead, h.ordered⟩

theorem tryFinal (h : Tracks consumed reports s) (hidle : s.committed = true → s.phase = .idle) :
    Tracks consumed (reports ++ (Session.tryFinal M s).2) (Session.tryFinal M s).1 := by
  unfold Session.tryFinal
  split_ifs with hfinal
  · have hended : Tracks consumed reports { s with committed := false, turnPcm := [] } :=
      h.ended (hidle hfinal.1) rfl rfl rfl
    exact hended.emit _ le_rfl (by decide) _
  · rw [List.append_nil]
    exact h

theorem tickGrace (h : Tracks consumed reports s) (hs : s.Coherent) :
    Tracks consumed (reports ++ (Session.tickGrace M s).2) (Session.tickGrace M s).1 := by
  have hticked : Tracks consumed reports { s with graceLeft := s.graceLeft - 1 } :=
    h.congr rfl
  unfold Session.tickGrace
  dsimp only
  split_ifs
  · exact hticked.tryFinal hs.idle_of_committed
  · rw [List.append_nil]
    exact hticked
  · rw [List.append_nil]
    exact h

/-- The window goes to the end of the stream, of the lookback and of the audio of a live turn. -/
theorem hear (h : Tracks consumed reports s) {window : List F} :
    Tracks (consumed ++ window) reports (Session.hear M s window) where
  lookback := by
    change (s.lookback.push window).read <:+ _
    rw [SampleRing.read_push]
    exact (rtake_suffix _ _).trans (suffix_append_right h.lookback window)
  held := fun (hlive : s.Live) => by
    rw [turnPcm_hear M hlive]
    exact suffix_append_right (h.held hlive) window
  speech := fun (hlive : s.Live) => by
    have hold := h.speech hlive
    rw [turnPcm_hear M hlive, speechEnd_hear M hlive, List.length_append]
    split_ifs <;> omega
  numbered := h.numbered
  prior := fun (hlive : s.Live) r hr hevent hid => by
    obtain ⟨hfront, hlength⟩ := h.prior hlive r hr hevent hid
    have hold := h.speech hlive
    rw [turnPcm_hear M hlive, speechEnd_hear M hlive, List.length_append]
    refine ⟨hfront.trans (List.prefix_append _ _), fun hphase => ?_⟩
    have := hlength hphase
    split_ifs <;> omega
  ordered := h.ordered

end Tracks

/-- **What a window that was heard adds.**  A run of speech goes up to the end of the audio, and
everything handed over before ends before it. -/
structure Fresh (reports : List (Report F)) (s : State F V) : Prop where
  spoken : s.Live → 0 < s.speechRun → s.speechEnd = s.turnPcm.length
  longer : s.Live → ∀ r ∈ reports, r.event = .turnCommitted → r.turnId = s.turnId →
    r.pcm.length < s.turnPcm.length

theorem fresh_hear {consumed : List F} {reports : List (Report F)} {s : State F V}
    (h : Tracks consumed reports s) {window : List F} (hwindow : 0 < window.length) :
    Fresh reports (hear M s window) where
  spoken := fun (hlive : s.Live) hrun => by
    rw [speechRun_hear] at hrun
    rw [turnPcm_hear M hlive, speechEnd_hear M hlive]
    split_ifs at hrun ⊢
    · rfl
    · omega
  longer := fun (hlive : s.Live) r hr hevent hid => by
    have hfront := (h.prior hlive r hr hevent hid).1.length_le
    rw [turnPcm_hear M hlive, List.length_append]
    omega

/-! ### What the state machine does to it -/

section Advance

variable {M} {consumed : List F} {reports : List (Report F)} {s : State F V}

/-- A commit hands over the beginning of the audio, longer than at any commit of the turn before. -/
theorem Tracks.commit (h : Tracks consumed reports s) (hphase : s.phase ≠ .idle) (score : F)
    (grace : ℕ) :
    Tracks consumed (reports ++ (Session.commit M s score grace).2)
      (Session.commit M s score grace).1 := by
  have hlive : s.Live := .inl hphase
  have hspeech := h.speech hlive
  set n := min s.turnPcm.length (s.speechEnd + s.counts.padWindows * M.window) with hn
  obtain ⟨r, hr, hrevent, hrid, hrpcm⟩ : ∃ r, (Session.commit M s score grace).2 = [r] ∧
      r.event = .turnCommitted ∧ r.turnId = s.turnId ∧ r.pcm = s.turnPcm.take n :=
    ⟨_, rfl, rfl, rfl, rfl⟩
  rw [hr]
  refine ⟨h.lookback, fun _ => h.held hlive, fun _ => hspeech, ?_, ?_, ?_⟩
  · intro r' hr'
    rcases List.mem_append.1 hr' with hr' | hr'
    · exact h.numbered r' hr'
    · obtain rfl := List.mem_singleton.1 hr'
      exact hrid.le
  · intro _ r' hr' hevent hid
    refine ⟨?_, fun hidle => absurd rfl hidle⟩
    rcases List.mem_append.1 hr' with hr' | hr'
    · exact (h.prior hlive r' hr' hevent hid).1
    · obtain rfl := List.mem_singleton.1 hr'
      rw [hrpcm]
      exact List.take_prefix _ _
  · rw [List.pairwise_append]
    refine ⟨h.ordered, List.pairwise_singleton _ _, fun r₁ hr₁ r₂ hr₂ hsame => ?_⟩
    obtain rfl := List.mem_singleton.1 hr₂
    obtain ⟨hfront, hlength⟩ := h.prior hlive r₁ hr₁ hsame.1 (hsame.2.2.trans hrid)
    have hlt := hlength hphase
    have hlen : r₂.pcm.length = n := by rw [hrpcm, List.length_take]; omega
    refine ⟨?_, by omega⟩
    rw [hrpcm]
    exact List.prefix_take_iff.2 ⟨hfront, by omega⟩

/-- The turn stays live, and what was handed over stays the beginning of its audio. -/
theorem Tracks.stays (h : Tracks consumed reports s) {s' : State F V} (hlive : s.Live)
    (hlookback : s'.lookback = s.lookback) (hpcm : s'.turnPcm = s.turnPcm)
    (hend : s'.speechEnd = s.speechEnd) (hid : s'.turnId = s.turnId)
    (hprior : ∀ r ∈ reports, r.event = .turnCommitted → r.turnId = s.turnId →
      r.pcm.length < s.speechEnd) : Tracks consumed reports s' := by
  refine ⟨hlookback ▸ h.lookback, fun _ => hpcm ▸ h.held hlive,
    fun _ => hpcm ▸ hend ▸ h.speech hlive, hid ▸ h.numbered, fun _ r hr hevent hsame => ?_, h.ordered⟩
  rw [hid] at hsame
  rw [hpcm, hend]
  exact ⟨(h.prior hlive r hr hevent hsame).1, fun _ => hprior r hr hevent hsame⟩

theorem tracks_advanceIdle (h : Tracks consumed reports s) (hf : Fresh reports s) :
    Tracks consumed (reports ++ (advanceIdle M s).2) (advanceIdle M s).1 := by
  have hopen : Tracks consumed reports (openTurn M s).1 := by
    have hnone : ∀ r ∈ reports, r.turnId ≠ s.turnId + 1 := fun r hr heq => by
      have := h.numbered r hr
      omega
    exact ⟨h.lookback, fun _ => h.lookback, fun _ => le_rfl,
      fun r hr => Nat.le_succ_of_le (h.numbered r hr),
      fun _ r hr _ hid => absurd hid (hnone r hr), h.ordered⟩
  unfold advanceIdle
  by_cases hresume : s.committed ∧ s.counts.reopenWindows ≤ s.speechRun
  · rw [if_pos hresume]
    have hlive : s.Live := .inr hresume.1
    have hend := hf.spoken hlive (s.counts.reopen_pos.trans_le hresume.2)
    have hresumed : Tracks consumed reports (resume M s).1 :=
      h.stays hlive rfl rfl rfl rfl fun r hr hevent hid => by
        rw [hend]
        exact hf.longer hlive r hr hevent hid
    exact hresumed.emit _ le_rfl (by decide) _
  · rw [if_neg hresume]
    by_cases hrun : (if s.speaking then s.counts.bargeWindows else s.counts.openWindows) ≤ s.speechRun
    · rw [if_pos hrun]
      dsimp only
      cases s.speaking with
      | true =>
        have hbarge := hopen.emit (M := M) s (Nat.le_succ _) (e := .bargeIn) (by decide) M.zero
        have hopened := hbarge.emit (M := M) (openTurn M s).1 le_rfl (e := .speechStarted)
          (by decide) M.zero
        rw [List.append_assoc] at hopened
        exact hopened
      | false => exact hopen.emit _ le_rfl (by decide) _
    · rw [if_neg hrun, List.append_nil]
      exact h

theorem tracks_advanceSpeaking (h : Tracks consumed reports s) (hphase : s.phase = .userSpeaking) :
    Tracks consumed (reports ++ (advanceSpeaking M s).2) (advanceSpeaking M s).1 := by
  have hspeaking : s.phase ≠ .idle := by simp [hphase]
  have hstopped : Tracks consumed reports { s with phase := .pendingEnd, pendingRun := 0 } :=
    h.stays (.inl hspeaking) rfl rfl rfl rfl fun r hr hevent hid =>
      (h.prior (.inl hspeaking) r hr hevent hid).2 hspeaking
  have hreported := hstopped.emit (M := M) _ le_rfl (e := .speechStopped) (by decide) M.zero
  unfold advanceSpeaking
  dsimp only
  split_ifs
  · rw [← List.singleton_append, ← List.append_assoc]
    exact hreported.commit (by simp) _ _
  · rw [← List.singleton_append, ← List.append_assoc]
    exact hreported.emit _ le_rfl (by decide) _
  · rw [List.append_nil]
    exact h

theorem tracks_advancePending (h : Tracks consumed reports s) (hphase : s.phase = .pendingEnd) :
    Tracks consumed (reports ++ (advancePending M s).2) (advancePending M s).1 := by
  have hpending : s.phase ≠ .idle := by simp [hphase]
  have hstays : ∀ s' : State F V, s'.lookback = s.lookback → s'.turnPcm = s.turnPcm →
      s'.speechEnd = s.speechEnd → s'.turnId = s.turnId → Tracks consumed reports s' :=
    fun s' h₁ h₂ h₃ h₄ => h.stays (.inl hpending) h₁ h₂ h₃ h₄ fun r hr hevent hid =>
      (h.prior (.inl hpending) r hr hevent hid).2 hpending
  unfold advancePending
  dsimp only
  split_ifs
  · have hback : Tracks consumed reports
        { s with pendingRun := s.pendingRun + 1, revision := s.revision + 1, phase := .userSpeaking } :=
      hstays _ rfl rfl rfl rfl
    exact hback.emit _ le_rfl (by decide) _
  · exact (hstays { s with pendingRun := s.pendingRun + 1 } rfl rfl rfl rfl).commit hpending _ _
  · rw [List.append_nil]
    exact hstays _ rfl rfl rfl rfl

theorem tracks_advance (h : Tracks consumed reports s) (hf : Fresh reports s) :
    Tracks consumed (reports ++ (advance M s).2) (advance M s).1 := by
  unfold advance
  split
  case h_1 => exact tracks_advanceIdle h hf
  case h_2 hphase => exact tracks_advanceSpeaking h hphase
  case h_3 hphase => exact tracks_advancePending h hphase

/-- **A window goes to the end of what is held.** -/
theorem tracks_sessionWindow (h : Tracks consumed reports s) (hs : s.Coherent) {window : List F}
    (hwindow : 0 < window.length) :
    Tracks (consumed ++ window) (reports ++ (sessionWindow M s window).2)
      (sessionWindow M s window).1 := by
  have hticked := h.tickGrace (M := M) hs
  have hheard : Tracks (consumed ++ window) _ (hear M (tickGrace M s).1 window) := hticked.hear
  have hadvanced := tracks_advance (M := M) hheard (fresh_hear M hticked hwindow)
  rw [List.append_assoc] at hadvanced
  exact hadvanced.congr rfl

end Advance

/-! ### Every run -/

/-- The samples pushed. -/
def pushed (ops : List (Op F)) : List F :=
  ops.flatMap fun
    | .push pcm => pcm
    | _ => []

/-- The samples of the windows consumed so far: the whole windows of what was pushed. -/
def consumed (ops : List (Op F)) : List F :=
  (pushed ops).take ((pushed ops).length / M.window * M.window)

/-- What a run of calls keeps: what was heard is the windows consumed and what is left over. -/
structure Streams (heard : List F) (reports : List (Report F)) (s : State F V) : Prop where
  coherent : s.Coherent
  left_lt : s.partialPcm.length < M.window
  windows : ∃ windows, heard = windows ++ s.partialPcm ∧ M.window ∣ windows.length ∧
    Tracks windows reports s

theorem tracks_pushWindows (n : ℕ) {windows pcm : List F} {reports : List (Report F)}
    {s : State F V} (h : Tracks windows reports s) (hs : s.Coherent)
    (hn : n * M.window ≤ pcm.length) :
    Tracks (windows ++ pcm.take (n * M.window)) (reports ++ (pushWindows M n s pcm).2)
      (pushWindows M n s pcm).1 := by
  induction n generalizing windows pcm reports s with
  | zero =>
    rw [Nat.zero_mul, List.take_zero, List.append_nil, pushWindows, List.append_nil]
    exact h.congr rfl
  | succ n ih =>
    rw [Nat.succ_mul] at hn
    have hfirst : (pcm.take M.window).length = M.window := by
      rw [List.length_take]
      omega
    have hone := tracks_sessionWindow (M := M) h hs (hfirst ▸ M.window_pos)
    have hleft : n * M.window ≤ (pcm.drop M.window).length := by
      rw [List.length_drop]
      omega
    have hrest := ih hone (keeps_sessionWindow M hs _).2 hleft
    have hsplit : pcm.take ((n + 1) * M.window)
        = pcm.take M.window ++ (pcm.drop M.window).take (n * M.window) := by
      rw [Nat.succ_mul, Nat.add_comm, List.take_add]
    rw [hsplit, ← List.append_assoc, pushWindows, ← List.append_assoc]
    exact hrest

theorem streams_apply {heard : List F} {reports : List (Report F)} {s : State F V}
    (h : Streams M heard reports s) (op : Op F) :
    Streams M (heard ++ pushed [op]) (reports ++ (apply M s op).2) (apply M s op).1 := by
  have hcoherent := (follow_apply M h.coherent op).2
  obtain ⟨windows, rfl, hdvd, htracks⟩ := h.windows
  cases op with
  | push pcm =>
    refine ⟨hcoherent, length_partialPcm_push M h.left_lt pcm, ?_⟩
    have hpushed : pushed [Op.push pcm] = pcm := by simp [pushed]
    set joined := s.partialPcm ++ pcm with hjoined
    have hwhole : joined.length / M.window * M.window ≤ joined.length := Nat.div_mul_le_self _ _
    refine ⟨windows ++ joined.take (joined.length / M.window * M.window), ?_, ?_, ?_⟩
    · rw [apply, push_eq M h.left_lt, partialPcm_pushWhole, hpushed, List.append_assoc,
        List.append_assoc, List.take_append_drop]
    · rw [List.length_append, List.length_take_of_le hwhole]
      exact Nat.dvd_add hdvd (Nat.dvd_mul_left _ _)
    · rw [apply, push_eq M h.left_lt]
      exact tracks_pushWindows M _ htracks h.coherent hwhole
  | setSpeaking speaking =>
    refine ⟨hcoherent, h.left_lt, windows, by simp [pushed, apply, setSpeaking], hdvd, ?_⟩
    rw [apply, List.append_nil]
    exact htracks.congr rfl
  | release turnId revision =>
    have hreleased : Tracks windows reports { s with released := true } := htracks.congr rfl
    have hfinal := hreleased.tryFinal (M := M) h.coherent.idle_of_committed
    have hpartial : (release M s turnId revision).1.partialPcm = s.partialPcm := by
      unfold release tryFinal
      split_ifs <;> rfl
    refine ⟨hcoherent, hpartial ▸ h.left_lt, windows, by simp [pushed, apply, hpartial], hdvd, ?_⟩
    rw [apply, release]
    split_ifs
    · exact hfinal
    · rw [List.append_nil]
      exact htracks
  | setParams p =>
    refine ⟨hcoherent, h.left_lt, windows, by simp [pushed, apply, setParams], hdvd, ?_⟩
    rw [apply, List.append_nil]
    refine ⟨?_, htracks.2, htracks.3, htracks.4, htracks.5, htracks.6⟩
    change (s.lookback.resize M.zero _).read <:+ _
    rw [SampleRing.read_resize]
    exact (rtake_suffix _ _).trans htracks.lookback

theorem streams_run {heard : List F} {reports : List (Report F)} {s : State F V}
    (h : Streams M heard reports s) (ops : List (Op F)) :
    Streams M (heard ++ pushed ops) (reports ++ reportsOf (run M s ops).2) (run M s ops).1 := by
  induction ops generalizing heard reports s with
  | nil => simpa [pushed, run] using h
  | cons op ops ih =>
    have hrest := ih (streams_apply M h op)
    have hpushed : pushed (op :: ops) = pushed [op] ++ pushed ops := by simp [pushed]
    rw [run, hpushed, List.cons_append, reportsOf_call, reportsOf_append, reportsOf_map_report,
      ← List.append_assoc, ← List.append_assoc]
    exact hrest

theorem streams_sessionNew (vad : V) (p : Params F) :
    Streams M [] [] (sessionNew M vad p) := by
  refine ⟨coherent_sessionNew M vad p, M.window_pos, [], rfl, Nat.dvd_zero _, ?_, ?_, ?_, ?_, ?_, .nil⟩
  · change (SampleRing.empty.resize M.zero _).read <:+ _
    rw [SampleRing.read_resize]
    exact rtake_suffix _ _
  · simp [State.Live, sessionNew, setParams]
  · simp [State.Live, sessionNew, setParams]
  · simp
  · simp

/-- **The audio of every run.**  While a turn is open, or committed and not final, its audio is the
last samples of the windows consumed so far and its speech ends within it; and of two commits of
one turn, the audio of the earlier is a strict prefix of the audio of the later.  The state between
two windows of a push is one of these as well: a push of the windows so far leaves it
(`push_append`). -/
theorem audio_run (vad : V) (p : Params F) (ops : List (Op F)) :
    ((run M (sessionNew M vad p) ops).1.Live →
      (run M (sessionNew M vad p) ops).1.turnPcm <:+ consumed M ops ∧
        (run M (sessionNew M vad p) ops).1.speechEnd
          ≤ (run M (sessionNew M vad p) ops).1.turnPcm.length) ∧
    ∀ before r between r' after,
      (run M (sessionNew M vad p) ops).2
        = before ++ .report r :: (between ++ .report r' :: after) →
      SameTurn r r' → StrictPrefix r.pcm r'.pcm := by
  have h := streams_run M (streams_sessionNew M vad p) ops
  rw [List.nil_append, List.nil_append] at h
  obtain ⟨windows, hheard, hdvd, htracks⟩ := h.windows
  constructor
  · intro hlive
    have hconsumed : consumed M ops = windows := by
      obtain ⟨k, hk⟩ := hdvd
      have hlen : (pushed ops).length / M.window = k := by
        rw [hheard, List.length_append, hk, Nat.mul_add_div M.window_pos,
          Nat.div_eq_of_lt h.left_lt, Nat.add_zero]
      rw [consumed, hlen, hheard, Nat.mul_comm, ← hk, List.take_left']
      rfl
    rw [hconsumed]
    exact ⟨htracks.held hlive, htracks.speech hlive⟩
  · intro before r between r' after hitems hsame
    have hordered := htracks.ordered
    rw [hitems] at hordered
    simp only [reportsOf_append, reportsOf_report, List.pairwise_append, List.pairwise_cons] at hordered
    exact hordered.2.1.1 r' (by simp) hsame

end Session
end S2S
