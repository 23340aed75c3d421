/-
# Where the audio of a turn begins and ends

The windows of a session are marked with what the detector said of them and
whether they committed a turn (`Mark`).  The run of speech that is counted is the
marks at the end that speak and commit nothing (`runOf`), and the end of the
speech is behind the last mark that speaks (`spokenUntil`): `Placed` says so of a
session with fixed thresholds.  In `IDLE` a run never outgrows the larger of the
two thresholds, so the lookback holds it and the pad before it (`lookback_run`).
-/

import S2S.Session.Audio
import S2S.Session.Timing

namespace S2S
namespace Session

/-- A window that was heard: whether it was speech, and whether it committed a turn. -/
structure Mark where
  speech : Bool
  commits : Bool

/-- The window is one more of a run of speech. -/
def Mark.runs (k : Mark) : Bool := k.speech && !k.commits

/-- The run of speech at the end, since the last window that was not speech or committed a turn. -/
def runOf (marks : List Mark) : ℕ := (marks.rtakeWhile Mark.runs).length

/-- The windows up to the last one that was speech. -/
def spokenUntil (marks : List Mark) : ℕ := (marks.rdropWhile fun k => !k.speech).length

theorem runOf_snoc (marks : List Mark) (k : Mark) :
    runOf (marks ++ [k]) = if k.runs then runOf marks + 1 else 0 := by
  unfold runOf
  rw [List.rtakeWhile_concat]
  split_ifs <;> simp

theorem spokenUntil_snoc (marks : List Mark) (k : Mark) :
    spokenUntil (marks ++ [k]) = if k.speech then marks.length + 1 else spokenUntil marks := by
  unfold spokenUntil
  rw [List.rdropWhile_concat]
  cases k.speech <;> simp

/-- A run of speech ends with the last window. -/
theorem spokenUntil_of_run {marks : List Mark} (h : 0 < runOf marks) :
    spokenUntil marks = marks.length ∧ 0 < marks.length := by
  rcases List.eq_nil_or_concat marks with rfl | ⟨marks, k, rfl⟩
  · simp [runOf] at h
  · rw [List.concat_eq_append] at h ⊢
    rw [runOf_snoc] at h
    rw [spokenUntil_snoc]
    cases hk : k.speech with
    | true => simp
    | false => simp [Mark.runs, hk] at h

variable {F V : Type} (M : Models F V)

/-- The most windows a run in `IDLE` can count. -/
def Counts.most (c : Counts) : ℕ := max c.openWindows c.bargeWindows

/-- **A session with fixed thresholds**, the samples of its windows and their marks. -/
structure Placed (p : Params F) (heard : List F) (marks : List Mark) (s : State F V) : Prop where
  counts : s.counts = Counts.of M p
  capacity : s.lookback.data.length = (Counts.of M p).lookback M.window
  size : s.lookback.size = min ((Counts.of M p).lookback M.window) heard.length
  windows : heard.length = marks.length * M.window
  run : s.speechRun = runOf marks
  spoken : s.Live →
    heard.length + s.speechEnd = spokenUntil marks * M.window + s.turnPcm.length
  begun : s.Live → 0 < s.speechEnd

/-- In `IDLE` the run is not long enough to open a turn, whoever speaks. -/
def Short (p : Params F) (s : State F V) : Prop :=
  s.phase = .idle → s.speechRun < (Counts.of M p).most

/-- A commit is among the reports. -/
def commitsIn (rs : List (Report F)) : Bool := rs.any fun r => decide (r.event = .turnCommitted)

/-- **What the state machine leaves of a window.** -/
structure Outcome (p : Params F) (heard : List F) (marks : List Mark) (speech : Bool)
    (out : State F V × List (Report F)) : Prop where
  placed : Placed M p heard (marks ++ [⟨speech, commitsIn out.2⟩]) out.1
  short : Short M p out.1
  opens : ∀ r ∈ out.2, r.Opens → out.1.turnPcm = out.1.lookback.read ∧
    0 < out.1.speechRun ∧ out.1.speechRun ≤ (Counts.of M p).most
  commits : ∀ r ∈ out.2, r.event = .turnCommitted → out.1.Live ∧
    r.pcm = out.1.turnPcm.take (min out.1.turnPcm.length
      (out.1.speechEnd + (Counts.of M p).padWindows * M.window)) ∧
    r.nHeld = out.1.turnPcm.length

section Window
variable {M} {p : Params F} {heard : List F} {marks : List Mark} {s s' : State F V} {speech : Bool}

theorem Placed.aside (h : Placed M p heard marks s) (hcounts : s'.counts = s.counts)
    (hlookback : s'.lookback = s.lookback) (hrun : s'.speechRun = s.speechRun)
    (hlive : s'.Live → s.Live ∧ s'.turnPcm = s.turnPcm ∧ s'.speechEnd = s.speechEnd) :
    Placed M p heard marks s' where
  counts := hcounts.trans h.counts
  capacity := by rw [hlookback, h.capacity]
  size := by rw [hlookback, h.size]
  windows := h.windows
  run := hrun.trans h.run
  spoken := fun hl => by
    obtain ⟨hlive', hpcm, hend⟩ := hlive hl
    rw [hpcm, hend]
    exact h.spoken hlive'
  begun := fun hl => by
    obtain ⟨hlive', -, hend⟩ := hlive hl
    rw [hend]
    exact h.begun hlive'

/-- **A window is heard.** -/
theorem Placed.hear (h : Placed M p heard marks s) {window : List F}
    (hwindow : window.length = M.window) :
    Placed M p (heard ++ window) (marks ++ [⟨(Session.hear M s window).inSpeech, false⟩])
      (Session.hear M s window) where
  counts := h.counts
  capacity := (SampleRing.length_data_push _ _).trans h.capacity
  size := by
    change min (s.lookback.size + window.length) s.lookback.data.length = _
    rw [h.size, h.capacity, List.length_append]
    omega
  windows := by
    rw [List.length_append, List.length_append, h.windows, hwindow, List.length_singleton,
      Nat.succ_mul]
  run := by
    rw [speechRun_hear, runOf_snoc, h.run]
    simp [Mark.runs]
  spoken := fun (hlive : s.Live) => by
    have hold := h.spoken hlive
    rw [turnPcm_hear M hlive, speechEnd_hear M hlive, spokenUntil_snoc, List.length_append,
      List.length_append, hwindow]
    have := h.windows
    split_ifs
    · rw [Nat.succ_mul]
      omega
    · omega
  begun := fun (hlive : s.Live) => by
    have hold := h.begun hlive
    have := M.window_pos
    rw [speechEnd_hear M hlive, List.length_append]
    split_ifs <;> omega

theorem Outcome.quiet (h : Placed M p heard (marks ++ [⟨speech, false⟩]) s)
    {rs : List (Report F)} (hcounts : s'.counts = s.counts) (hlookback : s'.lookback = s.lookback)
    (hrun : s'.speechRun = s.speechRun)
    (hlive : s'.Live → s.Live ∧ s'.turnPcm = s.turnPcm ∧ s'.speechEnd = s.speechEnd)
    (hshort : Short M p s') (hrs : ∀ r ∈ rs, ¬r.Opens ∧ r.event ≠ .turnCommitted) :
    Outcome M p heard marks speech (s', rs) where
  placed := by
    have hnone : commitsIn rs = false := by
      simpa [commitsIn] using fun r hr => (hrs r hr).2
    rw [hnone]
    exact h.aside hcounts hlookback hrun hlive
  short := hshort
  opens := fun r hr hopens => absurd hopens (hrs r hr).1
  commits := fun r hr hcommit => absurd hcommit (hrs r hr).2

/-- **A commit** hands over the audio up to the pad behind the speech, and counts a run anew. -/
theorem Outcome.commit (h : Placed M p heard (marks ++ [⟨speech, false⟩]) s) (hlive : s.Live)
    (score : F) (grace : ℕ) (before : List (Report F))
    (hbefore : ∀ r ∈ before, ¬r.Opens ∧ r.event ≠ .turnCommitted) :
    Outcome M p heard marks speech
      ((Session.commit M s score grace).1, before ++ (Session.commit M s score grace).2) where
  placed := by
    have hsome : commitsIn (before ++ (Session.commit M s score grace).2) = true := by
      simp [commitsIn, Session.commit, emit]
    have hwindows := h.windows
    have hspoken := h.spoken hlive
    rw [spokenUntil_snoc] at hspoken
    rw [hsome]
    refine ⟨h.counts, h.capacity, h.size, ?_, ?_, fun _ => ?_, fun _ => h.begun hlive⟩
    · simpa using hwindows
    · rw [runOf_snoc]
      simp [Mark.runs, Session.commit]
    · rw [spokenUntil_snoc]
      exact hspoken
  short := fun _ => (Counts.of M p).open_pos.trans_le (le_max_left _ _)
  opens := by
    intro r hr hopens
    rcases List.mem_append.1 hr with hr | hr
    · exact absurd hopens (hbefore r hr).1
    · rw [List.mem_singleton.1 hr] at hopens
      exact absurd hopens.1 (by simp [emit])
  commits := by
    intro r hr hcommit
    rcases List.mem_append.1 hr with hr | hr
    · exact absurd hcommit (hbefore r hr).2
    · rw [List.mem_singleton.1 hr]
      refine ⟨.inr rfl, ?_, ?_⟩
      · simp [emit, Session.commit, h.counts]
      · simp [emit, Session.commit]

/-- **A turn opens** on the lookback, which ends with the run that opened it. -/
theorem Outcome.opened (h : Placed M p heard (marks ++ [⟨speech, false⟩]) s)
    (hrun : 0 < s.speechRun) (hmost : s.speechRun ≤ (Counts.of M p).most)
    {before : List (Report F)} (hbefore : ∀ r ∈ before, ¬r.Opens ∧ r.event ≠ .turnCommitted) :
    Outcome M p heard marks speech ((openTurn M s).1, before ++ (openTurn M s).2) where
  placed := by
    have hnone : commitsIn (before ++ (openTurn M s).2) = false := by
      simpa [commitsIn, openTurn, emit] using fun r hr => (hbefore r hr).2
    obtain ⟨hlast, hmarks⟩ := spokenUntil_of_run (h.run ▸ hrun)
    have hread : s.lookback.read.length = min ((Counts.of M p).lookback M.window) heard.length := by
      rw [SampleRing.length_read, h.size]
    have hcapacity : 0 < (Counts.of M p).lookback M.window := by
      have := (Counts.of M p).open_pos
      exact Nat.mul_pos (by omega) M.window_pos
    have hheard : 0 < heard.length := by
      rw [h.windows]
      exact Nat.mul_pos hmarks M.window_pos
    rw [hnone]
    refine ⟨h.counts, h.capacity, h.size, h.windows, h.run, fun _ => ?_, fun _ => ?_⟩
    · rw [hlast, ← h.windows]
      rfl
    · change 0 < s.lookback.read.length
      omega
  short := fun hidle => absurd hidle (by simp [openTurn])
  opens := fun _ _ _ => ⟨rfl, hrun, hmost⟩
  commits := by
    intro r hr hcommit
    rcases List.mem_append.1 hr with hr | hr
    · exact absurd hcommit (hbefore r hr).2
    · rw [List.mem_singleton.1 hr] at hcommit
      exact absurd hcommit (by simp [emit])

theorem outcome_advanceIdle (h : Placed M p heard (marks ++ [⟨speech, false⟩]) s)
    (hmost : s.speechRun ≤ (Counts.of M p).most) :
    Outcome M p heard marks speech (advanceIdle M s) := by
  unfold advanceIdle
  by_cases hresume : s.committed ∧ s.counts.reopenWindows ≤ s.speechRun
  · rw [if_pos hresume]
    refine Outcome.quiet h rfl rfl rfl (fun _ => ⟨.inr hresume.1, rfl, rfl⟩) ?_ ?_
    · exact fun hphase => absurd hphase (by simp)
    · simp [emit, Report.Opens]
  · rw [if_neg hresume]
    by_cases hopen : (if s.speaking then s.counts.bargeWindows else s.counts.openWindows) ≤ s.speechRun
    · rw [if_pos hopen]
      have hrun : 0 < s.speechRun := by
        have := s.counts.open_pos
        have := s.counts.barge_pos
        split_ifs at hopen <;> omega
      refine Outcome.opened h hrun hmost fun r hr => ?_
      split_ifs at hr
      · rw [List.mem_singleton.1 hr]
        simp [emit, Report.Opens]
      · simp at hr
    · rw [if_neg hopen]
      refine Outcome.quiet h rfl rfl rfl (fun hlive => ⟨hlive, rfl, rfl⟩) (fun _ => ?_) (by simp)
      rw [h.counts] at hopen
      unfold Counts.most
      split_ifs at hopen <;> omega

theorem outcome_advanceSpeaking (h : Placed M p heard (marks ++ [⟨speech, false⟩]) s)
    (hphase : s.phase = .userSpeaking) :
    Outcome M p heard marks speech (advanceSpeaking M s) := by
  have hlive : s.Live := .inl (by simp [hphase])
  have hpending : Placed M p heard (marks ++ [⟨speech, false⟩])
      { s with phase := .pendingEnd, pendingRun := 0 } :=
    h.aside rfl rfl rfl fun _ => ⟨hlive, rfl, rfl⟩
  unfold advanceSpeaking
  by_cases hclose : s.counts.closeWindows ≤ s.silenceRun
  · rw [if_pos hclose]
    dsimp only
    split_ifs
    · refine Outcome.commit hpending (.inl (by simp)) _ _ [_] ?_
      simp [emit, Report.Opens]
    · refine Outcome.quiet h rfl rfl rfl (fun _ => ⟨hlive, rfl, rfl⟩) ?_ ?_
      · exact fun hidle => absurd hidle (by simp)
      · simp [emit, Report.Opens]
  · rw [if_neg hclose]
    refine Outcome.quiet h rfl rfl rfl (fun _ => ⟨hlive, rfl, rfl⟩) ?_ (by simp)
    exact fun hidle => absurd hidle (by simp [hphase])

theorem outcome_advancePending (h : Placed M p heard (marks ++ [⟨speech, false⟩]) s)
    (hphase : s.phase = .pendingEnd) :
    Outcome M p heard marks speech (advancePending M s) := by
  have hlive : s.Live := .inl (by simp [hphase])
  have hcounted : Placed M p heard (marks ++ [⟨speech, false⟩])
      { s with pendingRun := s.pendingRun + 1 } :=
    h.aside rfl rfl rfl fun _ => ⟨hlive, rfl, rfl⟩
  unfold advancePending
  dsimp only
  split_ifs
  · refine Outcome.quiet h rfl rfl rfl (fun _ => ⟨hlive, rfl, rfl⟩) ?_ ?_
    · exact fun hidle => absurd hidle (by simp)
    · simp [emit, Report.Opens]
  · exact Outcome.commit hcounted (.inl (by simp [hphase])) _ _ [] (by simp)
  · refine Outcome.quiet h rfl rfl rfl (fun _ => ⟨hlive, rfl, rfl⟩) ?_ (by simp)
    exact fun hidle => absurd hidle (by simp [hphase])

/-- **A turn that opens** holds the run that opened it, and the pad before it as far as the stream
goes back. -/
theorem Outcome.opening {out : State F V × List (Report F)}
    (h : Outcome M p heard marks speech out) {reports : List (Report F)}
    (htracks : Tracks heard reports out.1) {r : Report F} (hr : r ∈ out.2) (hopens : r.Opens) :
    out.1.turnPcm <:+ heard ∧ 0 < runOf (marks ++ [⟨speech, commitsIn out.2⟩]) ∧
      (out.1.turnPcm = heard ∨
        (runOf (marks ++ [⟨speech, commitsIn out.2⟩]) + (Counts.of M p).padWindows) * M.window ≤
          out.1.turnPcm.length) := by
  obtain ⟨hread, hrun, hmost⟩ := h.opens r hr hopens
  have hlength : out.1.turnPcm.length =
      min ((Counts.of M p).lookback M.window) heard.length := by
    rw [hread, SampleRing.length_read, h.placed.size]
  rw [h.placed.run] at hrun hmost
  refine ⟨hread ▸ htracks.lookback, hrun, ?_⟩
  rcases Nat.le_total heard.length ((Counts.of M p).lookback M.window) with hle | hle
  · left
    rw [hread]
    refine htracks.lookback.eq_of_length ?_
    rw [← hread, hlength, min_eq_right hle]
  · right
    rw [hlength, min_eq_left hle]
    unfold Counts.lookback
    exact Nat.mul_le_mul_right _ (Nat.add_le_add_right hmost _)

/-- **A turn that is committed** hands over what it holds, to the pad behind its last speech. -/
theorem Outcome.handed {out : State F V × List (Report F)}
    (h : Outcome M p heard marks speech out) {reports : List (Report F)}
    (htracks : Tracks heard reports out.1) {r : Report F} (hr : r ∈ out.2)
    (hcommit : r.event = .turnCommitted) :
    let marks := marks ++ [⟨speech, commitsIn out.2⟩]
    r.nHeld ≤ heard.length ∧ r.pcm <+: heard.drop (heard.length - r.nHeld) ∧
      heard.length - r.nHeld < spokenUntil marks * M.window ∧
      spokenUntil marks * M.window ≤ heard.length - r.nHeld + r.pcm.length ∧
      heard.length - r.nHeld + r.pcm.length ≤
        (spokenUntil marks + (Counts.of M p).padWindows) * M.window := by
  intro marks
  obtain ⟨hlive, hpcm, hheld⟩ := h.commits r hr hcommit
  obtain ⟨front, hfront⟩ := htracks.held hlive
  have hend := htracks.speech hlive
  have hspoken : heard.length + out.1.speechEnd =
      spokenUntil marks * M.window + out.1.turnPcm.length := h.placed.spoken hlive
  have hbegun := h.placed.begun hlive
  have hlength : front.length + out.1.turnPcm.length = heard.length := by
    rw [← hfront, List.length_append]
  have hdrop : heard.drop (heard.length - r.nHeld) = out.1.turnPcm := by
    rw [hheld, ← hfront]
    exact List.drop_left' (by simp)
  have hcut : r.pcm.length = min out.1.turnPcm.length
      (out.1.speechEnd + (Counts.of M p).padWindows * M.window) := by
    rw [hpcm, List.length_take]
    omega
  rw [hdrop, hcut, hheld, Nat.add_mul]
  refine ⟨by omega, hpcm ▸ List.take_prefix _ _, ?_, ?_, ?_⟩ <;> omega

/-- The grace leaves the run and the audio, or clears the audio of a turn that is final. -/
theorem Placed.tickGrace (h : Placed M p heard marks s) (hs : s.Coherent) :
    Placed M p heard marks (Session.tickGrace M s).1 ∧
      (Session.tickGrace M s).1.phase = s.phase ∧
      (Session.tickGrace M s).1.speechRun = s.speechRun ∧
      ∀ r ∈ (Session.tickGrace M s).2, r.event = .turnFinal := by
  have hkept : Placed M p heard marks { s with graceLeft := s.graceLeft - 1 } :=
    h.aside rfl rfl rfl fun hlive => ⟨hlive, rfl, rfl⟩
  unfold Session.tickGrace tryFinal
  dsimp only
  split_ifs with _ _ hfinal
  · refine ⟨h.aside rfl rfl rfl fun hlive => ?_, rfl, rfl, by simp [emit]⟩
    rcases hlive with hphase | hcommitted
    · exact absurd (hs.idle_of_committed hfinal.1) hphase
    · exact absurd hcommitted Bool.false_ne_true
  · exact ⟨hkept, rfl, rfl, by simp⟩
  · exact ⟨hkept, rfl, rfl, by simp⟩
  · exact ⟨h, rfl, rfl, by simp⟩

/-- A release leaves the run and the audio, or clears the audio of a turn that is final. -/
theorem Placed.release (h : Placed M p heard marks s) (hs : s.Coherent) (turnId revision : ℤ) :
    Placed M p heard marks (Session.release M s turnId revision).1 ∧
      (Session.release M s turnId revision).1.phase = s.phase ∧
      (Session.release M s turnId revision).1.speechRun = s.speechRun := by
  unfold Session.release tryFinal
  dsimp only
  split_ifs with hmatch
  · refine ⟨h.aside rfl rfl rfl fun hlive => ?_, rfl, rfl⟩
    rcases hlive with hphase | hcommitted
    · exact absurd (hs.idle_of_committed hmatch.1) hphase
    · exact absurd hcommitted Bool.false_ne_true
  · exact ⟨h.aside rfl rfl rfl fun hlive => ⟨hlive, rfl, rfl⟩, rfl, rfl⟩
  · exact ⟨h, rfl, rfl⟩

/-- **One window.** -/
theorem outcome_sessionWindow (h : Placed M p heard marks s) (hshort : Short M p s)
    (hs : s.Coherent) {window : List F} (hwindow : window.length = M.window) :
    Outcome M p (heard ++ window) marks (sessionWindow M s window).1.inSpeech
      (sessionWindow M s window) := by
  obtain ⟨hticked, hphase, hrun, hfinals⟩ := h.tickGrace hs
  have hheard := hticked.hear hwindow
  set t := Session.hear M (Session.tickGrace M s).1 window with ht
  have hsame : t.phase = s.phase := hphase
  have hmost : t.phase = .idle → t.speechRun ≤ (Counts.of M p).most := by
    intro hidle
    have := hshort (hsame ▸ hidle)
    rw [ht, speechRun_hear, hrun]
    split_ifs <;> omega
  have hspeech : (advance M t).1.inSpeech = t.inSpeech := (advance_keeps M t).2.2
  have hadvanced : Outcome M p (heard ++ window) marks t.inSpeech (advance M t) := by
    unfold advance
    split
    case h_1 hidle => exact outcome_advanceIdle hheard (hmost hidle)
    case h_2 hspeaking => exact outcome_advanceSpeaking hheard hspeaking
    case h_3 hpending => exact outcome_advancePending hheard hpending
  have hcommits : commitsIn ((Session.tickGrace M s).2 ++ (advance M t).2) =
      commitsIn (advance M t).2 := by
    have hnone : commitsIn (Session.tickGrace M s).2 = false := by
      simpa [commitsIn] using fun r hr => by simp [hfinals r hr]
    unfold commitsIn at hnone ⊢
    rw [List.any_append, hnone, Bool.false_or]
  have hlater : ∀ r ∈ (Session.tickGrace M s).2 ++ (advance M t).2,
      r.Opens ∨ r.event = .turnCommitted → r ∈ (advance M t).2 := by
    intro r hr hevent
    rcases List.mem_append.1 hr with hr | hr
    · have hfinal := hfinals r hr
      rcases hevent with hopens | hcommit
      · simp [hopens.1] at hfinal
      · simp [hcommit] at hfinal
    · exact hr
  change Outcome M p (heard ++ window) marks (advance M t).1.inSpeech
    ({ (advance M t).1 with nWindows := (advance M t).1.nWindows + 1 },
      (Session.tickGrace M s).2 ++ (advance M t).2)
  rw [hspeech]
  refine ⟨?_, hadvanced.short, fun r hr hopens => ?_, fun r hr hcommit => ?_⟩
  · rw [hcommits]
    exact hadvanced.placed.aside rfl rfl rfl fun hlive => ⟨hlive, rfl, rfl⟩
  · exact hadvanced.opens r (hlater r hr (.inl hopens)) hopens
  · exact hadvanced.commits r (hlater r hr (.inr hcommit)) hcommit

end Window

/-! ### Every run -/

/-- The samples of the windows. -/
def heardIn (xs : List (Step F)) : List F :=
  xs.flatMap fun
    | .window pcm => pcm
    | _ => []

/-- The marks of the windows. -/
def marksIn (s : State F V) : List (Step F) → List Mark
  | [] => []
  | x :: xs =>
    let rest := marksIn (oneStep M s x).1 xs
    if x.isWindow then ⟨(oneStep M s x).1.inSpeech, commitsIn (oneStep M s x).2⟩ :: rest else rest

theorem marksIn_append (s : State F V) (xs ys : List (Step F)) :
    marksIn M s (xs ++ ys) = marksIn M s xs ++ marksIn M (through M s xs) ys := by
  induction xs generalizing s with
  | nil => rfl
  | cons x xs ih =>
    simp only [List.cons_append, marksIn, through, ih]
    split_ifs <;> rfl

theorem heardIn_append (xs ys : List (Step F)) : heardIn (xs ++ ys) = heardIn xs ++ heardIn ys :=
  List.flatMap_append

/-- Where a session stands after `xs`. -/
structure Stands (p : Params F) (heard : List F) (marks : List Mark) (s : State F V) : Prop where
  coherent : s.Coherent
  placed : Placed M p heard marks s
  short : Short M p s
  tracks : ∃ reports, Tracks heard reports s

/-- A step of a run with fixed thresholds: a whole window, or no change of the settings. -/
def Fits (x : Step F) : Prop :=
  (∀ pcm, x = .window pcm → pcm.length = M.window) ∧ ∀ q, x ≠ .setParams q

variable {M}

theorem stands_sessionNew (vad : V) (p : Params F) : Stands M p [] [] (sessionNew M vad p) := by
  have hdead : ¬(sessionNew M vad p).Live := by simp [State.Live, sessionNew, setParams]
  refine ⟨coherent_sessionNew M vad p, ⟨rfl, SampleRing.length_data_resize _ _ _, ?_, ?_, rfl,
    fun hlive => absurd hlive hdead, fun hlive => absurd hlive hdead⟩, fun _ => ?_, [], ?_⟩
  · rw [← SampleRing.length_read]
    change (SampleRing.empty.resize M.zero _).read.length = _
    rw [SampleRing.read_resize]
    simp [SampleRing.read_eq, SampleRing.empty, List.rtake]
  · simp
  · exact (Counts.of M p).open_pos.trans_le (le_max_left _ _)
  · obtain ⟨windows, hheard, -, htracks⟩ := (streams_sessionNew M vad p).windows
    obtain ⟨rfl, -⟩ := List.append_eq_nil_iff.1 hheard.symm
    exact htracks

/-- **One step.** -/
theorem Stands.step {p : Params F} {heard : List F} {marks : List Mark} {s : State F V}
    (h : Stands M p heard marks s) {x : Step F} (hx : Fits M x) :
    Stands M p (heard ++ heardIn [x]) (marks ++ marksIn M s [x]) (oneStep M s x).1 := by
  have hcoherent := coherent_oneStep (M := M) h.coherent x
  obtain ⟨reports, htracks⟩ := h.tracks
  cases x with
  | setParams q => exact absurd rfl (hx.2 q)
  | window pcm =>
    have hlength := hx.1 pcm rfl
    have hout := outcome_sessionWindow h.placed h.short h.coherent hlength
    have hheard : heardIn [Step.window pcm] = pcm := List.append_nil pcm
    rw [hheard]
    exact ⟨hcoherent, hout.placed, hout.short, _,
      tracks_sessionWindow htracks h.coherent (hlength ▸ M.window_pos)⟩
  | setSpeaking speaking =>
    have hplaced : Placed M p heard marks (setSpeaking s speaking) :=
      h.placed.aside rfl rfl rfl fun hlive => ⟨hlive, rfl, rfl⟩
    have hheld : Tracks heard reports (setSpeaking s speaking) := htracks.congr rfl
    simpa [heardIn, marksIn, Step.isWindow, oneStep] using
      (⟨hcoherent, hplaced, h.short, reports, hheld⟩ : Stands M p heard marks (setSpeaking s speaking))
  | release turnId revision =>
    have hplaced := h.placed.release h.coherent turnId revision
    have hreleased : Tracks heard reports { s with released := true } := htracks.congr rfl
    have hfinal := hreleased.tryFinal (M := M) h.coherent.idle_of_committed
    have hheld : ∃ reports, Tracks heard reports (release M s turnId revision).1 := by
      unfold release
      split_ifs
      · exact ⟨_, hfinal⟩
      · exact ⟨_, htracks⟩
    have hshort : Short M p (release M s turnId revision).1 := by
      obtain ⟨hplaced', hphase, hrun⟩ := hplaced
      intro hidle
      rw [hrun]
      exact h.short (hphase ▸ hidle)
    simpa [heardIn, marksIn, Step.isWindow, oneStep] using
      (⟨hcoherent, hplaced.1, hshort, hheld⟩ : Stands M p heard marks _)

/-- **A session after any steps.** -/
theorem stands_through {p : Params F} (vad : V) (xs : List (Step F)) (hxs : ∀ x ∈ xs, Fits M x) :
    Stands M p (heardIn xs) (marksIn M (sessionNew M vad p) xs)
      (through M (sessionNew M vad p) xs) := by
  induction xs using List.reverseRecOn with
  | nil => exact stands_sessionNew vad p
  | append_singleton xs x ih =>
    rw [heardIn_append, marksIn_append, through_snoc]
    exact (ih fun y hy => hxs y (List.mem_append_left _ hy)).step
      (hxs x (List.mem_append_right _ (List.mem_singleton_self x)))

/-- The steps of a run whose thresholds stay as they are. -/
theorem fits_runSteps {ops : List (Op F)} (hfixed : ∀ q, .setParams q ∉ ops) {s : State F V} :
    ∀ x ∈ runSteps M s ops, Fits M x := by
  have hwindows : ∀ (n : ℕ) (pcm : List F), n * M.window ≤ pcm.length →
      ∀ x ∈ windowsIn M n pcm, ∃ w, x = .window w ∧ w.length = M.window := by
    intro n
    induction n with
    | zero => intro pcm _ x hx; simp [windowsIn] at hx
    | succ n ih =>
      intro pcm hn x hx
      rw [Nat.succ_mul] at hn
      rcases List.mem_cons.1 hx with rfl | hx
      · exact ⟨_, rfl, by rw [List.length_take]; omega⟩
      · exact ih _ (by rw [List.length_drop]; omega) x hx
  intro x hx
  refine ⟨?_, ?_⟩
  · rintro pcm rfl
    induction ops generalizing s with
    | nil => simp [runSteps] at hx
    | cons op ops ih =>
      rcases List.mem_append.1 hx with hx | hx
      · cases op with
        | push piece =>
          obtain ⟨w, hw, hlength⟩ := hwindows _ _ (Nat.div_mul_le_self _ _) _ hx
          cases hw
          exact hlength
        | _ => simp [stepsOf] at hx
      · exact ih (fun q hq => hfixed q (List.mem_cons_of_mem _ hq)) hx
  · rintro q rfl
    exact hfixed q (setParams_mem_runSteps M hx)

theorem steps_history (s : State F V) (xs : List (Step F)) :
    (history M s xs).map (·.1) = xs := by
  induction xs generalizing s with
  | nil => rfl
  | cons x xs ih => exact congrArg (x :: ·) (ih _)

/-- A turn opens, and is committed, in a window. -/
theorem window_of_report {s : State F V} {x : Step F} {r : Report F} (hr : r ∈ (oneStep M s x).2)
    (hevent : r.event ≠ .turnFinal) : ∃ pcm, x = .window pcm := by
  cases x with
  | window pcm => exact ⟨pcm, rfl⟩
  | setSpeaking speaking => simp [oneStep] at hr
  | setParams q => simp [oneStep] at hr
  | release turnId revision =>
    exact absurd ((release_fields (M := M) s turnId revision).2.2.2.2.2 r hr) hevent

/-- **Where the audio of a turn begins and ends.**  In every run whose thresholds stay as they are,
`heard` the samples of the windows up to a moment and `marks` their marks: when a turn opens, its
audio is the end of what was heard, from the pad before the run of speech that opened it on, or all
of it; when one is committed, what is handed over is what was heard from where its audio begins to
between the end of the last window of speech and the pad behind it. -/
theorem lookback_run (M : Models F V) (vad : V) (p : Params F) (ops : List (Op F))
    (hfixed : ∀ q, .setParams q ∉ ops) (before : List (Moment F)) (m : Moment F)
    (after : List (Moment F))
    (hsplit : history M (sessionNew M vad p) (runSteps M (sessionNew M vad p) ops)
      = before ++ m :: after) (r : Report F) (hr : r ∈ m.2) :
    let steps := (before ++ [m]).map (·.1)
    let s := through M (sessionNew M vad p) steps
    let heard := heardIn steps
    let marks := marksIn M (sessionNew M vad p) steps
    let pad := (Counts.of M p).padWindows
    (r.Opens → s.turnPcm <:+ heard ∧ 0 < runOf marks ∧
      (s.turnPcm = heard ∨ (runOf marks + pad) * M.window ≤ s.turnPcm.length)) ∧
    (r.event = .turnCommitted →
      r.nHeld ≤ heard.length ∧ r.pcm <+: heard.drop (heard.length - r.nHeld) ∧
      heard.length - r.nHeld < spokenUntil marks * M.window ∧
      spokenUntil marks * M.window ≤ heard.length - r.nHeld + r.pcm.length ∧
      heard.length - r.nHeld + r.pcm.length ≤ (spokenUntil marks + pad) * M.window) := by
  obtain ⟨xs, zs, hxs, rfl, hm, -⟩ := history_split M hsplit
  obtain ⟨x, rs⟩ := m
  dsimp only at hm hxs hr
  subst hm
  have hfits := fits_runSteps (M := M) hfixed (s := sessionNew M vad p)
  rw [hxs] at hfits
  have hbefore := stands_through (M := M) (p := p) vad xs fun y hy => hfits y (List.mem_append_left _ hy)
  have hnow := stands_through (M := M) (p := p) vad (xs ++ [x]) fun y hy => hfits y (by
    rcases List.mem_append.1 hy with hy | hy
    · exact List.mem_append_left _ hy
    · exact List.mem_append_right _ (List.mem_singleton.1 hy ▸ List.mem_cons_self))
  have hsteps : (history M (sessionNew M vad p) xs ++
      [(x, (oneStep M (through M (sessionNew M vad p) xs) x).2)]).map (·.1) = xs ++ [x] := by
    rw [List.map_append, steps_history]
    rfl
  have hlast : ∀ pcm, x = .window pcm → Outcome M p (heardIn (xs ++ [x]))
      (marksIn M (sessionNew M vad p) xs)
      (oneStep M (through M (sessionNew M vad p) xs) x).1.inSpeech
      (oneStep M (through M (sessionNew M vad p) xs) x) := by
    rintro pcm rfl
    have hlength := (hfits _ (List.mem_append_right _ List.mem_cons_self)).1 pcm rfl
    have hheard : heardIn (xs ++ [Step.window pcm]) = heardIn xs ++ pcm := by
      simp [heardIn]
    rw [hheard]
    exact outcome_sessionWindow hbefore.placed hbefore.short hbefore.coherent hlength
  obtain ⟨reports, htracks⟩ := hnow.tracks
  rw [hsteps]
  dsimp only
  refine ⟨fun hopens => ?_, fun hcommit => ?_⟩
  · obtain ⟨pcm, rfl⟩ := window_of_report hr (by simp [hopens.1])
    rw [through_snoc] at htracks ⊢
    rw [marksIn_append]
    exact (hlast pcm rfl).opening htracks hr hopens
  · obtain ⟨pcm, rfl⟩ := window_of_report hr (by simp [hcommit])
    rw [through_snoc] at htracks
    rw [marksIn_append]
    exact (hlast pcm rfl).handed htracks hr hcommit

/-- The turn left unfinished, as it is committed. -/
theorem lookback_tally : ∃ before m after r, tallyHistory = before ++ m :: after ∧ r ∈ m.2 ∧
    r.event = .turnCommitted ∧
    r.nHeld ≤ (heardIn ((before ++ [m]).map (·.1))).length ∧
    r.pcm <+: (heardIn ((before ++ [m]).map (·.1))).drop
      ((heardIn ((before ++ [m]).map (·.1))).length - r.nHeld) := by
  have hany : tallyHistory.any (fun m => commitsIn m.2) = true := by decide +kernel
  obtain ⟨m, hm, hcommits⟩ := List.any_eq_true.1 hany
  obtain ⟨r, hr, hcommit⟩ := List.any_eq_true.1 hcommits
  obtain ⟨before, after, hsplit⟩ := List.append_of_mem hm
  obtain ⟨hheld, hpcm, -⟩ := (lookback_run tallyModels () tallyParams tallyOps (by simp [tallyOps])
    before m after hsplit r hr).2 (of_decide_eq_true hcommit)
  exact ⟨before, m, after, r, hsplit, hr, of_decide_eq_true hcommit, hheld, hpcm⟩

end Session
end S2S
