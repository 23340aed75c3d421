/-
# A committed turn, from outside

What a caller that took a commit may rely on while the session goes on: the turn
stays handed over (`Behind`), once released it is not owed any more
(`Released`), and nothing but a commit makes it owed (`owed_reports`).

A released turn then needs nothing but time: after exactly the windows of grace
it has left, if nobody speaks in them, it is final (`grace_runs_out`).
-/

import S2S.Session.Grammar

namespace S2S
namespace Session

variable {F V : Type}

/-! ### A turn that was handed over -/

/-- The latest turn and its revision. -/
def Turn.pair (t : Turn) : ℕ × ℕ := (t.turnId, t.revision)

/-- The turn and the revision of a report. -/
def Report.pair (r : Report F) : ℕ × ℕ := (r.turnId, r.revision)

/-- `p` has been handed over: the latest turn is later, or it is `p`, not open again. -/
def Behind (p : ℕ × ℕ) (t : Turn) : Prop := Earlier p t.pair ∨ p = t.pair ∧ Handed t

/-- `p` has been handed over and released. -/
def Released (p : ℕ × ℕ) (t : Turn) : Prop :=
  Behind p t ∧ (p = t.pair → t.stage ≠ .committed false)

theorem pair_report {t t' : Turn} {r : Report F} (h : t.report r = some t') : t'.pair = r.pair := by
  obtain ⟨-, hid, hrev⟩ := report_some h
  exact Prod.ext hid hrev

theorem handed_call {t t' : Turn} {op : Op F} (h : t.call op = some t') : Handed t' ↔ Handed t := by
  obtain ⟨-, -, -, -, hstage⟩ := call_some h
  unfold Handed Turn.Over
  rcases hstage with hs | ⟨hs, hs', -⟩
  · rw [hs]
  · simp [hs, hs']

theorem pair_call {t t' : Turn} {op : Op F} (h : t.call op = some t') : t'.pair = t.pair := by
  obtain ⟨-, -, hid, hrev, -⟩ := call_some h
  exact Prod.ext hid hrev

theorem Behind.call {p : ℕ × ℕ} {t t' : Turn} {op : Op F} (hp : Behind p t)
    (h : t.call op = some t') : Behind p t' := by
  unfold Behind
  rw [pair_call h, handed_call h]
  exact hp

theorem Released.call {p : ℕ × ℕ} {t t' : Turn} {op : Op F} (hp : Released p t)
    (h : t.call op = some t') : Released p t' := by
  refine ⟨hp.1.call h, fun heq hs => ?_⟩
  obtain ⟨-, -, -, -, hstage⟩ := call_some h
  rcases hstage with hs' | ⟨-, hs', -⟩
  · exact hp.2 (heq.trans (pair_call h)) (hs'.symm.trans hs)
  · simp [hs] at hs'

/-- A report leaves the turn as it is, and handed over if it was; or it is later. -/
theorem report_later {t t' : Turn} {r : Report F} (h : t.report r = some t') :
    t'.pair = t.pair ∧ (Handed t → Handed t' ∧ t'.stage ≠ .committed false) ∨
      Earlier t.pair t'.pair := by
  obtain ⟨hmoves, -, -⟩ := report_some h
  cases hmoves with
  | opens idle event after => exact .inr (.inl (by simp [after, Turn.pair]))
  | restarts pending event after => exact .inr (.inr (by simp [after, Turn.pair]))
  | resumes committed event after => exact .inr (.inr (by simp [after, Turn.pair]))
  | finals released event after =>
    exact .inl ⟨by rw [after]; rfl, fun _ => by simp [after, Handed, Turn.Over]⟩
  | barges idle floor event after =>
    exact .inl ⟨by rw [after]; rfl, fun _ => by simp [after, Handed, Turn.Over]⟩
  | stops speaking event after =>
    exact .inl ⟨by rw [after]; rfl, by simp [Handed, Turn.Over, speaking]⟩
  | reopens boundary event after =>
    exact .inl ⟨by rw [after]; rfl, by simp [Handed, Turn.Over, boundary]⟩
  | commits boundary event after =>
    exact .inl ⟨by rw [after]; rfl, by rcases boundary with h | h <;> simp [Handed, Turn.Over, h]⟩

theorem Earlier.trans {p q r : ℕ × ℕ} (h : Earlier p q) (h' : Earlier q r) : Earlier p r := by
  unfold Earlier at *
  omega

theorem Behind.report {p : ℕ × ℕ} {t t' : Turn} {r : Report F} (hp : Behind p t)
    (h : t.report r = some t') : Behind p t' := by
  rcases report_later h with ⟨hpair, hhanded⟩ | hlater
  · unfold Behind
    rw [hpair]
    exact hp.imp_right fun h => ⟨h.1, (hhanded h.2).1⟩
  · exact .inl (hp.elim (·.trans hlater) fun h => h.1 ▸ hlater)

theorem Released.report {p : ℕ × ℕ} {t t' : Turn} {r : Report F} (hp : Released p t)
    (h : t.report r = some t') : Released p t' := by
  refine ⟨hp.1.report h, fun heq => ?_⟩
  rcases report_later h with ⟨hpair, hhanded⟩ | hlater
  · rcases hp.1 with hearlier | ⟨-, hh⟩
    · rw [heq, hpair] at hearlier
      unfold Earlier at hearlier
      omega
    · exact (hhanded hh).2
  · exfalso
    have hbefore : Earlier p t'.pair := hp.1.elim (·.trans hlater) fun h => h.1 ▸ hlater
    rw [heq] at hbefore
    unfold Earlier at hbefore
    omega

/-- What some reports keep if each keeps it. -/
theorem reports_induct {Q : Turn → Prop}
    (hstep : ∀ {t t' : Turn} {r : Report F}, Q t → t.report r = some t' → Q t')
    {rs : List (Report F)} {t t' : Turn} (hQ : Q t) (h : t.reports rs = some t') : Q t' := by
  induction rs generalizing t with
  | nil => exact Option.some.inj h ▸ hQ
  | cons r rs ih =>
    rw [Turn.reports_cons] at h
    obtain ⟨t₁, h₁, hrest⟩ := Option.bind_eq_some_iff.1 h
    exact ih (hstep hQ h₁) hrest

theorem Behind.reports {p : ℕ × ℕ} {rs : List (Report F)} {t t' : Turn} (hp : Behind p t)
    (h : t.reports rs = some t') : Behind p t' :=
  reports_induct (fun hQ hr => hQ.report hr) hp h

theorem Released.reports {p : ℕ × ℕ} {rs : List (Report F)} {t t' : Turn} (hp : Released p t)
    (h : t.reports rs = some t') : Released p t' :=
  reports_induct (fun hQ hr => hQ.report hr) hp h

/-- **Only a commit makes a turn owed.** -/
theorem owed_reports {rs : List (Report F)} {t t' : Turn} (h : t.reports rs = some t')
    (hstage : t'.stage = .committed false) :
    rs = [] ∨ ∃ c ∈ rs, c.event = .turnCommitted ∧ c.pair = t'.pair := by
  induction rs generalizing t with
  | nil => exact .inl rfl
  | cons r rs ih =>
    rw [Turn.reports_cons] at h
    obtain ⟨t₁, h₁, hrest⟩ := Option.bind_eq_some_iff.1 h
    right
    rcases ih hrest with rfl | ⟨c, hc, hcommit⟩
    · obtain rfl := Option.some.inj hrest
      obtain ⟨hmoves, -, -⟩ := report_some h₁
      refine ⟨r, List.mem_cons_self, ?_, (pair_report h₁).symm⟩
      cases hmoves with
      | commits boundary event after => exact event
      | _ => simp_all
    · exact ⟨c, List.mem_cons_of_mem _ hc, hcommit⟩

/-! ### Its grace -/

section Windows

variable (M : Models F V)

/-- Nobody speaks in the `n` windows at the front of `pcm`. -/
def Quiet : ℕ → State F V → List F → Prop
  | 0, _, _ => True
  | n + 1, s, pcm => (hear M (tickGrace M s).1 (pcm.take M.window)).inSpeech = false ∧
      Quiet n (sessionWindow M s (pcm.take M.window)).1 (pcm.drop M.window)

/-- A window without speech changes nothing in `IDLE`. -/
theorem advance_hear_quiet {s : State F V} (hphase : s.phase = .idle) {window : List F}
    (hquiet : (hear M s window).inSpeech = false) :
    advance M (hear M s window) = (hear M s window, []) := by
  have hrun : (hear M s window).speechRun = 0 := by
    change (if (hear M s window).inSpeech then s.speechRun + 1 else 0) = 0
    rw [hquiet]
    rfl
  have hidle : (hear M s window).phase = .idle := hphase
  have hopen := s.counts.open_pos
  have hbarge := s.counts.barge_pos
  have hreopen := s.counts.reopen_pos
  have hcounts : (hear M s window).counts = s.counts := rfl
  unfold advance
  rw [hidle]
  dsimp only
  unfold advanceIdle
  rw [hrun, hcounts, if_neg (by omega), if_neg (by split_ifs <;> omega)]

/-- A released turn and one window without speech. -/
theorem sessionWindow_quiet {s : State F V} (hs : s.Coherent) (hcommitted : s.committed = true)
    (hreleased : s.released = true) {window : List F}
    (hquiet : (hear M (tickGrace M s).1 window).inSpeech = false) :
    (s.graceLeft = 1 ∧ ∃ r, (sessionWindow M s window).2 = [r] ∧ r.event = .turnFinal ∧
        r.pair = s.turn.pair) ∨
      (1 < s.graceLeft ∧ (sessionWindow M s window).2 = [] ∧
        (sessionWindow M s window).1.committed = true ∧
        (sessionWindow M s window).1.released = true ∧
        (sessionWindow M s window).1.turn.pair = s.turn.pair ∧
        (sessionWindow M s window).1.graceLeft + 1 = s.graceLeft) := by
  have hgrace := hs.grace_of_released hcommitted hreleased
  have hidle := hs.idle_of_committed hcommitted
  by_cases hlast : s.graceLeft - 1 = 0
  · left
    set final : State F V :=
      { s with graceLeft := s.graceLeft - 1, committed := false, turnPcm := [] }
    have htick : tickGrace M s = (final, [emit M final .turnFinal M.zero]) := by
      unfold tickGrace tryFinal
      rw [if_pos hgrace]
      dsimp only
      rw [if_pos hlast, if_pos ⟨hcommitted, hreleased, hlast⟩]
    refine ⟨by omega, emit M final .turnFinal M.zero, ?_, rfl, rfl⟩
    · unfold sessionWindow
      rw [htick] at hquiet ⊢
      dsimp only at hquiet ⊢
      rw [advance_hear_quiet M (by exact hidle) hquiet]
      rfl
  · right
    have htick : tickGrace M s = ({ s with graceLeft := s.graceLeft - 1 }, []) := by
      unfold tickGrace
      rw [if_pos hgrace]
      dsimp only
      rw [if_neg hlast]
    unfold sessionWindow
    rw [htick] at hquiet ⊢
    dsimp only at hquiet ⊢
    rw [advance_hear_quiet M (by exact hidle) hquiet]
    refine ⟨by omega, rfl, hcommitted, hreleased, rfl, ?_⟩
    change s.graceLeft - 1 + 1 = s.graceLeft
    omega

/-- **The grace of a released turn runs out.**  While nobody speaks, nothing is reported for as
many windows as it has left but one, and the one after them makes it final. -/
theorem grace_runs_out (n : ℕ) {s : State F V} (hs : s.Coherent) (hcommitted : s.committed = true)
    (hreleased : s.released = true) (pcm : List F) (hquiet : Quiet M n s pcm) :
    (n < s.graceLeft → (pushWindows M n s pcm).2 = []) ∧
      (n = s.graceLeft → ∃ r, (pushWindows M n s pcm).2 = [r] ∧ r.event = .turnFinal ∧
        r.pair = s.turn.pair) := by
  have hgrace := hs.grace_of_released hcommitted hreleased
  induction n generalizing s pcm with
  | zero => exact ⟨fun _ => rfl, fun h => by omega⟩
  | succ n ih =>
    obtain ⟨hfirst, hrest⟩ := hquiet
    rw [pushWindows]
    rcases sessionWindow_quiet M hs hcommitted hreleased hfirst with
      ⟨hone, r, hr, hevent, hpair⟩ | ⟨hmore, hnone, hcommitted', hreleased', hpair, hless⟩
    · refine ⟨fun h => by omega, fun h => ?_⟩
      obtain rfl : n = 0 := by omega
      exact ⟨r, by simp [hr, pushWindows], hevent, hpair⟩
    · have hs' := (keeps_sessionWindow M hs (pcm.take M.window)).2
      obtain ⟨hbefore, hlast⟩ := ih hs' hcommitted' hreleased' _ hrest
        (hs'.grace_of_released hcommitted' hreleased')
      dsimp only
      rw [hnone, List.nil_append, ← hpair]
      exact ⟨fun h => hbefore (by omega), fun h => hlast (by omega)⟩

end Windows

end Session
end S2S
