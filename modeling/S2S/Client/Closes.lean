/-
# How an answer closes

The law of `closeAnswer` of `src/tools/webui/src/lib/s2s.ts`, over every
sequence of server events, in protocol order or not, of played reports of any
generation, of calls of the host and of connections that open and end
(`answers_close`).  Starts and ends take turns; whatever closes the answer in
flight files what the events since its `response.created` tell was heard of it
(`answerOf`); after that the events that still come for it change nothing
(`closed_untouched`).
-/

import S2S.Client.Ledger

namespace S2S
namespace Client

open Json Agent

variable {F : Type}

/-! ### What holds of every ledger -/

/-- Starts and ends take turns, a start first. -/
def Alternating (ms : List Mark) : Prop := (∀ m ∈ ms.head?, m = .start) ∧ ms.IsChain (· ≠ ·)

theorem alternating_snoc {ms : List Mark} (h : Alternating ms) {m : Mark}
    (hturn : ms.getLast? = some .start ↔ m = .close) : Alternating (ms ++ [m]) := by
  obtain ⟨hhead, hchain⟩ := h
  constructor
  · intro first hfirst
    rcases ms with - | ⟨first', ms⟩
    · obtain rfl : m = first := by simpa using hfirst
      cases m with
      | start => rfl
      | close => simp at hturn
    · exact hhead first hfirst
  · refine List.isChain_append.2 ⟨hchain, by simp, fun last hlast next hnext => ?_⟩
    obtain rfl : m = next := by simpa using hnext
    rw [Option.mem_def.1 hlast] at hturn
    rintro rfl
    cases last <;> simp at hturn

/-- The host heard of starts and ends in turn, the last one tells whether an answer is in flight,
and a closed answer keeps no unit. -/
structure Ledger.Fine (l : Ledger) : Prop where
  turns : Alternating l.marks
  last : l.marks.getLast? = some .start ↔ l.answering = true
  idle : l.answering = false → l.answer.units = []

section Moves

variable {l l' : Ledger} {e : Event F}

theorem Ledger.Fine.close (h : l.Fine) : l.close.Fine := by
  unfold Ledger.close
  split_ifs with hanswering
  · exact ⟨alternating_snoc h.turns (by simp [h.last, hanswering]), by simp, fun _ => rfl⟩
  · exact h

theorem Ledger.close_answering : l.close.answering = false := by
  unfold Ledger.close
  split_ifs with h
  · rfl
  · exact Bool.eq_false_iff.2 h

/-- **What holds of a ledger holds after every move.** -/
theorem Ledger.Fine.moves (h : l.Fine) (hmoves : l.Moves e l') : l'.Fine := by
  cases hmoves with
  | hears _ hanswering => exact ⟨h.turns, h.last, fun hidle => by simp [hear, hanswering] at hidle⟩
  | late played _ hidle _ => exact ⟨h.turns, h.last, h.idle⟩
  | closes _ hanswering =>
    refine Ledger.Fine.close ⟨h.turns, h.last, fun hidle => ?_⟩
    exact absurd hanswering (by simpa [hear] using hidle)
  | opens =>
    refine ⟨alternating_snoc h.close.turns ?_, by simp [open'], fun hidle => by simp [open'] at hidle⟩
    simp [h.close.last, Ledger.close_answering]
  | clears =>
    unfold Ledger.clear
    dsimp only
    split_ifs with hanswering
    · exact ⟨alternating_snoc h.turns (by simp [h.last, hanswering]), by simp, fun _ => rfl⟩
    · exact ⟨h.turns, h.last, h.idle⟩
  | sets messages => exact ⟨h.turns, h.last, h.idle⟩
  | tells text item lines hlines => exact ⟨h.turns, h.last, h.idle⟩

theorem Event.Neutral.opens (h : e.Neutral) : e.opens = false := by
  unfold Event.opens
  split
  · exact h.elim
  · rfl

theorem Ledger.close_marks :
    l.close.marks = l.marks ++ if l.answering then [.close] else [] := by
  unfold Ledger.close
  split_ifs
  · rfl
  · simp

theorem Ledger.Moves.marks (h : l.Moves e l') :
    l'.marks = l.marks ++ (if l.answering && (e.opens || !l'.answering) then [.close] else []) ++
      if e.opens then [.start] else [] := by
  cases h with
  | hears hneutral hanswering => simp [hear, hneutral.opens, hanswering]
  | late played hneutral hidle _ => simp [hneutral.opens, hidle]
  | closes hneutral hanswering =>
    simp [hneutral.opens, Ledger.close_marks, Ledger.close_answering, hear, hanswering]
  | opens => simp [open', Ledger.close_marks, Event.opens]
  | clears => cases hanswering : l.answering <;> simp [clear, Event.opens, hanswering]
  | sets messages => simp [Event.opens]
  | tells text item lines hlines => simp [Event.opens]

/-- **A close files what was heard of the answer**, unless the conversation is forgotten. -/
theorem Ledger.Moves.files (h : l.Moves e l')
    (hclose : (l.answering && (e.opens || !l'.answering)) = true) :
    (e ≠ .clearHistory → l'.lines = l.lines ++ (l.hear e).answer.files) ∧
      (e = .clearHistory → l'.lines = []) := by
  cases h with
  | hears hneutral hanswering => simp [hear, hneutral.opens, hanswering] at hclose
  | late played hneutral hidle _ => simp [hidle] at hclose
  | closes hneutral hanswering =>
    refine ⟨fun _ => ?_, fun hclear => by subst hclear; exact hneutral.elim⟩
    simp [Ledger.close, hear, hanswering]
  | opens =>
    refine ⟨fun _ => ?_, fun hclear => by simp at hclear⟩
    have hanswering : l.answering = true := by simpa [Event.opens] using hclose
    simp [open', Ledger.close, hanswering, hear, Answer.after]
  | clears => exact ⟨fun hclear => absurd rfl hclear, fun _ => rfl⟩
  | sets messages => simp [Event.opens] at hclose
  | tells text item lines hlines => simp [Event.opens] at hclose

/-- What does not close the answer in flight adds to it what the event tells. -/
theorem Ledger.Moves.stays (h : l.Moves e l') (hanswering : l.answering = true)
    (hquiet : (l.answering && (e.opens || !l'.answering)) = false) :
    l'.answering = true ∧ l'.generation = l.generation ∧
      l'.answer = l.answer.after l.generation e := by
  cases h with
  | hears hneutral _ => exact ⟨hanswering, rfl, rfl⟩
  | late played hneutral hidle _ => simp [hanswering] at hidle
  | closes hneutral _ => simp [hanswering, Ledger.close_answering] at hquiet
  | opens => simp [hanswering, Event.opens] at hquiet
  | clears => simp [hanswering, clear] at hquiet
  | sets messages => exact ⟨hanswering, rfl, rfl⟩
  | tells text item lines hlines => exact ⟨hanswering, rfl, rfl⟩

/-- Only a close files a line of the assistant. -/
theorem Ledger.Moves.assistant (h : l.Moves e l')
    (hquiet : (l.answering && (e.opens || !l'.answering)) = false) (hclear : e ≠ .clearHistory)
    (hset : ∀ messages, e ≠ .setHistory messages) :
    l'.lines.filter (·.1 = .assistant) = l.lines.filter (·.1 = .assistant) := by
  cases h with
  | hears _ _ => rfl
  | late played _ _ _ => rfl
  | closes hneutral hanswering => simp [hanswering, Ledger.close_answering] at hquiet
  | opens =>
    have hidle : l.answering = false := by simpa [Event.opens] using hquiet
    simp [open', Ledger.close, hidle]
  | clears => exact absurd rfl hclear
  | sets messages => exact absurd rfl (hset messages)
  | tells text item lines hlines => exact hlines

/-- No answer opens but by its `response.created`. -/
theorem Ledger.Moves.answering (h : l.Moves e l') (hidle : l.answering = false)
    (hopens : e.opens = false) : l'.answering = false := by
  cases h with
  | opens => simp [Event.opens] at hopens
  | clears => simp [clear, hidle]
  | closes hneutral hanswering => exact Ledger.close_answering
  | hears hneutral hanswering => simp [hidle] at hanswering
  | _ => exact hidle

end Moves

/-- An event of an answer: a text, a call, a unit, audio or an end the server sends for it, or a
report of what was played. -/
def Event.OfAnswer : Event F → Prop
  | .server (.textDelta _) => True
  | .server (.toolStarted _) => True
  | .server (.toolDone _ _ _ _) => True
  | .server (.spoken _ _) => True
  | .server (.audio _) => True
  | .server .cancelled => True
  | .server .done => True
  | .report _ _ => True
  | _ => False

/-- An output the list and the host's account of an answer do not rest on: the playback falls
silent, the state changes. -/
def Output.Slight : Output F → Prop
  | .post .flush => True
  | .state _ => True
  | _ => False

/-- What the events since its `response.created` make an answer. -/
def answerOf (generation : ℕ) (events : List (Event F)) : Answer :=
  events.foldl (Answer.after generation) {}

namespace Talk

/-- **Every run keeps a fine ledger.** -/
theorem run_fine (options : S2SOptions) (events : List (Event F)) :
    (run options events).ledger.Fine := by
  induction events using List.reverseRecOn with
  | nil => exact ⟨⟨by simp [ledger, marks], by simp [ledger, marks]⟩, by simp [ledger, marks], fun _ => rfl⟩
  | append_singleton events e ih =>
    rw [run_snoc]
    exact ih.moves (step_moves _ e)

/-! ### What a close files -/

/-- An event that closes the answer in flight; with the next one that opens, it is over too. -/
def closes (t : Talk F) (e : Event F) : Bool := t.answering && (e.opens || !(t.step e).answering)

/-- None of these events closes the answer in flight. -/
def Quiet (t : Talk F) (events : List (Event F)) : Prop :=
  ∀ mid e rest, events = mid ++ e :: rest → (mid.foldl step t).closes e = false

/-- **The host hears of each close once**, and of each opening. -/
theorem step_marks (t : Talk F) (e : Event F) :
    (t.step e).marks = t.marks ++ (if t.closes e then [.close] else []) ++
      if e.opens then [.start] else [] :=
  (t.step_moves e).marks

/-- **While nothing closes it, the answer in flight is what its events make it.** -/
theorem quiet_tracks {t : Talk F} (h : t.answering = true) {during : List (Event F)}
    (hquiet : t.Quiet during) :
    (during.foldl step t).answering = true ∧ (during.foldl step t).generation = t.generation ∧
      (during.foldl step t).ledger.answer =
        during.foldl (Answer.after t.generation) t.ledger.answer := by
  induction during using List.reverseRecOn with
  | nil => exact ⟨h, rfl, rfl⟩
  | append_singleton during e ih =>
    obtain ⟨hanswering, hgeneration, hanswer⟩ := ih fun mid e' rest hsplit =>
      hquiet mid e' (rest ++ [e]) (by simp [hsplit])
    rw [List.foldl_append, List.foldl_append]
    obtain ⟨hanswering', hgeneration', hanswer'⟩ :=
      ((during.foldl step t).step_moves e).stays hanswering (hquiet during e [] rfl)
    refine ⟨hanswering', hgeneration'.trans hgeneration, hanswer'.trans ?_⟩
    rw [hanswer]
    show Answer.after (during.foldl step t).generation _ e = _
    rw [hgeneration]
    rfl

/-- An answer opens with no unit, and no sample queued or played. -/
theorem created_answer (options : S2SOptions) (before : List (Event F)) :
    (run options (before ++ [.server .created])).ledger.answer = {} ∧
      (run options (before ++ [.server .created])).answering = true := by
  have hfine := run_fine options before
  have hledger : (run options (before ++ [.server .created])).ledger =
      (run options before).ledger.close.open' := by
    rw [run_snoc]
    have hmoves := (run options before).step_moves (.server .created)
    generalize ((run options before).step (.server .created)).ledger = l' at hmoves
    cases hmoves with
    | opens => rfl
    | hears hneutral _ => exact hneutral.elim
    | late _ hneutral _ _ => exact hneutral.elim
    | closes hneutral _ => exact hneutral.elim
  have hunits := hfine.close.idle Ledger.close_answering
  constructor
  · rw [hledger, Ledger.open', hunits]
  · exact congrArg Ledger.answering hledger

/-- An answer in flight was opened by a `response.created` that nothing closed since. -/
theorem exists_created {options : S2SOptions} {events : List (Event F)}
    (h : (run options events).answering = true) :
    ∃ before during, events = before ++ .server .created :: during ∧
      (run options (before ++ [.server .created])).Quiet during := by
  induction events using List.reverseRecOn with
  | nil => simp [run] at h
  | append_singleton events e ih =>
    rw [run_snoc] at h
    cases hopens : e.opens with
    | true =>
      obtain rfl : e = .server .created := by
        unfold Event.opens at hopens
        split at hopens
        · rfl
        · simp at hopens
      exact ⟨events, [], rfl, fun mid e' rest hsplit => by simp at hsplit⟩
    | false =>
      have hanswering : (run options events).answering = true := by
        by_contra hidle
        have := ((run options events).step_moves e).answering (Bool.eq_false_iff.2 hidle) hopens
        exact absurd h (Bool.eq_false_iff.1 this)
      obtain ⟨before, during, rfl, hquiet⟩ := ih hanswering
      refine ⟨before, during ++ [e], by simp, fun mid e' rest hsplit => ?_⟩
      rcases List.eq_nil_or_concat' rest with rfl | ⟨rest, last, rfl⟩
      · obtain ⟨rfl, hlast⟩ := List.append_inj' hsplit rfl
        obtain rfl : e = e' := by simpa using hlast
        have hrun : run options (before ++ .server .created :: during) =
            during.foldl step (run options (before ++ [.server .created])) := by
          rw [← run_append]
          simp
        rw [hrun] at h
        simp [closes, hopens, h]
      · rw [← List.cons_append, ← List.append_assoc] at hsplit
        exact hquiet mid e' rest (List.append_inj' hsplit rfl).1

/-- **A close files what its answer's events tell was heard of it.** -/
theorem close_files {options : S2SOptions} {events : List (Event F)} {e : Event F}
    (hclose : (run options events).closes e = true) :
    ∃ before during, events = before ++ .server .created :: during ∧
      (run options (before ++ [.server .created])).Quiet during ∧
      (e ≠ .clearHistory → ((run options events).step e).lines = (run options events).lines ++
        (answerOf (run options events).generation (during ++ [e])).files) ∧
      (e = .clearHistory → ((run options events).step e).lines = []) := by
  have hanswering : (run options events).answering = true := by
    simp only [closes, Bool.and_eq_true] at hclose
    exact hclose.1
  obtain ⟨before, during, rfl, hquiet⟩ := exists_created hanswering
  refine ⟨before, during, rfl, hquiet, ?_⟩
  obtain ⟨hempty, hopened⟩ := created_answer options before
  obtain ⟨-, hgeneration, hanswer⟩ := quiet_tracks hopened hquiet
  have hrun : run options (before ++ .server .created :: during) =
      during.foldl step (run options (before ++ [.server .created])) := by
    rw [← run_append]
    simp
  obtain ⟨hfiles, hclear⟩ :=
    ((run options (before ++ .server .created :: during)).step_moves e).files hclose
  refine ⟨fun he => (hfiles he).trans ?_, hclear⟩
  rw [answerOf, List.foldl_append, hrun, hgeneration, ← hempty, ← hanswer, ← hgeneration]
  rfl

/-! ### After a close -/

/-- Two clients that agree on the conversation, one with slight outputs more. -/
structure Untouched (t t' : Talk F) : Prop where
  answering : t'.answering = t.answering
  generation : t'.generation = t.generation
  units : t'.units = t.units
  queued : t'.queuedSamples = t.queuedSamples
  history : t'.history = t.history
  out : ∃ more, t'.out = t.out ++ more ∧ ∀ o ∈ more, o.Slight

theorem Untouched.refl (t : Talk F) : t.Untouched t :=
  ⟨rfl, rfl, rfl, rfl, rfl, [], by simp, by simp⟩

theorem Untouched.setState {t t' : Talk F} (h : t.Untouched t') (s : State) :
    t.Untouched (t'.setState s) := by
  unfold Talk.setState
  split_ifs
  · obtain ⟨more, hout, hslight⟩ := h.out
    refine ⟨h.answering, h.generation, h.units, h.queued, h.history, more ++ [.state s], ?_, ?_⟩
    · simp [emit, hout]
    · simpa [or_imp, forall_and, Output.Slight] using hslight
  · exact h

theorem Untouched.flushPlayback {t t' : Talk F} (h : t.Untouched t') :
    t.Untouched t'.flushPlayback := by
  unfold Talk.flushPlayback post
  split_ifs
  · obtain ⟨more, hout, hslight⟩ := h.out
    refine ⟨h.answering, h.generation, h.units, h.queued, h.history, more ++ [.post .flush], ?_, ?_⟩
    · simp [emit, hout]
    · simpa [or_imp, forall_and, Output.Slight] using hslight
  · exact h

theorem Untouched.closeAnswer {t t' : Talk F} (h : t.Untouched t') (hidle : t.answering = false) :
    t.Untouched t'.closeAnswer := by
  rw [closeAnswer_idle t' (h.answering.trans hidle)]
  exact h

/-- **A closed answer takes nothing more.** -/
theorem closed_untouched {t : Talk F} (hidle : t.answering = false) {e : Event F}
    (he : e.OfAnswer) : t.Untouched (t.step e) := by
  cases e with
  | server e =>
    cases e with
    | textDelta delta => simpa [step, onServerEvent, hidle] using Untouched.refl t
    | toolStarted name => simpa [step, onServerEvent, hidle] using Untouched.refl t
    | toolDone name ok ms bytes => simpa [step, onServerEvent, hidle] using Untouched.refl t
    | spoken delta textEnd => simpa [step, onServerEvent, hidle] using Untouched.refl t
    | audio pcm => cases pcm <;> simpa [step, onServerEvent, hidle] using Untouched.refl t
    | cancelled => exact ((Untouched.refl t).flushPlayback.closeAnswer hidle).setState _
    | done =>
      have hdone : t.Untouched { t with answerDone := true } :=
        ⟨rfl, rfl, rfl, rfl, rfl, [], by simp, by simp⟩
      show t.Untouched (ite _ _ _)
      split_ifs
      · exact (hdone.closeAnswer hidle).setState _
      · exact hdone
    | _ => exact he.elim
  | report generation played =>
    have hplayed : t.Untouched { t with playedSamples := played } :=
      ⟨rfl, rfl, rfl, rfl, rfl, [], by simp, by simp⟩
    show t.Untouched (t.onReport generation played)
    unfold onReport
    split_ifs
    · exact .refl t
    · dsimp only
      split_ifs
      · exact (hplayed.closeAnswer hidle).setState _
      · exact hplayed
  | _ => exact he.elim

@[simp] theorem setState_playedSamples (t : Talk F) (s : State) :
    (t.setState s).playedSamples = t.playedSamples := by
  unfold setState
  split_ifs <;> rfl

@[simp] theorem flushPlayback_playedSamples (t : Talk F) :
    t.flushPlayback.playedSamples = t.playedSamples := by
  unfold flushPlayback post
  split_ifs <;> rfl

/-- Only the worklet counts what was played. -/
theorem closed_played {t : Talk F} (hidle : t.answering = false) {e : ServerEvent F}
    (he : Event.OfAnswer (.server e)) : (t.onServerEvent e).playedSamples = t.playedSamples := by
  cases e with
  | cancelled =>
    rw [onServerEvent, setState_playedSamples, closeAnswer_playedSamples, flushPlayback_playedSamples]
  | done =>
    rw [onServerEvent]
    dsimp only
    split_ifs <;> simp
  | audio pcm => cases pcm <;> simp [onServerEvent, hidle]
  | textDelta delta => simp [onServerEvent, hidle]
  | toolStarted name => simp [onServerEvent, hidle]
  | toolDone name ok ms bytes => simp [onServerEvent, hidle]
  | spoken delta textEnd => simp [onServerEvent, hidle]
  | _ => exact he.elim

/-- **How an answer closes.**  In every run the host hears of starts and ends in turn, a start
first, of each close once; a close files the units of the answer whose audio started playing,
trimmed and joined by spaces, and nothing when that is empty or the conversation is forgotten; no
other event files a line of the assistant; and what still comes for a closed answer leaves the
units, the counters and the list alone, a report apart, which counts what the worklet played, and
tells the host no more of it. -/
theorem answers_close (options : S2SOptions) (events : List (Event F)) :
    Alternating (run options events).marks ∧
    (∀ e, ((run options events).step e).marks = (run options events).marks ++
      (if (run options events).closes e then [.close] else []) ++ if e.opens then [.start] else []) ∧
    (∀ e, (run options events).closes e = true →
      ∃ before during, events = before ++ .server .created :: during ∧
        (run options (before ++ [.server .created])).Quiet during ∧
        (e ≠ .clearHistory → ((run options events).step e).lines = (run options events).lines ++
          (answerOf (run options events).generation (during ++ [e])).files) ∧
        (e = .clearHistory → ((run options events).step e).lines = [])) ∧
    (∀ e, (run options events).closes e = false → e ≠ .clearHistory →
      (∀ messages, e ≠ .setHistory messages) →
      ((run options events).step e).lines.filter (·.1 = .assistant) =
        (run options events).lines.filter (·.1 = .assistant)) ∧
    (∀ e, (run options events).answering = false → e.OfAnswer →
      (run options events).Untouched ((run options events).step e)) ∧
    ∀ e, (run options events).answering = false → Event.OfAnswer (.server e) →
      ((run options events).onServerEvent e).playedSamples = (run options events).playedSamples := by
  refine ⟨(run_fine options events).turns, fun e => step_marks _ e, fun e => close_files, ?_, ?_, ?_⟩
  · intro e hquiet hclear hset
    exact ((run options events).step_moves e).assistant hquiet hclear hset
  · intro e hidle he
    exact closed_untouched hidle he
  · intro e hidle he
    exact closed_played hidle he

end Talk

end Client
end S2S
