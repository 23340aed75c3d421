/-
# What a conversation comes to

A ledger is what the conversation of a client comes to (`Ledger`): the answer in
flight, its units each with the samples queued before it and the samples played
of it, the lines of the list, and the starts and ends the host heard of.  An
event moves it in one of seven ways (`Ledger.Moves`), and each step of the
client moves its ledger so (`step_moves`).  What the seven keep, every run
keeps.
-/

import S2S.Client.Talk

namespace S2S
namespace Client

open Json Agent

variable {F : Type}

/-! ### The ledger -/

/-- The two ends of an answer, as the host hears of them. -/
inductive Mark
  | start
  | close
  deriving DecidableEq, Repr

/-- An answer: its units, the samples queued for it and the samples played of it. -/
structure Answer where
  units : List SpokenUnit := []
  queued : ℕ := 0
  played : ℕ := 0
  deriving DecidableEq, Repr

/-- What was heard of an answer. -/
def Answer.heard (a : Answer) : Bytes :=
  trim ([0x20].intercalate ((a.units.filter fun u => u.start < a.played).map SpokenUnit.text))

/-- A line without its item. -/
abbrev Line := Speaker × Bytes

/-- A line of the list. -/
def S2SMessage.line (m : S2SMessage) : Line := (m.role, m.content)

/-- What an answer leaves in the list: what was heard of it, if anything was. -/
def Answer.files (a : Answer) : List Line := if a.heard = [] then [] else [(.assistant, a.heard)]

/-- What an event adds to an answer of a generation. -/
def Answer.after (generation : ℕ) (a : Answer) : Event F → Answer
  | .server (.spoken delta _) => { a with units := a.units ++ [⟨delta, a.queued⟩] }
  | .server (.audio (some pcm)) => { a with queued := a.queued + pcm.length }
  | .report g played => if g = generation then { a with played := played } else a
  | _ => a

/-- What the conversation comes to. -/
structure Ledger where
  answering : Bool
  generation : ℕ
  answer : Answer
  lines : List Line
  marks : List Mark

namespace Ledger

/-- The answer in flight takes an event. -/
def hear (l : Ledger) (e : Event F) : Ledger := { l with answer := l.answer.after l.generation e }

/-- The answer in flight closes. -/
def close (l : Ledger) : Ledger :=
  if l.answering then { l with
    answering := false
    answer := { l.answer with units := [] }
    lines := l.lines ++ l.answer.files
    marks := l.marks ++ [.close] }
  else l

/-- An answer opens. -/
def open' (l : Ledger) : Ledger := { l with
  answering := true
  generation := l.generation + 1
  answer := { units := l.answer.units }
  marks := l.marks ++ [.start] }

/-- The conversation is forgotten, the answer in flight with it. -/
def clear (l : Ledger) : Ledger :=
  let l := if l.answering then { l with
      answering := false
      answer := { l.answer with units := [] }
      marks := l.marks ++ [.close] }
    else l
  { l with lines := [] }

end Ledger

/-- An event that opens no answer and names no line. -/
def Event.Neutral : Event F → Prop
  | .server .created => False
  | .server (.transcript _ _) => False
  | .setHistory _ => False
  | .clearHistory => False
  | _ => True

/-- The event opens an answer. -/
def Event.opens : Event F → Bool
  | .server .created => true
  | _ => false

/-- A played report. -/
def Event.IsReport : Event F → Prop
  | .report _ _ => True
  | _ => False

/-- **How an event moves the ledger.** -/
inductive Ledger.Moves (l : Ledger) : Event F → Ledger → Prop
  | hears {e} : e.Neutral → l.answering = true → Moves l e (l.hear e)
  | late {e} (played : ℕ) : e.Neutral → l.answering = false →
      (¬e.IsReport → played = l.answer.played) →
      Moves l e { l with answer := { l.answer with played := played } }
  | closes {e} : e.Neutral → l.answering = true → Moves l e (l.hear e).close
  | opens : Moves l (.server .created) l.close.open'
  | clears : Moves l .clearHistory l.clear
  | sets (messages) : Moves l (.setHistory messages) { l with lines := messages.map S2SMessage.line }
  | tells (text item) (lines : List Line) :
      lines.filter (·.1 = .assistant) = l.lines.filter (·.1 = .assistant) →
      Moves l (.server (.transcript text item)) { l with lines := lines }

/-! ### The ledger of a client -/

/-- The end an output is. -/
def Output.mark : Output F → Option Mark
  | .assistantStart => some .start
  | .assistantEnd => some .close
  | _ => none

namespace Talk

/-- The lines of the list. -/
def lines (t : Talk F) : List Line := t.history.map S2SMessage.line

/-- The starts and ends the host heard of. -/
def marks (t : Talk F) : List Mark := t.out.filterMap Output.mark

/-- The ledger of a client. -/
def ledger (t : Talk F) : Ledger where
  answering := t.answering
  generation := t.generation
  answer := ⟨t.units, t.queuedSamples, t.playedSamples⟩
  lines := t.lines
  marks := t.marks

variable (t : Talk F)

theorem emit_marks (o : Output F) : (t.emit o).marks = t.marks ++ o.mark.toList := by
  unfold marks emit
  rw [List.filterMap_append]
  cases h : o.mark <;> simp [h]

theorem emit_ledger_mark (o : Output F) :
    (t.emit o).ledger = { t.ledger with marks := t.ledger.marks ++ o.mark.toList } := by
  show ({ t.ledger with marks := (t.emit o).marks } : Ledger) = _
  rw [emit_marks]
  rfl

theorem emit_ledger {o : Output F} (h : o.mark = none) : (t.emit o).ledger = t.ledger := by
  rw [emit_ledger_mark, h]
  simp

theorem sent_mark (f : ClientFrame) : (t.sent f).filterMap Output.mark = [] := by
  unfold sent
  split_ifs <;> rfl

@[simp] theorem send_ledger (f : ClientFrame) : (t.send f).ledger = t.ledger := by
  unfold send
  split_ifs
  · exact t.emit_ledger rfl
  · rfl

@[simp] theorem post_ledger (p : Post F) : (t.post p).ledger = t.ledger := by
  unfold post
  split_ifs
  · exact t.emit_ledger rfl
  · rfl

@[simp] theorem flushPlayback_ledger : t.flushPlayback.ledger = t.ledger := t.post_ledger _

@[simp] theorem setState_ledger (s : State) : (t.setState s).ledger = t.ledger := by
  unfold setState
  split_ifs
  · exact emit_ledger { t with state := s } rfl
  · rfl

@[simp] theorem pushHistory_ledger : t.pushHistory.ledger = t.ledger := by
  unfold pushHistory
  rw [emit_ledger _ rfl, send_ledger]

@[simp] theorem sendSessionUpdate_ledger : t.sendSessionUpdate.ledger = t.ledger := t.send_ledger _

@[simp] theorem forgetTurns_ledger : t.forgetTurns.ledger = t.ledger := by
  have hlines : t.forgetTurns.lines = t.lines := by
    unfold lines forgetTurns
    rw [List.map_map]
    rfl
  show ({ t.ledger with lines := t.forgetTurns.lines } : Ledger) = t.ledger
  rw [hlines]
  rfl

/-- **A close of the client is a close of its ledger.** -/
@[simp] theorem closeAnswer_ledger : t.closeAnswer.ledger = t.ledger.close := by
  have hheard : Answer.heard ⟨t.units, t.queuedSamples, t.playedSamples⟩ = t.heard := rfl
  rcases Bool.eq_false_or_eq_true t.answering with h | h
  · rw [closeAnswer_eq t h]
    by_cases hnone : t.heard = []
    all_goals simp [Ledger.close, ledger, h, Answer.files, hheard, hnone, files, lines, marks,
      Output.mark, S2SMessage.line, sent_mark]
  · rw [closeAnswer_idle t h]
    simp [Ledger.close, ledger, h]

@[simp] theorem closeAnswer_playedSamples : t.closeAnswer.playedSamples = t.playedSamples := by
  have hledger := congrArg Ledger.answer t.closeAnswer_ledger
  have hclose : t.ledger.close.answer.played = t.playedSamples := by
    unfold Ledger.close
    split_ifs <;> rfl
  exact (congrArg Answer.played hledger).trans hclose

/-- An event that is no more than its answer's takes nothing but its own. -/
theorem moves_same {e : Event F} {l : Ledger} (hneutral : e.Neutral)
    (hsame : l.answer.after l.generation e = l.answer) : l.Moves e l := by
  cases h : l.answering with
  | true =>
    have := Ledger.Moves.hears hneutral h
    rwa [Ledger.hear, hsame] at this
  | false => exact .late l.answer.played hneutral h fun _ => rfl

theorem moves_close {e : Event F} {l : Ledger} (hneutral : e.Neutral)
    (hsame : l.answer.after l.generation e = l.answer) : l.Moves e l.close := by
  cases h : l.answering with
  | true =>
    have := Ledger.Moves.closes hneutral h
    rwa [Ledger.hear, hsame] at this
  | false =>
    rw [Ledger.close, h, if_neg Bool.false_ne_true]
    exact moves_same hneutral hsame

/-- A transcript leaves the lines of the assistant as they are. -/
theorem onTranscript_lines (text item : Bytes) :
    (t.onTranscript text item).lines.filter (·.1 = .assistant) =
      t.lines.filter (·.1 = .assistant) := by
  unfold onTranscript lines emit
  dsimp only
  split_ifs with hrevised
  · obtain ⟨-, -, hrole⟩ := hrevised
    rcases List.eq_nil_or_concat' t.history with hnil | ⟨front, last, hlast⟩
    · simp [hnil] at hrole
    · rw [hlast, List.getLast?_concat, Option.any_some, decide_eq_true_eq] at hrole
      simp [hlast, S2SMessage.line, hrole]
  · simp [S2SMessage.line]

theorem onTranscript_moves (text item : Bytes) :
    t.ledger.Moves (.server (.transcript text item) : Event F) (t.onTranscript text item).ledger := by
  have hledger : (t.onTranscript text item).ledger =
      { t.ledger with lines := (t.onTranscript text item).lines } := by
    unfold onTranscript
    rw [emit_ledger _ rfl]
    rfl
  rw [hledger]
  exact .tells text item _ (t.onTranscript_lines text item)

/-- **Each server event moves the ledger.** -/
theorem onServerEvent_moves (e : ServerEvent F) :
    t.ledger.Moves (.server e) (t.onServerEvent e).ledger := by
  cases e with
  | sessionUpdated voice =>
    rcases voice with - | ⟨voice, effect⟩
    · exact moves_same trivial rfl
    · rw [onServerEvent, emit_ledger _ rfl]
      exact moves_same trivial rfl
  | speechStarted =>
    rw [onServerEvent]
    split_ifs
    · rw [setState_ledger, closeAnswer_ledger, flushPlayback_ledger]
      exact moves_close trivial rfl
    · rw [setState_ledger]
      exact moves_same trivial rfl
  | transcript text item => exact t.onTranscript_moves text item
  | created =>
    have hclosed : t.closeAnswer.ledger.open' = t.ledger.close.open' := by rw [closeAnswer_ledger]
    rw [onServerEvent, setState_ledger, emit_ledger_mark, post_ledger]
    show t.ledger.Moves _ t.closeAnswer.ledger.open'
    rw [hclosed]
    exact .opens
  | textDelta delta =>
    rw [onServerEvent]
    split_ifs
    · rw [emit_ledger _ rfl]
      exact moves_same trivial rfl
    · exact moves_same trivial rfl
  | toolStarted name =>
    rw [onServerEvent]
    split_ifs
    · rw [emit_ledger _ rfl]
      exact moves_same trivial rfl
    · exact moves_same trivial rfl
  | toolDone name ok ms bytes =>
    rw [onServerEvent]
    split_ifs
    · rw [emit_ledger _ rfl]
      exact moves_same trivial rfl
    · exact moves_same trivial rfl
  | spoken delta textEnd =>
    rw [onServerEvent]
    split_ifs with h
    · rw [emit_ledger _ rfl]
      exact .hears trivial h
    · exact .late _ trivial (Bool.eq_false_iff.2 h) fun _ => rfl
  | audio pcm =>
    rcases pcm with - | pcm
    · rw [onServerEvent, ite_self]
      exact moves_same trivial rfl
    · rw [onServerEvent]
      split_ifs with h
      · rw [setState_ledger, post_ledger]
        exact .hears trivial h
      · exact .late _ trivial (Bool.eq_false_iff.2 h) fun _ => rfl
  | cancelled =>
    rw [onServerEvent, setState_ledger, closeAnswer_ledger, flushPlayback_ledger]
    exact moves_close trivial rfl
  | done =>
    rw [onServerEvent]
    dsimp only
    split_ifs
    · rw [setState_ledger, closeAnswer_ledger]
      exact moves_close (l := t.ledger) trivial rfl
    · exact moves_same (l := t.ledger) trivial rfl
  | error message =>
    rw [onServerEvent, emit_ledger _ rfl]
    exact moves_same trivial rfl
  | other => exact moves_same trivial rfl

@[simp] theorem setHistory_ledger (messages : List S2SMessage) :
    (t.setHistory messages).ledger = { t.ledger with lines := messages.map S2SMessage.line } := by
  rw [setHistory, pushHistory_ledger]
  simp [ledger, lines, marks, Function.comp_def, S2SMessage.line, S2SMessage.bare]

@[simp] theorem clearHistory_ledger : t.clearHistory.ledger = t.ledger.clear := by
  unfold clearHistory
  rw [setHistory_ledger]
  rcases Bool.eq_false_or_eq_true t.answering with h | h
  · have hflushed : ((t.send .responseCancel).flushPlayback).ledger = t.ledger := by
      rw [flushPlayback_ledger, send_ledger]
    have hcut : ∀ t' : Talk F, Talk.ledger
        { t' with units := [], answerDone := false, answering := false } =
        { t'.ledger with answering := false, answer := { t'.ledger.answer with units := [] } } :=
      fun _ => rfl
    rw [if_pos h, setState_ledger, emit_ledger_mark, hcut, hflushed]
    simp [Ledger.clear, ledger, h, Output.mark]
  · rw [if_neg (by simp [h])]
    simp [Ledger.clear, ledger, h]

theorem onReport_moves (generation played : ℕ) :
    t.ledger.Moves (.report generation played : Event F) (t.onReport generation played).ledger := by
  by_cases hgeneration : generation = t.generation
  · have hhear : t.ledger.hear (.report generation played : Event F) =
        Talk.ledger { t with playedSamples := played } := by
      simp [Ledger.hear, Answer.after, ledger, hgeneration, lines, marks]
    rw [onReport, if_neg (by simpa using hgeneration)]
    dsimp only
    rcases Bool.eq_false_or_eq_true t.answering with h | h
    · split_ifs
      · rw [setState_ledger, closeAnswer_ledger, ← hhear]
        exact .closes trivial h
      · rw [← hhear]
        exact .hears trivial h
    · have hlate : t.ledger.Moves (.report generation played : Event F)
          (Talk.ledger { t with playedSamples := played }) :=
        .late played trivial h fun hreport => absurd trivial hreport
      split_ifs
      · rw [setState_ledger, closeAnswer_idle { t with playedSamples := played } h]
        exact hlate
      · exact hlate
  · rw [onReport, if_pos hgeneration]
    refine moves_same trivial ?_
    simp [Answer.after, ledger, hgeneration]

@[simp] theorem teardown_ledger : t.teardown.ledger = t.ledger.close := by
  rw [teardown, setState_ledger]
  show t.closeAnswer.forgetTurns.ledger = _
  rw [forgetTurns_ledger, closeAnswer_ledger]

/-- **Each step moves the ledger.** -/
theorem step_moves (e : Event F) : t.ledger.Moves e (t.step e).ledger := by
  cases e with
  | server e => exact t.onServerEvent_moves e
  | report generation played =>
    exact t.onReport_moves generation played
  | cancel =>
    show t.ledger.Moves _ t.cancel.ledger
    rw [cancel, setState_ledger, closeAnswer_ledger, flushPlayback_ledger, send_ledger]
    exact moves_close trivial rfl
  | setHistory messages =>
    show t.ledger.Moves _ (t.setHistory messages).ledger
    rw [setHistory_ledger]
    exact .sets messages
  | clearHistory =>
    show t.ledger.Moves _ t.clearHistory.ledger
    rw [clearHistory_ledger]
    exact .clears
  | update options =>
    show t.ledger.Moves _ (t.update options).ledger
    rw [update, sendSessionUpdate_ledger]
    exact moves_same (l := t.ledger) trivial rfl
  | prepared => exact moves_same (l := t.ledger) trivial rfl
  | opened =>
    show t.ledger.Moves _ t.onOpen.ledger
    rw [onOpen, pushHistory_ledger, sendSessionUpdate_ledger]
    exact moves_same (l := t.ledger) trivial rfl
  | ready =>
    show t.ledger.Moves _ (t.setState .listening).ledger
    rw [setState_ledger]
    exact moves_same trivial rfl
  | stop =>
    show t.ledger.Moves _ t.teardown.ledger
    rw [teardown_ledger]
    exact moves_close trivial rfl
  | ended =>
    show t.ledger.Moves _ (Talk.teardown { t with connected := false }).ledger
    rw [teardown_ledger]
    exact moves_close (l := t.ledger) trivial rfl
  | dropped =>
    show t.ledger.Moves _ t.reconnect.ledger
    rw [reconnect, setState_ledger, forgetTurns_ledger, closeAnswer_ledger, flushPlayback_ledger]
    exact moves_close (l := t.ledger) trivial rfl

end Talk

end Client
end S2S
