/-
# What the log of a connection says

The log read in the ways the proofs need: the events of the session in it
(`logged`), the job the responder took last (`answerOf`), whether its answer is
open (`bracketOf`), and how many transcripts, jobs and answers there were.
-/

import S2S.Conversation.Memory
import S2S.Session.Grace

namespace S2S
namespace Conversation

open Json Session

variable {F V : Type}

/-! ### Frames -/

/-- A frame of sound. -/
def Frame.Sound : Frame F → Prop
  | .audio _ => True
  | .spoken _ _ => True
  | _ => False

/-- Whether the client is told of an answer: none is open, one is, or one waits for a tool. -/
inductive Bracket
  | closed
  | opened
  | calling (name : Bytes)
  deriving DecidableEq, Repr

/-- The bracket after a frame, none when the frame has no place. -/
def Bracket.frame : Bracket → Frame F → Option Bracket
  | .closed, .created => some .opened
  | .opened, .done => some .closed
  | .opened, .cancelled => some .closed
  | .opened, .textDelta _ => some .opened
  | .opened, .audio _ => some .opened
  | .opened, .spoken _ _ => some .opened
  | .opened, .toolStarted name => some (.calling name)
  | .calling name, .toolDone name' _ _ _ => if name = name' then some .opened else none
  | b, .error _ => some b
  | b, .speechStarted => some b
  | b, .sessionUpdated => some b
  | b, .voice _ _ => some b
  | b, .transcript _ _ => some b
  | _, _ => none

/-- A frame that belongs to no answer and is no transcript. -/
def Frame.Plain : Frame F → Prop
  | .error _ => True
  | .speechStarted => True
  | .sessionUpdated => True
  | .voice _ _ => True
  | _ => False

/-- A frame of an answer, which the bracket is about. -/
def Frame.OfAnswer : Frame F → Prop
  | .created => True
  | .done => True
  | .cancelled => True
  | .textDelta _ => True
  | .audio _ => True
  | .spoken _ _ => True
  | .toolStarted _ => True
  | .toolDone _ _ _ _ => True
  | _ => False

/-! ### The log -/

/-- A stop that has returned. -/
def Entry.isStopped : Entry F → Bool
  | .stopped => true
  | _ => false

theorem Entry.isStopped_iff {e : Entry F} : e.isStopped = true ↔ e = .stopped := by
  cases e <;> simp [Entry.isStopped]

/-- A request set to work with the flag down. -/
def Entry.isOpenRequest : Entry F → Bool
  | .work (.request _) false => true
  | _ => false

theorem Entry.isOpenRequest_iff {e : Entry F} :
    e.isOpenRequest = true ↔ ∃ messages, e = .work (.request messages) false := by
  cases e with
  | work w cancelled => cases w <;> cases cancelled <;> simp [Entry.isOpenRequest]
  | _ => simp [Entry.isOpenRequest]

/-- The events of the session. -/
def logged (log : List (Entry F)) : List (Report F) :=
  log.filterMap fun
    | .report r => some r
    | _ => none

/-- The frames handed to `conn_send`. -/
def frames (log : List (Entry F)) : List (Frame F) :=
  log.filterMap fun
    | .frame _ f => some f
    | _ => none

/-- A turn and revision was declared final. -/
def Final (rs : List (Report F)) (p : ℕ × ℕ) : Prop :=
  ∃ r ∈ rs, r.event = .turnFinal ∧ r.pair = p

/-- The job that the responder took last. -/
def answerOf (log : List (Entry F)) : Option (ℕ × ℕ) :=
  log.foldl (fun taken e => match e with
    | .took turnId revision => some (turnId, revision)
    | _ => taken) none

/-- The bracket after a log. -/
def bracketOf (log : List (Entry F)) : Option Bracket :=
  log.foldl (fun b e => match e with
    | .frame _ f => b.bind fun b => b.frame f
    | _ => b) (some .closed)

/-- The responses opened. -/
def created (log : List (Entry F)) : ℕ :=
  log.countP fun
    | .frame _ .created => true
    | _ => false

/-- The transcripts sent. -/
def transcripts (log : List (Entry F)) : ℕ :=
  log.countP fun
    | .frame _ (.transcript _ _) => true
    | _ => false

/-- The jobs put in the answer queue. -/
def gives (log : List (Entry F)) : ℕ :=
  log.countP fun
    | .gave _ _ => true
    | _ => false

/-- The jobs taken from it. -/
def takes (log : List (Entry F)) : ℕ :=
  log.countP fun
    | .took _ _ => true
    | _ => false

/-- An entry that none of this depends on, the events of the session apart. -/
def Entry.Quiet : Entry F → Prop
  | .report _ => True
  | .frame _ f => f.Plain
  | .work _ _ => True
  | .stopped => True
  | .gave _ _ => False
  | .took _ _ => False

@[simp] theorem logged_append (l l' : List (Entry F)) : logged (l ++ l') = logged l ++ logged l' :=
  List.filterMap_append

@[simp] theorem frames_append (l l' : List (Entry F)) : frames (l ++ l') = frames l ++ frames l' :=
  List.filterMap_append

@[simp] theorem logged_report (r : Report F) : logged [.report r] = [r] := rfl

@[simp] theorem created_append (l l' : List (Entry F)) :
    created (l ++ l') = created l + created l' := List.countP_append

@[simp] theorem transcripts_append (l l' : List (Entry F)) :
    transcripts (l ++ l') = transcripts l + transcripts l' := List.countP_append

@[simp] theorem gives_append (l l' : List (Entry F)) : gives (l ++ l') = gives l + gives l' :=
  List.countP_append

@[simp] theorem takes_append (l l' : List (Entry F)) : takes (l ++ l') = takes l + takes l' :=
  List.countP_append

theorem answerOf_snoc (log : List (Entry F)) (e : Entry F) :
    answerOf (log ++ [e]) = match e with
      | .took turnId revision => some (turnId, revision)
      | _ => answerOf log := by
  rw [answerOf, List.foldl_append]
  rfl

theorem bracketOf_snoc (log : List (Entry F)) (e : Entry F) :
    bracketOf (log ++ [e]) = match e with
      | .frame _ f => (bracketOf log).bind fun b => b.frame f
      | _ => bracketOf log := by
  rw [bracketOf, List.foldl_append]
  rfl

theorem Final.append {rs : List (Report F)} {p : ℕ × ℕ} (h : Final rs p) (rs' : List (Report F)) :
    Final (rs ++ rs') p := by
  obtain ⟨r, hr, hfinal⟩ := h
  exact ⟨r, List.mem_append_left _ hr, hfinal⟩

/-! ### Quiet entries -/

theorem Frame.Plain.frame {f : Frame F} (h : f.Plain) (b : Bracket) : b.frame f = some b := by
  cases f <;> first | exact h.elim | (cases b <;> rfl)

theorem Frame.Sound.ofAnswer {f : Frame F} (h : f.Sound) : f.OfAnswer := by
  cases f <;> first | exact h.elim | exact trivial

theorem Frame.Plain.not_sound {f : Frame F} (h : f.Plain) : ¬f.Sound := by
  cases f <;> first | exact h.elim | exact id

theorem Frame.Plain.not_ofAnswer {f : Frame F} (h : f.Plain) : ¬f.OfAnswer := by
  cases f <;> first | exact h.elim | exact id

namespace Entry.Quiet

variable {e : Entry F} (h : e.Quiet) (log : List (Entry F))
include h

theorem bracketOf : bracketOf (log ++ [e]) = Conversation.bracketOf log := by
  rw [bracketOf_snoc]
  cases e with
  | frame role f =>
    dsimp only
    cases Conversation.bracketOf log with
    | none => rfl
    | some b => exact Frame.Plain.frame h b
  | _ => first | exact h.elim | rfl

theorem answerOf : answerOf (log ++ [e]) = Conversation.answerOf log := by
  rw [answerOf_snoc]
  cases e <;> first | exact h.elim | rfl

theorem created : created [e] = 0 := by
  cases e with
  | frame role f => cases f <;> first | exact h.elim | rfl
  | _ => first | exact h.elim | rfl

theorem transcripts : transcripts [e] = 0 := by
  cases e with
  | frame role f => cases f <;> first | exact h.elim | rfl
  | _ => first | exact h.elim | rfl

theorem gives : gives [e] = 0 := by
  cases e <;> first | exact h.elim | rfl

theorem takes : takes [e] = 0 := by
  cases e <;> first | exact h.elim | rfl

end Entry.Quiet

end Conversation
end S2S
