/-
# What the frames are about

Every frame that a connection sends, with the turn and the revision it is about
(`notes`): a transcript is about what was recognized last, everything else about
the job that the responder took last.  The turn is in the item of a transcript
alone; a client has to tell the rest from the order.

`Orderly` is that order.  `Ear` is how far the client is with an answer: it hears
one from its `response.created` to the next `speech_started` or
`response.cancelled`, sounding once something of it was sent.  While it sounds no
other answer is opened and nothing is transcribed; and what it hears is of the
turn that was transcribed last.
-/

import S2S.Conversation.Recognitions
import S2S.Prefixes

namespace S2S
namespace Conversation

open Json Session

variable {F : Type}

/-! ### The ear of a client -/

/-- How far a client is with an answer. -/
inductive Ear
  | deaf
  | hearing (sounding : Bool)
  deriving DecidableEq, Repr

/-- The ear after a frame. -/
def Ear.frame : Ear → Frame F → Ear
  | _, .created => .hearing false
  | _, .speechStarted => .deaf
  | _, .cancelled => .deaf
  | .hearing _, .audio _ => .hearing true
  | .hearing _, .spoken _ _ => .hearing true
  | e, _ => e

/-- The ear after some frames. -/
def earOf (fs : List (Frame F)) : Ear := fs.foldl Ear.frame .deaf

theorem earOf_snoc (fs : List (Frame F)) (f : Frame F) : earOf (fs ++ [f]) = (earOf fs).frame f := by
  rw [earOf, List.foldl_append]
  rfl

/-- A frame that the ear does not turn to. -/
def Frame.Beside : Frame F → Prop
  | .created => False
  | .speechStarted => False
  | .cancelled => False
  | .audio _ => False
  | .spoken _ _ => False
  | _ => True

theorem Frame.Beside.ear {f : Frame F} (h : f.Beside) (e : Ear) : e.frame f = e := by
  cases f <;> first | exact h.elim | (cases e <;> rfl)

theorem Frame.Sound.ear {f : Frame F} (h : f.Sound) (e : Ear) :
    e.frame f = if e = .deaf then .deaf else .hearing true := by
  cases f <;> first | exact h.elim | (cases e <;> rfl)

/-! ### Notes -/

/-- A frame and what it is about. -/
structure Note (F : Type) where
  frame : Frame F
  pair : ℕ × ℕ

/-- The note of an entry. -/
def noteOf (before : List (Entry F)) : Entry F → List (Note F)
  | .frame _ (.transcript item text) =>
    [⟨.transcript item text, (recognitions before).getLast?.getD (0, 0)⟩]
  | .frame _ f => [⟨f, (answerOf before).getD (0, 0)⟩]
  | _ => []

/-- The notes of a log, `before` it. -/
def notesFrom (before : List (Entry F)) : List (Entry F) → List (Note F)
  | [] => []
  | e :: log => noteOf before e ++ notesFrom (before ++ [e]) log

/-- **The frames that were sent, each with what it is about.** -/
def notes (log : List (Entry F)) : List (Note F) := notesFrom [] log

theorem notesFrom_snoc (before log : List (Entry F)) (e : Entry F) :
    notesFrom before (log ++ [e]) = notesFrom before log ++ noteOf (before ++ log) e := by
  induction log generalizing before with
  | nil => simp [notesFrom]
  | cons first log ih => simp [notesFrom, ih]

theorem notes_snoc (log : List (Entry F)) (e : Entry F) :
    notes (log ++ [e]) = notes log ++ noteOf log e :=
  notesFrom_snoc [] log e

theorem noteOf_frame (log : List (Entry F)) (e : Entry F) :
    (noteOf log e).map Note.frame = frames [e] := by
  cases e with
  | frame role f => cases f <;> rfl
  | _ => rfl

/-- **The notes are of the frames.** -/
theorem notes_frame (log : List (Entry F)) : (notes log).map Note.frame = frames log := by
  induction log using List.reverseRecOn with
  | nil => rfl
  | append_singleton log e ih => rw [notes_snoc, List.map_append, frames_append, ih, noteOf_frame]

/-- The turn and revision of each transcript. -/
def transcriptsOf (ns : List (Note F)) : List (ℕ × ℕ) :=
  ns.filterMap fun n => match n.frame with
    | .transcript _ _ => some n.pair
    | _ => none

/-- The turn and revision of each answer opened. -/
def createdOf (ns : List (Note F)) : List (ℕ × ℕ) :=
  ns.filterMap fun n => match n.frame with
    | .created => some n.pair
    | _ => none

/-- The turn and revision of each frame of sound. -/
def soundsOf (ns : List (Note F)) : List (ℕ × ℕ) :=
  ns.filterMap fun n => match n.frame with
    | .audio _ => some n.pair
    | .spoken _ _ => some n.pair
    | _ => none

@[simp] theorem transcriptsOf_append (ns ns' : List (Note F)) :
    transcriptsOf (ns ++ ns') = transcriptsOf ns ++ transcriptsOf ns' := List.filterMap_append

@[simp] theorem createdOf_append (ns ns' : List (Note F)) :
    createdOf (ns ++ ns') = createdOf ns ++ createdOf ns' := List.filterMap_append

@[simp] theorem soundsOf_append (ns ns' : List (Note F)) :
    soundsOf (ns ++ ns') = soundsOf ns ++ soundsOf ns' := List.filterMap_append

/-! ### The order -/

/-- The ear after some notes. -/
def hears (ns : List (Note F)) : Ear := earOf (ns.map Note.frame)

theorem hears_snoc (ns : List (Note F)) (n : Note F) : hears (ns ++ [n]) = (hears ns).frame n.frame := by
  rw [hears, List.map_append]
  exact earOf_snoc _ _

/-- A transcript of the turn and revision `p` may come after `ns`. -/
structure Tellable (ns : List (Note F)) (item : Bytes) (p : ℕ × ℕ) : Prop where
  quiet : hears ns ≠ .hearing true
  item : item = itemId p.1
  later : ∀ q ∈ transcriptsOf ns, Earlier q p
  unheard : ∀ q ∈ soundsOf ns, q.1 < p.1

/-- An answer to the turn and revision `p` may be opened after `ns`. -/
structure Openable (ns : List (Note F)) (p : ℕ × ℕ) : Prop where
  quiet : hears ns ≠ .hearing true
  told : p ∈ transcriptsOf ns
  later : ∀ q ∈ createdOf ns, Earlier q p

/-- Sound of the answer to `p` may come after `ns`: a client that hears it has heard of nothing
later. -/
structure Audible (ns : List (Note F)) (p : ℕ × ℕ) : Prop where
  told : hears ns ≠ .deaf → (transcriptsOf ns).getLast? = some p
  opened : (createdOf ns).getLast? = some p

/-- A note has its place after `ns`. -/
def Note.Fits (ns : List (Note F)) (n : Note F) : Prop :=
  match n.frame with
  | .transcript item _ => Tellable ns item n.pair
  | .created => Openable ns n.pair
  | .audio _ => Audible ns n.pair
  | .spoken _ _ => Audible ns n.pair
  | _ => True

/-- **Every note in its place.** -/
def Orderly (ns : List (Note F)) : Prop := Each (fun before n => n.Fits before) ns

theorem Orderly.snoc {ns : List (Note F)} (h : Orderly ns) {n : Note F} (hn : n.Fits ns) :
    Orderly (ns ++ [n]) :=
  each_snoc.2 ⟨h, hn⟩

theorem Orderly.front {ns ns' : List (Note F)} (h : Orderly (ns ++ ns')) : Orderly ns :=
  fun before n after hsplit => h before n (after ++ ns') (by rw [hsplit]; simp)

theorem Orderly.last {ns : List (Note F)} {n : Note F} (h : Orderly (ns ++ [n])) : n.Fits ns :=
  (each_snoc.1 h).2

/-! ### The jobs -/

/-- The jobs handed to the responder. -/
def gaves (log : List (Entry F)) : List (ℕ × ℕ) :=
  log.filterMap fun
    | .gave turnId revision => some (turnId, revision)
    | _ => none

/-- The jobs that the responder took. -/
def tooks (log : List (Entry F)) : List (ℕ × ℕ) :=
  log.filterMap fun
    | .took turnId revision => some (turnId, revision)
    | _ => none

@[simp] theorem gaves_append (l l' : List (Entry F)) : gaves (l ++ l') = gaves l ++ gaves l' :=
  List.filterMap_append

@[simp] theorem tooks_append (l l' : List (Entry F)) : tooks (l ++ l') = tooks l ++ tooks l' :=
  List.filterMap_append

theorem answerOf_eq (log : List (Entry F)) : answerOf log = (tooks log).getLast? := by
  induction log using List.reverseRecOn with
  | nil => rfl
  | append_singleton log e ih =>
    rw [answerOf_snoc, tooks_append]
    cases e <;> simp [tooks] at ih ⊢ <;> exact ih

/-- The transcripts among the notes are the ones heard. -/
theorem transcriptsOf_snoc {log : List (Entry F)} (h : transcriptsOf (notes log) = heard log)
    {e : Entry F} (he : ∀ role item text, e = .frame role (.transcript item text) →
      ∃ p, (recognitions log).getLast? = some p) :
    transcriptsOf (notes (log ++ [e])) = heard (log ++ [e]) := by
  rw [notes_snoc, transcriptsOf_append, heard_append, h]
  congr 1
  cases e with
  | frame role f =>
    cases f with
    | transcript item text =>
      obtain ⟨p, hp⟩ := he role item text rfl
      simp [noteOf, transcriptsOf, heardFrom, hp]
    | _ => rfl
  | work w cancelled => cases w <;> rfl
  | _ => rfl

end Conversation
end S2S
