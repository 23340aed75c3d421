/-
# Where the threads of the voice loop stand

How far the callback is with the samples it took and the counters (`Air`), the
writer with its frame (`Hand`) and the reader with an answer that may be over
(`Look`): each is seen from the actions of its own thread alone (`stands`), and
every program keeps to it (`course`).
-/

import S2S.Cli.Desk
import S2S.Thread.Monitor

namespace S2S
namespace Cli

open Json Agent Thread Conversation Client

variable {F : Type}

/-! ### The callback -/

/-- How far the callback is: with `n` samples written to the loudspeaker and not counted as heard,
with a chunk acquired behind them, with `n` samples counted as heard and not as consumed; or with
the queue it drops. -/
inductive Air (F : Type)
  | playing (n : ℕ)
  | chunk (n : ℕ) (xs : List (ℕ × F))
  | told (n : ℕ)
  | flushing
  | counted (n : ℕ)
  | dropped (n : ℕ)
  | lowering

namespace Air

/-- When the callback may act. -/
def ok : Air F → Act F → Prop
  | s, .loadFlush => s = .playing 0
  | s, .availableRead => s = .flushing
  | s, .seekRead n => s = .counted n
  | s, .addConsumed n => s = .dropped n ∨ s = .told n
  | s, .lowerFlush => s = .lowering
  | s, .acquireRead _ => ∃ n, s = .playing n
  | s, .commitRead xs => ∃ n, s = .chunk n xs
  | s, .addHeard n => s = .playing n
  | s, .period => s = .playing 0
  | s, .acquireCapture _ => s = .playing 0
  | s, .commitCapture _ => s = .playing 0
  | _, _ => False

/-- How far the callback is after an action. -/
def next (s : Air F) : (a : Act F) → a.Result → Air F
  | .loadFlush, b => cond b .flushing s
  | .availableRead, n => .counted n
  | .seekRead n, _ => .dropped n
  | .addConsumed _, _ =>
    match s with
    | .dropped _ => .lowering
    | _ => .playing 0
  | .lowerFlush, _ => .playing 0
  | .acquireRead _, xs =>
    match s with
    | .playing n => if List.isEmpty xs then s else .chunk n xs
    | _ => s
  | .commitRead xs, _ =>
    match s with
    | .chunk n _ => .playing (n + xs.length)
    | _ => s
  | .addHeard n, _ => .told n
  | _, _ => s

end Air

/-! ### The writer -/

/-- How far the writer is with its frame: `sure` that an answer is open, `raised` the flush, `still`
once nothing sounds any more, `closing` an answer then, with what was heard of it (`told`), `shut`
behind that; `opening` another answer, with the counters it starts from; `filling` the ring with `n`
samples so far, and `room` for `k` of the `l` it asked for; `settled` once the context has taken the
frame. -/
inductive Hand (F : Type)
  | away
  | took (e : ServerEvent F)
  | holding (e : ServerEvent F)
  | sure (e : ServerEvent F)
  | raised (e : ServerEvent F)
  | still (e : ServerEvent F)
  | closing (e : ServerEvent F)
  | told (e : ServerEvent F) (heard : ℕ)
  | shut (e : ServerEvent F)
  | opening (heard : ℕ)
  | opened (heard consumed : ℕ)
  | filling (pcm : Option (List F)) (n : ℕ)
  | room (pcm : Option (List F)) (n k l : ℕ)
  | settled (e : ServerEvent F)

/-- A frame that does not touch an answer. -/
def Beside : ServerEvent F → Prop
  | .speechStarted | .created | .spoken _ _ | .audio _ | .cancelled => False
  | _ => True

/-- A frame that ends an answer. -/
def Ends : ServerEvent F → Prop
  | .speechStarted | .cancelled => True
  | _ => False

namespace Hand

/-- The writer is done with its frame. -/
def Done : Hand F → Prop
  | .settled _ => True
  | .shut e => Ends e
  | .holding e => Beside e
  | _ => False

/-- When the writer may act. -/
def ok : Hand F → Act F → Prop
  | s, .event => s = .away
  | s, .lock => ∃ e, s = .took e
  | s, .answering => (∃ e, s = .holding e ∧ ¬Beside e ∧ e ≠ .cancelled) ∨ ∃ e, s = .still e
  | s, .raiseFlush => s = .sure .speechStarted ∨ s = .holding .cancelled
  | s, .awaitFlush => ∃ e, s = .raised e
  | s, .loadHeard => (∃ e, s = .closing e) ∨ s = .shut .created
  | s, .close heard => ∃ e, s = .told e heard
  | s, .loadConsumed => ∃ heard, s = .opening heard
  | s, .opens heard consumed => s = .opened heard consumed
  | s, .unit delta => ∃ textEnd, s = .sure (.spoken delta textEnd)
  | s, .acquireWrite _ => ∃ pcm n, s = .filling pcm n
  | s, .commitWrite xs => ∃ pcm n k l, s = .room pcm n k l ∧ xs.length = min k l
  | s, .queued n => ∃ pcm, s = .filling pcm n
  | s, .user item text => s = .holding (.transcript text item)
  | s, .answerDone => s = .holding .done
  | s, .unlock => s.Done
  | _, _ => False

/-- Behind the question whether an answer is open. -/
def asked (answering : Bool) : Hand F → Hand F
  | .still e => cond answering (.closing e) (.shut e)
  | .holding .created => cond answering (.closing .created) (.shut .created)
  | .holding (.audio pcm) => cond answering (.filling pcm 0) (.settled (.audio pcm))
  | .holding e => cond answering (.sure e) (.settled e)
  | s => s

/-- Behind the counter of what was heard. -/
def heard (h : ℕ) : Hand F → Hand F
  | .closing e => .told e h
  | .shut _ => .opening h
  | s => s

/-- Behind the offer of `k` samples of room for `l`. -/
def offered (l k : ℕ) : Hand F → Hand F
  | .filling pcm n => if k = 0 then .filling pcm n else .room pcm n k l
  | s => s

/-- Behind a step that does not ask for anything. -/
def forward : Hand F → Hand F
  | .took e => .holding e
  | .sure .speechStarted => .raised .speechStarted
  | .sure e => .settled e
  | .holding .cancelled => .raised .cancelled
  | .holding e => .settled e
  | .raised e => .still e
  | .told e _ => .shut e
  | .opened _ _ => .settled .created
  | .room pcm n k _ => .filling pcm (n + k)
  | .filling pcm _ => .settled (.audio pcm)
  | s => s

/-- How far the writer is after an action. -/
def next (s : Hand F) : (a : Act F) → a.Result → Hand F
  | .event, e => .took e
  | .answering, b => s.asked b
  | .loadHeard, h => s.heard h
  | .loadConsumed, c =>
    match s with
    | .opening h => .opened h c
    | s => s
  | .acquireWrite l, k => s.offered l k
  | .unlock, _ => .away
  | _, _ => s.forward

end Hand

/-! ### The reader -/

/-- How far the reader is with an answer that may be over: the server is done with it (`ended`),
this much of it was consumed (`saw`), all of it (`still`); and then as the writer. -/
inductive Look
  | away
  | holding
  | ended
  | saw (consumed : ℕ)
  | still
  | closing
  | told (heard : ℕ)
  | shut

namespace Look

/-- When the reader may act. -/
def ok : Look → Act F → Prop
  | s, .lock => s = .away
  | s, .answerOver => s = .holding
  | s, .loadConsumed => s = .ended
  | s, .played consumed => s = .saw consumed
  | s, .answering => s = .still
  | s, .loadHeard => s = .closing
  | s, .close heard => s = .told heard
  | s, .swapOutbox => s = .shut
  | s, .unlock => s = .shut
  | s, .loadStop => s = .away
  | s, .connStopped => s = .away
  | s, .raiseStop => s = .away
  | s, .connFrame _ => s = .away
  | s, .pairsAvailable => s = .away
  | s, .acquirePairs _ => s = .away
  | s, .commitPairs _ => s = .away
  | _, _ => False

/-- How far the reader is after an action. -/
def next (s : Look) : (a : Act F) → a.Result → Look
  | .lock, _ => .holding
  | .answerOver, b => cond b .ended .shut
  | .loadConsumed, c => .saw c
  | .played _, b => cond b .still .shut
  | .answering, b => cond b .closing .shut
  | .loadHeard, h => .told h
  | .close _, _ => .shut
  | .unlock, _ => .away
  | _, _ => s

end Look

/-! ### Every thread -/

/-- Where a thread stands. -/
inductive Stand (F : Type)
  | callback (s : Air F)
  | writer (s : Hand F)
  | reader (s : Look)
  | user

/-- **What may come when**, of each thread. -/
def stands : Monitor Role (Act F) Act.Result where
  State := Stand F
  ok
    | .callback, .callback s, a => s.ok a
    | .writer, .writer s, a => s.ok a
    | .reader, .reader s, a => s.ok a
    | .user, .user, a => a = .raiseStop
    | _, _, _ => False
  next
    | .callback s, a, r => .callback (s.next a r)
    | .writer s, a, r => .writer (s.next a r)
    | .reader s, a, r => .reader (s.next a r)
    | .user, _, _ => .user

/-! ### The programs -/

section Programs

/-- Behind the loop that plays, all of it is counted. -/
theorem watched_playLoop (fuel left : ℕ) (out : List (ℕ × F)) :
    Watched stands .callback (fun out' s => s = .callback (.playing out'.length))
      (.callback (.playing out.length)) (playLoop fuel left out) := by
  induction fuel generalizing left out with
  | zero => exact .done rfl
  | succ fuel ih =>
    refine .ite (fun _ => .done rfl) fun _ => .act ⟨_, rfl⟩ fun chunk => ?_
    cases chunk with
    | nil => exact .done rfl
    | cons x xs =>
      refine .act ⟨_, rfl⟩ fun _ => ?_
      have hrest := ih (left - (x :: xs).length) (out ++ x :: xs)
      rwa [List.length_append] at hrest

/-- The microphone is beside the queue. -/
theorem watched_captureLoop (fuel : ℕ) (pairs : List (F × F)) :
    Watched stands .callback (fun _ s => s = .callback (.playing 0)) (.callback (.playing 0))
      (captureLoop fuel pairs) := by
  induction fuel generalizing pairs with
  | zero => exact .done rfl
  | succ fuel ih =>
    refine .ite (fun _ => .done rfl) fun _ => .act rfl fun n => ?_
    exact .ite (fun _ => .done rfl) fun _ => .act rfl fun _ => ih _

/-- What is committed is counted. -/
theorem watched_audioPlay (pcm : Option (List F)) (fuel : ℕ) (rest : List F) (n : ℕ) :
    Watched stands .writer (fun n' s => s = .writer (.filling pcm n')) (.writer (.filling pcm n))
      (audioPlay fuel rest n) := by
  induction fuel generalizing rest n with
  | zero => exact .done rfl
  | succ fuel ih =>
    refine .ite (fun _ => .done rfl) fun _ => .act ⟨_, _, rfl⟩ fun k => ?_
    refine .ite (fun hzero => .done ?_) fun hzero => ?_
    · exact congrArg Stand.writer (if_pos hzero)
    · have hroom : (Hand.filling pcm n).offered rest.length k = .room pcm n k rest.length :=
        if_neg hzero
      refine .act ⟨pcm, n, k, _, hroom, List.length_take⟩ fun _ => ?_
      change Watched stands .writer _
        (.writer ((Hand.filling pcm n).offered rest.length k).forward) _
      rw [hroom]
      exact ih _ _

theorem watched_audioDrop [Zero F] : Watched stands .callback
    (fun _ s => s = .callback (.playing 0)) (.callback (.playing 0))
    (audioDrop : Program F Unit) := by
  refine .act rfl fun flush => ?_
  cases flush with
  | false => exact .done rfl
  | true =>
    exact .act rfl fun _ => .act rfl fun _ => .act (.inl rfl) fun _ => .act rfl fun _ => .done rfl

theorem watched_onAudio [Zero F] : Watched stands .callback
    (fun again s => again = true ∧ s = .callback (.playing 0)) (.callback (.playing 0))
    (onAudio : Program F Bool) := by
  refine .act rfl fun input => watched_audioDrop.bind ?_
  rintro - s rfl
  refine (watched_playLoop _ _ []).bind ?_
  rintro out s rfl
  refine .act rfl fun _ => .act (.inr rfl) fun _ => ?_
  exact (watched_captureLoop _ _).bind fun _ s hs => .done ⟨rfl, hs⟩

/-- **The flush**: once it is over, nothing sounds. -/
theorem watched_audioFlush {s : Hand F} {e : ServerEvent F} (hok : s.ok .raiseFlush)
    (hraise : s.forward = .raised e) :
    Watched stands .writer (fun _ s => s = .writer (.still e)) (.writer s)
      (audioFlush : Program F Unit) := by
  refine .act hok fun _ => ?_
  change Watched stands .writer _ (.writer s.forward) _
  rw [hraise]
  exact .act ⟨_, rfl⟩ fun _ => .done rfl

/-- **The close of an answer**, or of none. -/
theorem watched_closeAnswer {s : Hand F} {e : ServerEvent F} (hok : s.ok .answering)
    (hasked : ∀ answering, s.asked answering = cond answering (.closing e) (.shut e)) :
    Watched stands .writer (fun _ s => s = .writer (.shut e)) (.writer s)
      (closeAnswer : Program F Unit) := by
  have hno := hasked false
  have hyes := hasked true
  refine .act hok fun answering => ?_
  cases answering with
  | false =>
    change Watched stands .writer _ (.writer (s.asked false)) _
    rw [hno]
    exact .done rfl
  | true =>
    change Watched stands .writer _ (.writer (s.asked true)) _
    rw [hyes]
    exact .act (.inl ⟨_, rfl⟩) fun _ => .act ⟨_, rfl⟩ fun _ => .done rfl

/-- The writer is done with its frame, wherever it stands. -/
def Stand.Done : Stand F → Prop
  | .writer s => s.Done
  | _ => False

/-- **A frame is handled.** -/
theorem watched_handle (e : ServerEvent F) :
    Watched stands .writer (fun _ s => s.Done) (.writer (.holding e)) (handle e) := by
  cases e with
  | speechStarted =>
    refine .act (.inl ⟨_, rfl, id, by simp⟩) fun answering => ?_
    cases answering with
    | false => exact .done trivial
    | true =>
      refine (watched_audioFlush (.inl rfl) rfl).bind ?_
      rintro - s rfl
      refine (watched_closeAnswer (.inr ⟨_, rfl⟩) fun _ => rfl).mono ?_
      rintro - s rfl
      trivial
  | transcript text item => exact .act rfl fun _ => .done trivial
  | created =>
    refine (watched_closeAnswer (s := .holding .created) (.inl ⟨.created, rfl, id, by simp⟩)
      fun _ => rfl).bind ?_
    rintro - s rfl
    exact .act (.inr rfl) fun _ => .act ⟨_, rfl⟩ fun _ => .act rfl fun _ => .done trivial
  | spoken delta textEnd =>
    refine .act (.inl ⟨_, rfl, id, by simp⟩) fun answering => ?_
    cases answering with
    | false => exact .done trivial
    | true => exact .act ⟨_, rfl⟩ fun _ => .done trivial
  | audio pcm =>
    refine .act (.inl ⟨_, rfl, id, by simp⟩) fun answering => ?_
    cases answering with
    | false => exact .done trivial
    | true =>
      refine (watched_audioPlay pcm _ _ 0).bind ?_
      rintro n s rfl
      exact .act ⟨_, rfl⟩ fun _ => .done trivial
  | cancelled =>
    refine (watched_audioFlush (.inr rfl) rfl).bind ?_
    rintro - s rfl
    refine (watched_closeAnswer (.inr ⟨_, rfl⟩) fun _ => rfl).mono ?_
    rintro - s rfl
    trivial
  | done => exact .act rfl fun _ => .done trivial
  | _ => exact .done trivial

theorem watched_onEvent : Watched stands .writer
    (fun again s => again = true ∧ s = .writer .away) (.writer .away)
    (onEvent : Program F Bool) := by
  refine .act rfl fun e => .act ⟨_, rfl⟩ fun _ => ?_
  refine (watched_handle e).bind ?_
  rintro - s hs
  cases s with
  | writer s => exact .act hs fun _ => .done ⟨rfl, rfl⟩
  | _ => exact hs.elim

theorem watched_closePlayed : Watched stands .reader
    (fun _ s => s = .reader .shut) (.reader .holding) (closePlayed : Program F Unit) := by
  refine .act rfl fun ended => ?_
  cases ended with
  | false => exact .done rfl
  | true =>
    refine .act rfl fun consumed => .act rfl fun played => ?_
    cases played with
    | false => exact .done rfl
    | true =>
      refine .act rfl fun answering => ?_
      cases answering with
      | false => exact .done rfl
      | true => exact .act rfl fun _ => .act rfl fun _ => .done rfl

theorem watched_connHistories (outbox : List (List HistoryMessage)) : Watched stands .reader
    (fun _ s => s = .reader .away) (.reader .away) (connHistories outbox : Program F Unit) := by
  induction outbox with
  | nil => exact .done rfl
  | cons messages outbox ih => exact .act rfl fun _ => ih

theorem watched_takePairs (fuel : ℕ) (got : List (F × F)) : Watched stands .reader
    (fun _ s => s = .reader .away) (.reader .away) (takePairs fuel got) := by
  induction fuel generalizing got with
  | zero => exact .done rfl
  | succ fuel ih =>
    exact .ite (fun _ => .done rfl) fun _ => .act rfl fun _ => .act rfl fun _ => ih _

theorem watched_readLoop [Zero F] [DecidableEq F] (aec : Bool) : Watched stands .reader
    (fun _ s => s = .reader .away) (.reader .away) (readLoop aec : Program F Bool) := by
  refine .act rfl fun stop => .act rfl fun stopped => ?_
  refine .ite (fun _ => .act rfl fun _ => .done rfl) fun _ => .act rfl fun _ => ?_
  refine watched_closePlayed.bind ?_
  rintro - s rfl
  refine .act rfl fun outbox => .act rfl fun _ => ?_
  refine (watched_connHistories outbox).bind ?_
  rintro - s rfl
  refine .act rfl fun available => .ite (fun _ => .done rfl) fun _ => ?_
  refine (watched_takePairs _ []).bind ?_
  rintro pairs s rfl
  exact .act rfl fun _ => .done rfl

/-- **Every program keeps to what may come when.** -/
def course [Zero F] [DecidableEq F] (aec : Bool) (captureSize playbackSize : ℕ)
    (frames : List (Frame F)) :
    Course (cli aec captureSize playbackSize frames) (stands (F := F)) where
  start
    | .callback => .callback (.playing 0)
    | .writer => .writer .away
    | .reader => .reader .away
    | .user => .user
  begins
    | .callback, s => s = .callback (.playing 0)
    | .writer, s => s = .writer .away
    | .reader, s => s = .reader .away
    | .user, s => s = .user
  ends
    | .callback, again, s => again = true ∧ s = .callback (.playing 0)
    | .writer, again, s => again = true ∧ s = .writer .away
    | .reader, _, s => s = .reader .away
    | .user, again, _ => again = false
  starts role := by cases role <;> rfl
  bodies
    | .callback, _, rfl => watched_onAudio
    | .writer, _, rfl => watched_onEvent
    | .reader, _, rfl => watched_readLoop aec
    | .user, _, rfl => .act rfl fun _ => .done rfl
  again
    | .callback, _, h => h.2
    | .writer, _, h => h.2
    | .reader, _, h => h
    | .user, _, h => by cases h

end Programs

end Cli
end S2S
