/-
# What a client posts, and what comes of it

What of a client bears on its worklet (`Deck`), and what a worklet comes to: the
samples that wait, those played, and the answer they are counted for (`Tape`).
Between the two are the messages that were posted and not handled yet.

`Lands` says where these lead to, one after the other.  No sample waits when a
count is reset; an answer in flight has every sample that was queued for it
either played or waiting (`Rests`); and with no answer in flight none waits.  A
pull keeps this, and so does whatever the client does (`Lands.step`).
-/

import S2S.Client.Playback

namespace S2S
namespace Client

variable {F : Type}

/-! ### The deck -/

/-- What of a client bears on its worklet. -/
structure Deck where
  answering : Bool
  state : State
  generation : ℕ
  queued : ℕ
  played : ℕ
  done : Bool
  deriving DecidableEq, Repr

/-- The deck of a client. -/
def Talk.deck (t : Talk F) : Deck where
  answering := t.answering
  state := t.state
  generation := t.generation
  queued := t.queuedSamples
  played := t.playedSamples
  done := t.answerDone

/-- What was posted to the worklet. -/
def postsOf (out : List (Output F)) : List (Post F) :=
  out.filterMap fun
    | .post p => some p
    | _ => none

@[simp] theorem postsOf_append (out more : List (Output F)) :
    postsOf (out ++ more) = postsOf out ++ postsOf more := List.filterMap_append

namespace Deck

/-- The answer in flight closes. -/
def close (d : Deck) : Deck := if d.answering then { d with answering := false, done := false } else d

/-- The answer in flight closes, and the client listens. -/
def rest (d : Deck) : Deck := { d.close with state := .listening }

theorem close_answering (d : Deck) : d.close.answering = false := by
  unfold close
  split
  · rfl
  · rename_i hanswering
    simpa using hanswering

theorem rest_answering (d : Deck) : d.rest.answering = false := d.close_answering

theorem close_generation (d : Deck) : d.close.generation = d.generation := by
  unfold close
  split <;> rfl

/-- What an event does to the deck, and what is posted. -/
def step (d : Deck) : Event F → Deck × List (Post F)
  | .server .speechStarted =>
    if d.state = .speaking ∨ d.state = .thinking then (d.rest, [.flush])
    else ({ d with state := .listening }, [])
  | .server .created =>
    ({ d.close with
      answering := true, state := .thinking, generation := d.generation + 1, queued := 0,
      played := 0, done := false }, [.reset (d.generation + 1)])
  | .server (.audio (some pcm)) =>
    if d.answering then
      ({ d with queued := d.queued + pcm.length, state := .speaking }, [.pcm pcm])
    else (d, [])
  | .server .cancelled => (d.rest, [.flush])
  | .server .done =>
    let d := { d with done := true }
    (if d.queued ≤ d.played then d.rest else d, [])
  | .report generation played =>
    (if generation ≠ d.generation then d
      else if d.done ∧ d.queued ≤ played then { d with played := played }.rest
      else { d with played := played }, [])
  | .cancel => (d.rest, [.flush])
  | .clearHistory => if d.answering then (d.rest, [.flush]) else (d, [])
  | .ready => ({ d with state := .listening }, [])
  | .dropped => (d.rest, [.flush])
  | _ => (d, [])

end Deck

/-- A client with a worklet got from `t` to `t'`, which has the deck `d`, and posted `ps`. -/
structure Deals (t t' : Talk F) (d : Deck) (ps : List (Post F)) : Prop where
  duplex : t'.duplex = true
  deck : t'.deck = d
  posts : postsOf t'.out = postsOf t.out ++ ps

namespace Deals

variable {t t' t'' : Talk F} {d : Deck} {ps : List (Post F)}

theorem refl (h : t.duplex = true) : Deals t t t.deck [] := ⟨h, rfl, (List.append_nil _).symm⟩

/-- Fields change. -/
theorem fields (hduplex : t'.duplex = true) (hout : t'.out = t.out) : Deals t t' t'.deck [] :=
  ⟨hduplex, rfl, by rw [hout, List.append_nil]⟩

theorem emit (h : Deals t t' d ps) {o : Output F} (ho : ∀ p, o ≠ .post p) :
    Deals t (t'.emit o) d ps := by
  refine ⟨h.duplex, h.deck, ?_⟩
  have hnone : postsOf [o] = [] := by
    cases o with
    | post p => exact absurd rfl (ho p)
    | _ => rfl
  show postsOf (t'.out ++ [o]) = _
  rw [postsOf_append, hnone, List.append_nil, h.posts]

theorem send (h : Deals t t' d ps) (f : ClientFrame) : Deals t (t'.send f) d ps := by
  unfold Talk.send
  split
  · exact h.emit (by simp)
  · exact h

theorem pushHistory (h : Deals t t' d ps) : Deals t t'.pushHistory d ps := (h.send _).emit (by simp)

theorem post (h : Deals t t' d ps) (p : Post F) : Deals t (t'.post p) d (ps ++ [p]) := by
  unfold Talk.post
  rw [if_pos h.duplex]
  refine ⟨h.duplex, h.deck, ?_⟩
  show postsOf (t'.out ++ [.post p]) = _
  rw [postsOf_append, h.posts, List.append_assoc]
  rfl

theorem setState (h : Deals t t' d ps) (s : State) :
    Deals t (t'.setState s) { d with state := s } ps := by
  obtain rfl := h.deck
  rw [Talk.setState_eq]
  refine ⟨h.duplex, rfl, ?_⟩
  have hnone : postsOf (t'.told s) = [] := by
    unfold Talk.told
    split <;> rfl
  rw [postsOf_append, hnone, List.append_nil, h.posts]

theorem closeAnswer (h : Deals t t' d ps) : Deals t t'.closeAnswer d.close ps := by
  obtain rfl := h.deck
  cases hanswering : t'.answering with
  | false =>
    rw [t'.closeAnswer_idle hanswering]
    have hclose : t'.deck.close = t'.deck := if_neg (by simp [Talk.deck, hanswering])
    rw [hclose]
    exact h
  | true =>
    have hclose : t'.deck.close = { t'.deck with answering := false, done := false } :=
      if_pos hanswering
    rw [t'.closeAnswer_eq hanswering, hclose]
    refine ⟨h.duplex, rfl, ?_⟩
    have hnone : postsOf (t'.sent (.history (t'.history ++ t'.files))) = [] := by
      unfold Talk.sent
      split <;> rfl
    dsimp only
    rw [postsOf_append, postsOf_append, postsOf_append, hnone, h.posts]
    simp [postsOf]

theorem setHistory (h : Deals t t' d ps) (messages : List S2SMessage) :
    Deals t (t'.setHistory messages) d ps := by
  have hfields : Deals t { t' with history := messages.map S2SMessage.bare, userItem := [] } d ps :=
    ⟨h.duplex, h.deck, h.posts⟩
  exact hfields.pushHistory

/-- The answer in flight closes, and the client listens. -/
theorem rest (h : Deals t t' d ps) : Deals t (t'.closeAnswer.setState .listening) d.rest ps :=
  h.closeAnswer.setState _

end Deals

/-- An event that leaves the worklet there. -/
def Event.Keeps : Event F → Prop
  | .stop => False
  | .ended => False
  | _ => True

section Step

variable {t : Talk F} (h : t.duplex = true)
include h

/-- What the server sends. -/
theorem deals_server (e : ServerEvent F) :
    Deals t (t.onServerEvent e) (t.deck.step (.server e)).1 (t.deck.step (.server e)).2 := by
  have hrefl := Deals.refl h
  have htold : ∀ {o : Output F}, (∀ p, o ≠ .post p) →
      Deals t (if t.answering then t.emit o else t) t.deck [] := fun ho => by
    split
    · exact hrefl.emit ho
    · exact hrefl
  cases e with
  | sessionUpdated voice =>
    rcases voice with - | ⟨voice, effect⟩
    · exact hrefl
    · have hfields : Deals t { t with
          options := { t.options with voice := voice, effect := effect } } t.deck [] := .fields h rfl
      exact hfields.emit (by simp)
  | speechStarted =>
    have hstarted : Deals t (t.onServerEvent .speechStarted)
        (if t.state = .speaking ∨ t.state = .thinking then (t.deck.rest, [.flush])
          else ({ t.deck with state := .listening }, []) : Deck × List (Post F)).1
        (if t.state = .speaking ∨ t.state = .thinking then (t.deck.rest, [.flush])
          else ({ t.deck with state := .listening }, []) : Deck × List (Post F)).2 := by
      unfold Talk.onServerEvent
      dsimp only
      split
      · exact (hrefl.post .flush).rest
      · exact hrefl.setState _
    exact hstarted
  | transcript text item =>
    have hfields : Deals t { t with
        history := (t.onTranscript text item).history, userItem := item } t.deck [] := .fields h rfl
    exact hfields.emit (by simp)
  | created =>
    have hclosed := hrefl.closeAnswer
    have hgeneration : t.closeAnswer.generation = t.generation :=
      (congrArg Deck.generation hclosed.deck).trans t.deck.close_generation
    have hopened : Deals t { t.closeAnswer with
        answering := true, answerDone := false, generation := t.closeAnswer.generation + 1,
        queuedSamples := 0, playedSamples := 0 }
        ⟨true, t.closeAnswer.state, t.closeAnswer.generation + 1, 0, 0, false⟩ [] :=
      ⟨hclosed.duplex, rfl, hclosed.posts⟩
    have hposted := ((hopened.post (.reset (t.closeAnswer.generation + 1))).emit
      (o := .assistantStart) (by simp)).setState .thinking
    refine ⟨hposted.duplex, hposted.deck.trans ?_, hposted.posts.trans ?_⟩
    · rw [hgeneration]
      rfl
    · rw [hgeneration]
      rfl
  | textDelta delta => exact htold (by simp)
  | toolStarted name => exact htold (by simp)
  | toolDone name ok ms bytes => exact htold (by simp)
  | spoken delta textEnd =>
    unfold Talk.onServerEvent
    dsimp only
    split
    · have hfields : Deals t { t with units := t.units ++ [SpokenUnit.mk delta t.queuedSamples] }
          t.deck [] := .fields h rfl
      exact hfields.emit (by simp)
    · exact hrefl
  | audio pcm =>
    cases pcm with
    | none =>
      unfold Talk.onServerEvent
      dsimp only
      split <;> exact hrefl
    | some pcm =>
      have hheard : Deals t (t.onServerEvent (.audio (some pcm)))
          (if t.answering then
            ({ t.deck with queued := t.queuedSamples + pcm.length, state := .speaking }, [.pcm pcm])
            else (t.deck, []) : Deck × List (Post F)).1
          (if t.answering then
            ({ t.deck with queued := t.queuedSamples + pcm.length, state := .speaking }, [.pcm pcm])
            else (t.deck, []) : Deck × List (Post F)).2 := by
        unfold Talk.onServerEvent
        dsimp only
        split
        · have hfields : Deals t { t with queuedSamples := t.queuedSamples + pcm.length }
              { t.deck with queued := t.queuedSamples + pcm.length } [] := .fields h rfl
          exact (hfields.post (.pcm pcm)).setState .speaking
        · exact hrefl
      exact hheard
  | cancelled => exact (hrefl.post .flush).rest
  | done =>
    have hfields : Deals t { t with answerDone := true } { t.deck with done := true } [] :=
      .fields h rfl
    show Deals t _ (if t.queuedSamples ≤ t.playedSamples then Deck.rest { t.deck with done := true }
      else { t.deck with done := true }) []
    unfold Talk.onServerEvent
    dsimp only
    split
    · exact hfields.rest
    · exact hfields
  | error message => exact hrefl.emit (by simp)
  | other => exact hrefl

/-- **What a client does to its worklet, the deck tells.** -/
theorem deals_step {e : Event F} (he : e.Keeps) :
    Deals t (t.step e) (t.deck.step e).1 (t.deck.step e).2 := by
  have hrefl := Deals.refl h
  cases e with
  | server e => exact deals_server h e
  | report generation played =>
    have hplayed : Deals t { t with playedSamples := played } { t.deck with played := played } [] :=
      .fields h rfl
    have hreported : Deals t (t.onReport generation played)
        (if generation ≠ t.generation then t.deck
          else if t.answerDone ∧ t.queuedSamples ≤ played then
            Deck.rest { t.deck with played := played }
          else { t.deck with played := played }) [] := by
      unfold Talk.onReport
      split
      · exact hrefl
      · dsimp only
        split
        · exact hplayed.rest
        · exact hplayed
    exact hreported
  | cancel => exact ((hrefl.send .responseCancel).post .flush).rest
  | setHistory messages => exact hrefl.setHistory messages
  | clearHistory =>
    have hcleared : Deals t t.clearHistory
        (if t.answering then (t.deck.rest, [.flush]) else (t.deck, []) : Deck × List (Post F)).1
        (if t.answering then (t.deck.rest, [.flush]) else (t.deck, []) : Deck × List (Post F)).2 := by
      unfold Talk.clearHistory
      dsimp only
      split
      · rename_i hanswering
        have hflushed := (hrefl.send .responseCancel).post .flush
        have hclosed : t.deck.close = { t.deck with answering := false, done := false } :=
          if_pos hanswering
        have hrest : Deals t (((({ (t.send .responseCancel).flushPlayback with
            units := [], answerDone := false, answering := false } : Talk F).emit
              .assistantEnd)).setState .listening) t.deck.rest [.flush] := by
          have hfields : Deals t { (t.send .responseCancel).flushPlayback with
              units := [], answerDone := false, answering := false } t.deck.close [.flush] := by
            rw [hclosed, ← hflushed.deck]
            exact ⟨hflushed.duplex, rfl, hflushed.posts⟩
          exact (hfields.emit (by simp)).setState _
        exact hrest.setHistory []
      · exact hrefl.setHistory []
    exact hcleared
  | update options =>
    have hfields : Deals t { t with options := options } t.deck [] := .fields h rfl
    exact hfields.send _
  | prepared => exact .fields rfl rfl
  | opened =>
    have hfields : Deals t { t with connected := true } t.deck [] := .fields h rfl
    exact (hfields.send _).pushHistory
  | ready => exact hrefl.setState _
  | stop => exact he.elim
  | ended => exact he.elim
  | dropped =>
    have hfields : Deals t { t with connected := false } t.deck [] := .fields h rfl
    have hclosed := (hfields.post .flush).closeAnswer
    have hforgot : Deals t ({ t with connected := false } : Talk F).flushPlayback.closeAnswer.forgetTurns
        t.deck.close [.flush] := ⟨hclosed.duplex, hclosed.deck, hclosed.posts⟩
    exact hforgot.setState _

end Step

/-! ### The worklet -/

/-- What a worklet comes to: how many samples wait, how many were played, and of which answer. -/
structure Tape where
  waiting : ℕ
  played : ℕ
  generation : ℕ

/-- A message is handled. -/
def Tape.onMessage (s : Tape) : Post F → Tape
  | .pcm samples => { s with waiting := s.waiting + samples.length }
  | .flush => { s with waiting := 0 }
  | .reset generation => { s with played := 0, generation := generation }

/-- **Nothing is on its way**: every sample queued for the answer in flight was played or waits, and
with none in flight no sample waits. -/
structure Rests (d : Deck) (s : Tape) : Prop where
  generation : s.generation ≤ d.generation
  counted : d.answering = true → s.generation = d.generation ∧ s.played + s.waiting = d.queued ∧
    d.played ≤ s.played
  silent : d.answering = false → s.waiting = 0

/-- **What is on its way comes to rest**: no sample waits where a count is reset, for a later answer
than the one counted; and what is flushed is of no answer in flight. -/
def Lands (d : Deck) : Tape → List (Post F) → Prop
  | s, [] => Rests d s
  | s, .pcm samples :: port => Lands d (s.onMessage (.pcm samples)) port
  | s, .flush :: port =>
    (d.answering = true → ∃ generation, .reset generation ∈ port) ∧
      Lands d (s.onMessage (.flush : Post F)) port
  | s, .reset generation :: port =>
    s.waiting = 0 ∧ s.generation < generation ∧
      Lands d (s.onMessage (.reset generation : Post F)) port

namespace Lands

variable {d d' : Deck} {s s' : Tape} {port ps : List (Post F)}

theorem rests (h : Lands d s port) : Rests d (port.foldl Tape.onMessage s) := by
  induction port generalizing s with
  | nil => exact h
  | cons p port ih =>
    cases p with
    | pcm samples => exact ih h
    | flush => exact ih h.2
    | reset generation => exact ih h.2.2

/-- **No sample waits where a count is reset.** -/
theorem dry {before after : List (Post F)} {generation : ℕ}
    (h : Lands d s (before ++ .reset generation :: after)) :
    (before.foldl Tape.onMessage s).waiting = 0 := by
  induction before generalizing s with
  | nil => exact h.1
  | cons p before ih =>
    cases p with
    | pcm samples => exact ih h
    | flush => exact ih h.2
    | reset generation => exact ih h.2.2

theorem generation_le (h : Lands d s port) : s.generation ≤ d.generation := by
  induction port generalizing s with
  | nil => exact h.generation
  | cons p port ih =>
    cases p with
    | pcm samples => exact ih (s := s.onMessage (.pcm samples)) h
    | flush => exact ih (s := s.onMessage (.flush : Post F)) h.2
    | reset generation =>
      have hlast : generation ≤ d.generation := ih h.2.2
      have hfirst := h.2.1
      omega

/-- More is posted. -/
theorem append (h : Lands d s port) (hps : ∀ s, Rests d s → Lands d' s ps)
    (hanswering : d'.answering = true → d.answering = true ∨ ∃ generation, .reset generation ∈ ps) :
    Lands d' s (port ++ ps) := by
  induction port generalizing s with
  | nil => exact hps s h
  | cons p port ih =>
    cases p with
    | pcm samples => exact ih h
    | flush =>
      refine ⟨fun hans => ?_, ih h.2⟩
      rcases hanswering hans with hans | ⟨generation, hin⟩
      · obtain ⟨generation, hin⟩ := h.1 hans
        exact ⟨generation, List.mem_append_left _ hin⟩
      · exact ⟨generation, List.mem_append_right _ hin⟩
    | reset generation => exact ⟨h.1, h.2.1, ih h.2.2⟩

/-- Nothing is posted. -/
theorem mono (h : Lands d s port) (hrests : ∀ s, Rests d s → Rests d' s)
    (hanswering : d'.answering = true → d.answering = true) : Lands d' s port := by
  have happended : Lands d' s (port ++ []) := h.append hrests fun hans => .inl (hanswering hans)
  rwa [List.append_nil] at happended

/-- Nothing is posted, and the worklet counts for the last answer already. -/
theorem counting (h : Lands d s port) (hgeneration : d.generation ≤ s.generation)
    (hrests : ∀ s', s'.played = s.played → Rests d s' → Rests d' s')
    (hanswering : d'.answering = true → d.answering = true) : Lands d' s port := by
  induction port generalizing s with
  | nil => exact hrests s rfl h
  | cons p port ih =>
    cases p with
    | pcm samples => exact ih h hgeneration hrests
    | flush =>
      exact ⟨fun hans => h.1 (hanswering hans), ih h.2 hgeneration hrests⟩
    | reset generation =>
      have hlast : generation ≤ d.generation := generation_le h.2.2
      have hfirst := h.2.1
      omega

/-- A count that is going to be reset does not matter. -/
theorem recount (h : Lands d s port) (hwaiting : s'.waiting = s.waiting)
    (hgeneration : s'.generation = s.generation)
    (hreset : d.answering = true → ∃ generation, .reset generation ∈ port) : Lands d s' port := by
  induction port generalizing s s' with
  | nil =>
    refine ⟨hgeneration ▸ h.generation, fun hans => ?_, fun hans => hwaiting.trans (h.silent hans)⟩
    obtain ⟨generation, hin⟩ := hreset hans
    simp at hin
  | cons p port ih =>
    have hrest : ∀ {p : Post F}, (∀ generation, p ≠ .reset generation) →
        (d.answering = true → ∃ generation, .reset generation ∈ p :: port) →
        d.answering = true → ∃ generation, .reset generation ∈ port := fun hp hreset hans => by
      obtain ⟨generation, hin⟩ := hreset hans
      rcases List.mem_cons.1 hin with heq | hin
      · exact absurd heq.symm (hp generation)
      · exact ⟨generation, hin⟩
    cases p with
    | pcm samples =>
      exact ih h (congrArg (· + samples.length) hwaiting) hgeneration (hrest (by simp) hreset)
    | flush => exact ⟨h.1, ih h.2 rfl hgeneration (hrest (by simp) hreset)⟩
    | reset generation =>
      have hsame : s'.onMessage (.reset generation : Post F) = s.onMessage (.reset generation : Post F) :=
        by rw [Tape.onMessage, Tape.onMessage, hwaiting]
      exact ⟨hwaiting.trans h.1, hgeneration ▸ h.2.1, by rw [hsame]; exact h.2.2⟩

/-- **Samples are played.** -/
theorem pull (h : Lands d s port) (n : ℕ) (hwaiting : s'.waiting + n = s.waiting)
    (hplayed : s'.played = s.played + n) (hgeneration : s'.generation = s.generation) :
    Lands d s' port := by
  induction port generalizing s s' with
  | nil =>
    refine ⟨hgeneration ▸ h.generation, fun hans => ?_, fun hans => ?_⟩
    · obtain ⟨hgen, hsum, hle⟩ := h.counted hans
      exact ⟨hgeneration.trans hgen, by omega, by omega⟩
    · have := h.silent hans
      omega
  | cons p port ih =>
    cases p with
    | pcm samples =>
      refine ih h ?_ hplayed hgeneration
      show s'.waiting + samples.length + n = s.waiting + samples.length
      omega
    | flush => exact ⟨h.1, h.2.recount rfl hgeneration h.1⟩
    | reset generation =>
      have hdry := h.1
      have hsame : s'.onMessage (.reset generation : Post F) = s.onMessage (.reset generation : Post F) := by
        have hzero : s'.waiting = s.waiting := by omega
        rw [Tape.onMessage, Tape.onMessage, hzero]
      exact ⟨by omega, hgeneration ▸ h.2.1, by rw [hsame]; exact h.2.2⟩

/-- The answer in flight is flushed, and closes. -/
theorem flushed (h : Lands d s port) : Lands d.rest s (port ++ [.flush]) := by
  refine h.append (fun s hs => ⟨fun hans => ?_, ?_⟩) fun hans => ?_
  · rw [d.rest_answering] at hans
    simp at hans
  · refine ⟨hs.generation.trans_eq d.close_generation.symm, fun hans => ?_, fun _ => rfl⟩
    rw [d.rest_answering] at hans
    simp at hans
  · rw [d.rest_answering] at hans
    simp at hans

/-- All of an answer was played when it closes. -/
theorem closed (hs : Rests d s) (hqueued : d.answering = true → d.queued ≤ s.played) :
    Rests d.rest s := by
  refine ⟨hs.generation.trans_eq d.close_generation.symm, fun hans => ?_, fun _ => ?_⟩
  · rw [d.rest_answering] at hans
    simp at hans
  · cases hanswering : d.answering with
    | false => exact hs.silent hanswering
    | true =>
      obtain ⟨-, hsum, -⟩ := hs.counted hanswering
      have := hqueued hanswering
      omega

/-- **Whatever the client does, what it posted lands**: it opens no answer while samples of another
are queued, and is told of samples that were played. -/
theorem step (h : Lands d s port) {e : Event F}
    (hopen : e = .server .created → d.answering = true → d.queued = 0)
    (hreport : ∀ played, e = .report d.generation played →
      d.generation ≤ s.generation ∧ played ≤ s.played) :
    Lands (d.step e).1 s (port ++ (d.step e).2) := by
  have hnone : ∀ {d'}, Lands d' s port → Lands d' s (port ++ ([] : List (Post F))) := fun hd => by
    rwa [List.append_nil]
  have hsame : Lands d s (port ++ ([] : List (Post F))) := hnone h
  have hstate : ∀ state, Lands { d with state := state } s (port ++ ([] : List (Post F))) :=
    fun state => hnone (h.mono (fun s hs => ⟨hs.generation, hs.counted, hs.silent⟩) id)
  cases e with
  | server e =>
    cases e with
    | speechStarted =>
      unfold Deck.step
      dsimp only
      split
      · exact h.flushed
      · exact hstate _
    | created =>
      have hdry : ∀ s, Rests d s → s.waiting = 0 := fun s hs => by
        cases hanswering : d.answering with
        | false => exact hs.silent hanswering
        | true =>
          obtain ⟨-, hsum, -⟩ := hs.counted hanswering
          have := hopen rfl hanswering
          omega
      refine h.append (fun s hs => ⟨hdry s hs, Nat.lt_succ_of_le hs.generation, le_rfl, fun _ =>
        ⟨rfl, ?_, Nat.zero_le _⟩, Bool.noConfusion⟩) fun _ => .inr ⟨_, List.mem_singleton_self _⟩
      show 0 + s.waiting = 0
      rw [hdry s hs]
    | audio pcm =>
      cases pcm with
      | none => exact hsame
      | some pcm =>
        unfold Deck.step
        dsimp only
        split
        · rename_i hanswering
          refine h.append (fun s hs => ⟨hs.generation, fun _ => ?_, fun hans => ?_⟩) fun _ =>
            .inl hanswering
          · obtain ⟨hgeneration, hsum, hle⟩ := hs.counted hanswering
            refine ⟨hgeneration, ?_, hle⟩
            show s.played + (s.waiting + pcm.length) = d.queued + pcm.length
            omega
          · have hbusy : d.answering = false := hans
            simp [hanswering] at hbusy
        · exact hsame
    | cancelled => exact h.flushed
    | done =>
      have hdone : Lands { d with done := true } s port :=
        h.mono (fun s hs => ⟨hs.generation, hs.counted, hs.silent⟩) id
      unfold Deck.step
      dsimp only
      refine hnone ?_
      split
      · rename_i hqueued
        refine hdone.mono (fun s hs => closed hs fun hanswering => ?_) fun hans => ?_
        · exact hqueued.trans (hs.counted hanswering).2.2
        · rw [Deck.rest_answering] at hans
          simp at hans
      · exact hdone
    | _ => exact hsame
  | report generation played =>
    unfold Deck.step
    dsimp only
    refine hnone ?_
    split
    · exact h
    · rename_i hgeneration
      obtain rfl : generation = d.generation := by simpa using hgeneration
      obtain ⟨hcounting, hplayed⟩ := hreport played rfl
      have hset : ∀ s', s'.played = s.played → Rests d s' → Rests { d with played := played } s' :=
        fun s' heq hs => ⟨hs.generation, fun hanswering => by
          obtain ⟨hgen, hsum, -⟩ := hs.counted hanswering
          exact ⟨hgen, hsum, hplayed.trans_eq heq.symm⟩, hs.silent⟩
      split
      · rename_i hover
        refine h.counting hcounting (fun s' heq hs => closed (hset s' heq hs) fun _ => ?_) fun hans => ?_
        · exact hover.2.trans (hplayed.trans_eq heq.symm)
        · rw [Deck.rest_answering] at hans
          simp at hans
      · exact h.counting hcounting hset id
  | cancel => exact h.flushed
  | clearHistory =>
    unfold Deck.step
    dsimp only
    split
    · exact h.flushed
    · exact hsame
  | ready => exact hstate _
  | dropped => exact h.flushed
  | _ => exact hsame

end Lands

/-! ### The worklet itself -/

/-- Samples in every chunk, and the offset within the first one. -/
structure Duplex.Whole (d : Duplex F) : Prop where
  full : ∀ chunk ∈ d.queue, chunk ≠ []
  offset : d.offset = 0 ∨ ∃ chunk rest, d.queue = chunk :: rest ∧ d.offset < chunk.length

/-- Samples, if it is samples. -/
def Post.Full : Post F → Prop
  | .pcm samples => samples ≠ []
  | _ => True

/-- What a worklet comes to. -/
def Duplex.tape (d : Duplex F) : Tape := ⟨d.waiting.length, d.played, d.generation⟩

namespace Duplex.Whole

variable [Zero F] {d : Duplex F}

omit [Zero F] in
theorem plays (h : d.Whole) : ∃ s : Playback F, Plays d s :=
  ⟨{ posted := d.waiting, taken := 0, played := d.played, generation := d.generation,
     taken_le := Nat.zero_le _ }, List.drop_zero.symm, h.offset, rfl, rfl⟩

theorem onMessage (h : d.Whole) {p : Post F} (hp : p.Full) :
    (d.onMessage p).Whole ∧ (d.onMessage p).tape = d.tape.onMessage p := by
  obtain ⟨s, hplays⟩ := h.plays
  refine ⟨⟨?_, (hplays.onMessage p).offset⟩, ?_⟩
  · cases p with
    | pcm samples =>
      intro chunk hchunk
      rcases List.mem_append.1 hchunk with hin | hin
      · exact h.full chunk hin
      · rw [List.mem_singleton.1 hin]
        exact hp
    | flush => exact fun chunk hchunk => by simp [Duplex.onMessage] at hchunk
    | reset generation => exact h.full
  · cases p with
    | pcm samples =>
      have hle := hplays.offset_le
      simp only [Duplex.tape, Tape.onMessage, Duplex.onMessage, Duplex.waiting, List.flatten_append,
        List.length_drop, List.length_append, List.flatten_singleton, Tape.mk.injEq, and_true]
      omega
    | flush => rfl
    | reset generation => rfl

/-- **A pull plays one sample, if one waits.** -/
theorem advance (h : d.Whole) : d.advance.Whole ∧ ∃ n, d.advance.tape.waiting + n = d.tape.waiting ∧
    d.advance.tape.played = d.tape.played + n ∧ d.advance.tape.generation = d.tape.generation := by
  obtain ⟨s, hplays⟩ := h.plays
  have hclear : d.queue.head? ≠ some [] := fun hempty => h.full [] (List.mem_of_head? hempty) rfl
  have hnext := (hplays.advance hclear).1
  have hqueue : d.advance.queue ⊆ d.queue := by
    unfold Duplex.advance Duplex.pull
    cases hq : d.queue with
    | nil => exact (hq ▸ List.Subset.refl _ : d.queue ⊆ [])
    | cons chunk rest =>
      dsimp only
      split
      · exact List.subset_cons_self _ _
      · exact List.Subset.refl _
  refine ⟨⟨fun chunk hchunk => h.full chunk (hqueue hchunk), hnext.offset⟩, ?_⟩
  have hwaiting : d.waiting = s.waiting := hplays.waiting
  have hwaiting' : d.advance.waiting = s.pull.1.waiting := hnext.waiting
  cases hs : s.waiting with
  | nil =>
    rw [Playback.pull_nil hs] at hwaiting' hnext
    exact ⟨0, by simp [Duplex.tape, hwaiting, hwaiting'],
      by simp [Duplex.tape, hnext.played, hplays.played],
      by simp [Duplex.tape, hnext.generation, hplays.generation]⟩
  | cons x rest =>
    obtain ⟨-, hrest, hplayed, hgeneration⟩ := Playback.pull_cons hs
    exact ⟨1, by simp [Duplex.tape, hwaiting, hwaiting', hrest, hs],
      by simp [Duplex.tape, hnext.played, hplays.played, hplayed],
      by simp [Duplex.tape, hnext.generation, hplays.generation, hgeneration]⟩

/-- Any number of pulls. -/
theorem pulls (h : d.Whole) (n : ℕ) : (Nat.iterate Duplex.advance n d).Whole ∧
    ∃ k, (Nat.iterate Duplex.advance n d).tape.waiting + k = d.tape.waiting ∧
      (Nat.iterate Duplex.advance n d).tape.played = d.tape.played + k ∧
      (Nat.iterate Duplex.advance n d).tape.generation = d.tape.generation := by
  induction n generalizing d with
  | zero => exact ⟨h, 0, rfl, rfl, rfl⟩
  | succ n ih =>
    obtain ⟨hnext, k, hwaiting, hplayed, hgeneration⟩ := h.advance
    obtain ⟨hend, k', hwaiting', hplayed', hgeneration'⟩ := ih hnext
    rw [Function.iterate_succ_apply]
    exact ⟨hend, k + k', by omega, by omega, hgeneration'.trans hgeneration⟩

theorem foldl (h : d.Whole) {port : List (Post F)} (hport : ∀ p ∈ port, p.Full) :
    (port.foldl Duplex.onMessage d).tape = port.foldl Tape.onMessage d.tape := by
  induction port generalizing d with
  | nil => rfl
  | cons p port ih =>
    obtain ⟨hfirst, hrest⟩ := List.forall_mem_cons.1 hport
    obtain ⟨hwhole, htape⟩ := h.onMessage hfirst
    rw [List.foldl_cons, List.foldl_cons, ← htape]
    exact ih hwhole hrest

end Duplex.Whole

end Client
end S2S
