/-
# What is recognized

Every commit goes to `pk_transcribe` once at most, in order, and so do the
transcripts that come back (`Recognitions`).  A commit is left out only when a
later revision of its turn has been reported (`Outdated`); until then it waits
in the queue, is worked on, or was recognized (`Placed`).

`RecognitionsAllow` is when a thread may take an action for this to stay so.
-/

import S2S.Conversation.Threads
import S2S.Conversation.Turns
import S2S.Session.Trace

namespace S2S
namespace Conversation

open Json Session

variable {F V S : Type}

/-! ### The log -/

/-- What was handed to `pk_transcribe`. -/
def recognitions (log : List (Entry F)) : List (ℕ × ℕ) :=
  log.filterMap fun
    | .work (.recognition turnId revision) _ => some (turnId, revision)
    | _ => none

/-- The recognition that each transcript frame came of, `last` the one before the log. -/
def heardFrom (last : Option (ℕ × ℕ)) : List (Entry F) → List (ℕ × ℕ)
  | [] => []
  | .work (.recognition turnId revision) _ :: log => heardFrom (some (turnId, revision)) log
  | .frame _ (.transcript _ _) :: log => last.toList ++ heardFrom last log
  | _ :: log => heardFrom last log

/-- The turn and the revision of each transcript frame. -/
def heard (log : List (Entry F)) : List (ℕ × ℕ) := heardFrom none log

/-- The items of the transcript frames. -/
def transcribed (log : List (Entry F)) : List Bytes :=
  log.filterMap fun
    | .frame _ (.transcript item _) => some item
    | _ => none

@[simp] theorem recognitions_append (l l' : List (Entry F)) :
    recognitions (l ++ l') = recognitions l ++ recognitions l' := List.filterMap_append

@[simp] theorem transcribed_append (l l' : List (Entry F)) :
    transcribed (l ++ l') = transcribed l ++ transcribed l' := List.filterMap_append

/-- What was recognized last, `last` before the log. -/
def lastFrom (last : Option (ℕ × ℕ)) (log : List (Entry F)) : Option (ℕ × ℕ) :=
  (recognitions log).getLast?.or last

theorem lastFrom_recognition (last : Option (ℕ × ℕ)) (turnId revision : ℕ) (cancelled : Bool)
    (log : List (Entry F)) : lastFrom last (.work (.recognition turnId revision) cancelled :: log)
      = lastFrom (some (turnId, revision)) log := by
  show ((turnId, revision) :: recognitions log).getLast?.or last = _
  rw [lastFrom, List.getLast?_cons]
  cases (recognitions log).getLast? <;> rfl

theorem heardFrom_append (last : Option (ℕ × ℕ)) (l l' : List (Entry F)) :
    heardFrom last (l ++ l') = heardFrom last l ++ heardFrom (lastFrom last l) l' := by
  induction l generalizing last with
  | nil => rfl
  | cons e l ih =>
    cases e with
    | work w cancelled =>
      cases w with
      | recognition turnId revision =>
        rw [lastFrom_recognition]
        exact ih _
      | _ => exact ih last
    | frame role f =>
      cases f with
      | transcript item text =>
        show last.toList ++ heardFrom last (l ++ l') = _
        rw [ih, ← List.append_assoc]
        rfl
      | _ => exact ih last
    | _ => exact ih last

theorem heard_append (l l' : List (Entry F)) :
    heard (l ++ l') = heard l ++ heardFrom (recognitions l).getLast? l' := by
  rw [heard, heardFrom_append, lastFrom, Option.or_none]
  rfl

/-- An entry about no recognition. -/
def Entry.Apart : Entry F → Prop
  | .work (.recognition _ _) _ => False
  | .frame _ (.transcript _ _) => False
  | _ => True

theorem Entry.Apart.log {e : Entry F} (h : e.Apart) (log : List (Entry F)) :
    recognitions (log ++ [e]) = recognitions log ∧ heard (log ++ [e]) = heard log ∧
      transcribed (log ++ [e]) = transcribed log := by
  rw [recognitions_append, transcribed_append, heard_append]
  cases e with
  | work w cancelled =>
    cases w <;> first | exact h.elim | simp [recognitions, heardFrom, transcribed]
  | frame role f =>
    cases f <;> first | exact h.elim | simp [recognitions, heardFrom, transcribed]
  | _ => simp [recognitions, heardFrom, transcribed]

/-! ### What is kept -/

/-- The turn and revision of a commit in the queue. -/
def TurnAudio.pair (turn : TurnAudio F) : ℕ × ℕ := (turn.turnId, turn.revision)

/-- A later revision of the turn was reported. -/
def Outdated (rs : List (Report F)) (p : ℕ × ℕ) : Prop :=
  ∃ r ∈ rs, r.Starts ∧ r.turnId = p.1 ∧ p.2 < r.revision

/-- `p` waits for the recognizer, is its work, or was. -/
def Entered (c : TurnState F V) (log : List (Entry F)) (p : ℕ × ℕ) : Prop :=
  p ∈ recognitions log ∨ c.recognizing = some p ∨ ∃ turn ∈ c.queue, turn.pair = p

/-- `p` needs nothing more. -/
def Settled (log : List (Entry F)) (p : ℕ × ℕ) : Prop :=
  p ∈ recognitions log ∨ Outdated (logged log) p

/-- `p` is on its way, or needs nothing more. -/
def Placed (c : TurnState F V) (log : List (Entry F)) (p : ℕ × ℕ) : Prop :=
  Settled log p ∨ c.recognizing = some p ∨ ∃ turn ∈ c.queue, turn.pair = p

/-- **What the recognitions keep.** -/
structure Recognitions (c : TurnState F V) (log : List (Entry F)) : Prop where
  sorted : (recognitions log).Pairwise Earlier
  queued : c.queue.Pairwise fun turn turn' => Earlier turn.pair turn'.pair
  before : ∀ p ∈ recognitions log, ∀ turn ∈ c.queue, Earlier p turn.pair
  working : ∀ p, c.recognizing = some p →
    (∀ q ∈ recognitions log, UpTo q p) ∧ ∀ turn ∈ c.queue, Earlier p turn.pair
  heard : (heard log).Pairwise Earlier
  heardOf : ∀ p ∈ Conversation.heard log, p ∈ recognitions log
  items : transcribed log = (Conversation.heard log).map fun p => itemId p.1
  opened : c.openTurn = 0 ∨ ∃ r ∈ logged log, r.Starts ∧ r.pair = c.opening
  entered : ∀ p, Entered c log p → 0 < p.1 ∧ p ∈ commitsOf (logged log)
  placed : ∀ p ∈ commitsOf (logged log), Placed c log p ∨
    ∃ r rest, c.due = r :: rest ∧ r.event = .turnCommitted ∧ r.pair = p
  traced : c.due = [] → Traced c.session.turn (logged log)

/-- When a thread may take an action, as far as the recognitions are concerned. -/
def RecognitionsAllow (role : Role) (a : Act F) (m : Memory F V) : Prop :=
  match a with
  | .ask (.transcribe turn) => role = .recognizer ∧ m.recognizing = some turn.pair ∧
      ∀ p ∈ recognitions m.log, Earlier p turn.pair
  | .send (.transcript item _) => ∃ p, (recognitions m.log).getLast? = some p ∧
      item = itemId p.1 ∧ ∀ q ∈ heard m.log, Earlier q p
  | .pushAnswer job => Settled m.log (job.turnId, job.revision)
  | .session op => role = .recognizer → ∀ turnId revision : ℤ, op = .release turnId revision →
      ∀ p, m.recognizing = some p → Settled m.log p
  | .callback r => ∃ rest, m.due = r :: rest
  | .returned => ∀ r rest, m.due = r :: rest →
      (r.event = .turnCommitted → Placed m.toTurnState m.log r.pair) ∧
        (rest = [] → Traced m.session.turn (logged m.log))
  | .opened turnId revision => ∃ r ∈ logged m.log, r.Starts ∧ r.pair = (turnId, revision)
  | .enqueue turn => 0 < turn.turnId ∧ turn.pair ∈ commitsOf (logged m.log) ∧
      ∀ p, Entered m.toTurnState m.log p → Earlier p turn.pair
  | _ => True

theorem Outdated.append {rs : List (Report F)} {p : ℕ × ℕ} (h : Outdated rs p)
    (rs' : List (Report F)) : Outdated (rs ++ rs') p := by
  obtain ⟨r, hr, hlater⟩ := h
  exact ⟨r, List.mem_append_left _ hr, hlater⟩

theorem Settled.append {log : List (Entry F)} {p : ℕ × ℕ} (h : Settled log p)
    (log' : List (Entry F)) : Settled (log ++ log') p := by
  unfold Settled
  rw [recognitions_append, logged_append]
  exact h.imp (List.mem_append_left _) fun h => h.append _

theorem Placed.append {c : TurnState F V} {log : List (Entry F)} {p : ℕ × ℕ} (h : Placed c log p)
    (log' : List (Entry F)) : Placed c (log ++ log') p := h.imp_left fun h => h.append log'

theorem nodup_of_earlier {l : List (ℕ × ℕ)} (h : l.Pairwise Earlier) : l.Nodup :=
  h.imp fun hearlier heq => by
    rw [heq] at hearlier
    unfold Earlier at hearlier
    omega

/-! ### Places -/

section Places

variable {c : TurnState F V} {log : List (Entry F)} {p : ℕ × ℕ}

theorem entered_popQueue {turn : TurnAudio F} {queue : List (TurnAudio F)}
    (hq : c.queue = turn :: queue) (hr : c.recognizing = none) :
    Entered { c with queue := queue, recognizing := some (turn.turnId, turn.revision) } log p ↔
      Entered c log p := by
  simp only [Entered, hq, hr, List.exists_mem_cons_iff, Option.some.injEq, reduceCtorEq, false_or]
  rfl

theorem placed_popQueue {turn : TurnAudio F} {queue : List (TurnAudio F)}
    (hq : c.queue = turn :: queue) (hr : c.recognizing = none) :
    Placed { c with queue := queue, recognizing := some (turn.turnId, turn.revision) } log p ↔
      Placed c log p := by
  simp only [Placed, hq, hr, List.exists_mem_cons_iff, Option.some.injEq, reduceCtorEq, false_or]
  rfl

theorem Entered.of_rests (answers : List AnswerJob)
    (h : Entered { c with answers := answers, recognizing := none } log p) : Entered c log p := by
  rcases h with hp | hp | hp
  · exact .inl hp
  · simp at hp
  · exact .inr (.inr hp)

theorem Placed.rests {answers : List AnswerJob} (h : Placed c log p)
    (hsettled : ∀ p, c.recognizing = some p → Settled log p) :
    Placed { c with answers := answers, recognizing := none } log p := by
  rcases h with hp | hp | hp
  · exact .inl hp
  · exact .inl (hsettled p hp)
  · exact .inr (.inr hp)

end Places

/-! ### Action by action -/

namespace Recognitions

variable {c : TurnState F V} {log : List (Entry F)} (h : Recognitions c log)
include h

/-- A longer log that says the same. -/
theorem same {log' : List (Entry F)} (hrec : recognitions log' = recognitions log)
    (hheard : Conversation.heard log' = Conversation.heard log)
    (hitems : transcribed log' = transcribed log) (hlogged : logged log' = logged log) :
    Recognitions c log' where
  sorted := hrec ▸ h.sorted
  queued := h.queued
  before := hrec ▸ h.before
  working := hrec ▸ h.working
  heard := hheard ▸ h.heard
  heardOf := by
    rw [hheard, hrec]
    exact h.heardOf
  items := by
    rw [hitems, hheard]
    exact h.items
  opened := hlogged ▸ h.opened
  entered := by
    unfold Entered
    rw [hrec, hlogged]
    exact h.entered
  placed := by
    unfold Placed Settled
    rw [hrec, hlogged]
    exact h.placed
  traced := hlogged ▸ h.traced

theorem apart {e : Entry F} (he : e.Apart) (hlogged : logged [e] = []) :
    Recognitions c (log ++ [e]) := by
  obtain ⟨hrec, hheard, hitems⟩ := he.log log
  exact h.same hrec hheard hitems (by rw [logged_append, hlogged, List.append_nil])

theorem callback {r : Report F} {rest : List (Report F)} (hdue : c.due = r :: rest) :
    Recognitions c (log ++ [.report r]) := by
  have he : (Entry.report r).Apart := trivial
  obtain ⟨hrec, hheard, hitems⟩ := he.log log
  have hlogged : logged (log ++ [.report r]) = logged log ++ [r] := by simp
  refine ⟨hrec ▸ h.sorted, h.queued, hrec ▸ h.before, hrec ▸ h.working, hheard ▸ h.heard,
    by rw [hheard, hrec]; exact h.heardOf, by rw [hitems, hheard]; exact h.items, ?_, ?_, ?_,
    fun hnone => by simp [hdue] at hnone⟩
  · refine h.opened.imp_right fun ⟨r', hr', hstarts⟩ => ⟨r', ?_, hstarts⟩
    rw [hlogged]
    exact List.mem_append_left _ hr'
  · intro p hp
    unfold Entered at hp
    rw [hrec] at hp
    obtain ⟨hpos, hmem⟩ := h.entered p hp
    rw [hlogged, commitsOf_append]
    exact ⟨hpos, List.mem_append_left _ hmem⟩
  · intro p hp
    rw [hlogged, commitsOf_append] at hp
    rcases List.mem_append.1 hp with hp | hp
    · exact (h.placed p hp).imp_left fun h => h.append _
    · obtain ⟨r', hr', hevent, hpair⟩ := mem_commitsOf.1 hp
      obtain rfl := List.mem_singleton.1 hr'
      exact .inr ⟨r', rest, hdue, hevent, hpair⟩

theorem recognition {p : ℕ × ℕ} (cancelled : Bool) (hrecognizing : c.recognizing = some p)
    (hnew : ∀ q ∈ recognitions log, Earlier q p) :
    Recognitions c (log ++ [.work (.recognition p.1 p.2) cancelled]) := by
  have hrec : recognitions (log ++ [.work (.recognition p.1 p.2) cancelled])
      = recognitions log ++ [p] := by
    rw [recognitions_append]
    rfl
  have hheard : Conversation.heard (log ++ [.work (.recognition p.1 p.2) cancelled])
      = Conversation.heard log := by
    rw [heard_append]
    exact List.append_nil _
  have hlogged : logged (log ++ [.work (.recognition p.1 p.2) cancelled]) = logged log := by
    rw [logged_append]
    exact List.append_nil _
  have hitems : transcribed (log ++ [.work (.recognition p.1 p.2) cancelled])
      = transcribed log := by
    rw [transcribed_append]
    exact List.append_nil _
  refine ⟨?_, h.queued, ?_, ?_, hheard ▸ h.heard, ?_, by rw [hitems, hheard]; exact h.items,
    hlogged ▸ h.opened, ?_, ?_, hlogged ▸ h.traced⟩
  · rw [hrec, List.pairwise_append]
    exact ⟨h.sorted, List.pairwise_singleton _ _, fun q hq p' hp' => by
      rw [List.mem_singleton.1 hp']; exact hnew q hq⟩
  · rw [hrec]
    intro q hq turn hturn
    rcases List.mem_append.1 hq with hq | hq
    · exact h.before q hq turn hturn
    · rw [List.mem_singleton.1 hq]
      exact (h.working p hrecognizing).2 turn hturn
  · intro p' hp'
    obtain rfl : p = p' := Option.some.inj (hrecognizing.symm.trans hp')
    refine ⟨fun q hq => ?_, (h.working p hrecognizing).2⟩
    rw [hrec] at hq
    rcases List.mem_append.1 hq with hq | hq
    · exact upTo_of_earlier (hnew q hq)
    · rw [List.mem_singleton.1 hq]
      exact UpTo.refl p
  · rw [hheard, hrec]
    exact fun q hq => List.mem_append_left _ (h.heardOf q hq)
  · intro q hq
    rw [hlogged]
    refine h.entered q ?_
    unfold Entered at hq ⊢
    rw [hrec] at hq
    rcases hq with hq | hq
    · rcases List.mem_append.1 hq with hq | hq
      · exact .inl hq
      · rw [List.mem_singleton.1 hq]
        exact .inr (.inl hrecognizing)
    · exact .inr hq
  · rw [hlogged]
    exact fun q hq => (h.placed q hq).imp_left fun h => h.append _

theorem transcript {p : ℕ × ℕ} (role : Role) (text : Bytes)
    (hlast : (recognitions log).getLast? = some p) (hnew : ∀ q ∈ Conversation.heard log, Earlier q p) :
    Recognitions c (log ++ [.frame role (.transcript (itemId p.1) text)]) := by
  have hrec : recognitions (log ++ [.frame role (.transcript (itemId p.1) text)])
      = recognitions log := by
    rw [recognitions_append]
    exact List.append_nil _
  have hheard : Conversation.heard (log ++ [.frame role (.transcript (itemId p.1) text)])
      = Conversation.heard log ++ [p] := by
    rw [heard_append, hlast]
    rfl
  have hlogged : logged (log ++ [.frame role (.transcript (itemId p.1) text)]) = logged log := by
    rw [logged_append]
    exact List.append_nil _
  refine ⟨hrec ▸ h.sorted, h.queued, hrec ▸ h.before, hrec ▸ h.working, ?_, ?_, ?_,
    hlogged ▸ h.opened, ?_, ?_, hlogged ▸ h.traced⟩
  · rw [hheard, List.pairwise_append]
    exact ⟨h.heard, List.pairwise_singleton _ _, fun q hq p' hp' => by
      rw [List.mem_singleton.1 hp']; exact hnew q hq⟩
  · rw [hheard, hrec]
    intro q hq
    rcases List.mem_append.1 hq with hq | hq
    · exact h.heardOf q hq
    · rw [List.mem_singleton.1 hq]
      exact List.mem_of_getLast? hlast
  · rw [transcribed_append, hheard, List.map_append, h.items]
    rfl
  · unfold Entered
    rw [hrec, hlogged]
    exact h.entered
  · rw [hlogged]
    exact fun q hq => (h.placed q hq).imp_left fun h => h.append _

/-- Nothing of it has moved. -/
theorem aside {c' : TurnState F V} (hqueue : c'.queue = c.queue)
    (hrec : c'.recognizing = c.recognizing) (hopen : c'.openTurn = c.openTurn)
    (hopening : c'.opening = c.opening) (hdue : c'.due = c.due) (hsession : c'.session = c.session) :
    Recognitions c' log where
  sorted := h.sorted
  queued := hqueue ▸ h.queued
  before := hqueue ▸ h.before
  working := by
    rw [hrec, hqueue]
    exact h.working
  heard := h.heard
  heardOf := h.heardOf
  items := h.items
  opened := by
    rw [hopen, hopening]
    exact h.opened
  entered := by
    unfold Entered
    rw [hrec, hqueue]
    exact h.entered
  placed := by
    unfold Placed
    rw [hrec, hqueue, hdue]
    exact h.placed
  traced := by
    rw [hdue, hsession]
    exact h.traced

theorem popQueue {turn : TurnAudio F} {queue : List (TurnAudio F)} (hq : c.queue = turn :: queue)
    (hr : c.recognizing = none) :
    Recognitions { c with queue := queue, recognizing := some (turn.turnId, turn.revision) } log := by
  have hqueued := h.queued
  have hbefore := h.before
  rw [hq] at hqueued hbefore
  obtain ⟨hhead, htail⟩ := List.pairwise_cons.1 hqueued
  refine ⟨h.sorted, htail, fun p hp turn' hturn' => hbefore p hp turn' (List.mem_cons_of_mem _ hturn'),
    fun p hp => ?_, h.heard, h.heardOf, h.items, h.opened,
    fun p hp => h.entered p ((entered_popQueue hq hr).1 hp),
    fun p hp => (h.placed p hp).imp_left (placed_popQueue hq hr).2, h.traced⟩
  obtain rfl := Option.some.inj hp
  exact ⟨fun q hmem => upTo_of_earlier (hbefore q hmem turn List.mem_cons_self), hhead⟩

/-- The recognizer is done with what it worked on. -/
theorem rests {answers : List AnswerJob} (hsettled : ∀ p, c.recognizing = some p → Settled log p) :
    Recognitions { c with answers := answers, recognizing := none } log :=
  ⟨h.sorted, h.queued, h.before, fun p hp => by simp at hp, h.heard, h.heardOf, h.items, h.opened,
    fun p hp => h.entered p (hp.of_rests answers),
    fun p hp => (h.placed p hp).imp_left fun hplaced => hplaced.rests hsettled, h.traced⟩

theorem enqueue {turn : TurnAudio F} (hpos : 0 < turn.turnId)
    (hcommit : turn.pair ∈ commitsOf (logged log))
    (hnew : ∀ p, Entered c log p → Earlier p turn.pair) :
    Recognitions { c with queue := c.queue ++ [turn] } log := by
  refine ⟨h.sorted, ?_, fun p hp turn' hturn' => ?_, fun p hp => ?_, h.heard, h.heardOf, h.items,
    h.opened, fun p hp => ?_, fun p hp => (h.placed p hp).imp_left fun hplaced => ?_, h.traced⟩
  · rw [List.pairwise_append]
    exact ⟨h.queued, List.pairwise_singleton _ _, fun turn' hturn' last hlast => by
      rw [List.mem_singleton.1 hlast]; exact hnew _ (.inr (.inr ⟨turn', hturn', rfl⟩))⟩
  · rcases List.mem_append.1 hturn' with hturn' | hturn'
    · exact h.before p hp turn' hturn'
    · rw [List.mem_singleton.1 hturn']
      exact hnew p (.inl hp)
  · refine ⟨(h.working p hp).1, fun turn' hturn' => ?_⟩
    rcases List.mem_append.1 hturn' with hturn' | hturn'
    · exact (h.working p hp).2 turn' hturn'
    · rw [List.mem_singleton.1 hturn']
      exact hnew p (.inr (.inl hp))
  · rcases hp with hp | hp | ⟨turn', hturn', rfl⟩
    · exact h.entered p (.inl hp)
    · exact h.entered p (.inr (.inl hp))
    · rcases List.mem_append.1 hturn' with hturn' | hturn'
      · exact h.entered _ (.inr (.inr ⟨turn', hturn', rfl⟩))
      · rw [List.mem_singleton.1 hturn']
        exact ⟨hpos, hcommit⟩
  · rcases hplaced with hp | hp | ⟨turn', hturn', hpair⟩
    · exact .inl hp
    · exact .inr (.inl hp)
    · exact .inr (.inr ⟨turn', List.mem_append_left _ hturn', hpair⟩)

theorem openedOn {turnId revision : ℕ}
    (hstarts : ∃ r ∈ logged log, r.Starts ∧ r.pair = (turnId, revision)) :
    Recognitions { c with openTurn := turnId, openRevision := revision } log :=
  ⟨h.sorted, h.queued, h.before, h.working, h.heard, h.heardOf, h.items, .inr hstarts, h.entered,
    h.placed, h.traced⟩

theorem returned {r : Report F} {rest : List (Report F)} (hdue : c.due = r :: rest)
    (hplace : r.event = .turnCommitted → Placed c log r.pair)
    (htraced : rest = [] → Traced c.session.turn (logged log)) :
    Recognitions { c with due := rest } log := by
  refine ⟨h.sorted, h.queued, h.before, h.working, h.heard, h.heardOf, h.items, h.opened, h.entered,
    fun p hp => .inl ?_, htraced⟩
  rcases h.placed p hp with hplaced | ⟨r', rest', hdue', hevent, rfl⟩
  · exact hplaced
  · obtain ⟨rfl, -⟩ := List.cons.inj (hdue.symm.trans hdue')
    exact hplace hevent

/-- The events of a call are due. -/
theorem called {session : State F V} {due : List (Report F)} (hdue : c.due = [])
    (htraced : due = [] → Traced session.turn (logged log)) :
    Recognitions { c with session := session, due := due } log := by
  refine ⟨h.sorted, h.queued, h.before, h.working, h.heard, h.heardOf, h.items, h.opened, h.entered,
    fun p hp => .inl ?_, htraced⟩
  rcases h.placed p hp with hplaced | ⟨r', rest', hdue', -⟩
  · exact hplaced
  · simp [hdue] at hdue'

end Recognitions

theorem recognitions_new (P : Setup F V S) : Recognitions (Memory.new P).toTurnState [] where
  sorted := .nil
  queued := .nil
  before := by simp [recognitions]
  working := by simp [Memory.new]
  heard := .nil
  heardOf := by simp [heard, heardFrom]
  items := rfl
  opened := .inl rfl
  entered := by simp [Entered, recognitions, Memory.new]
  placed := by simp [commitsOf, logged]
  traced := fun _ => by
    show Traced (sessionNew P.models P.vad P.params).turn _
    rw [turn_sessionNew]
    exact .start

/-- A call of the session. -/
theorem Recognitions.apply {m : Memory F V} (M : Models F V) (hturns : Turns m.toTurnState (logged m.log))
    (h : Recognitions m.toTurnState m.log) {role : Role} {op : Op F} (hdue : m.due = [])
    (hallow : RecognitionsAllow role (.session op) m) :
    Recognitions (m.apply M role op).toTurnState m.log := by
  obtain ⟨t, hcall, hreports⟩ := call_reports M hturns.coherent op
  have hcalled : Recognitions { m.toTurnState with
      session := (Session.apply M m.session op).1, due := (Session.apply M m.session op).2 } m.log :=
    h.called hdue fun hnone => by
      rw [hnone] at hreports
      obtain rfl := Option.some.inj hreports
      exact (h.traced hdue).call hcall
  unfold Memory.apply
  dsimp only
  split
  · exact hcalled.rests (hallow rfl _ _ rfl)
  · exact hcalled.aside rfl rfl rfl rfl rfl rfl
  · exact hcalled

/-- **Every action keeps the recognitions**, taken when it is allowed. -/
theorem recognitions_keeps (P : Setup F V S) {role : Role} {a : Act F} {x : a.Input}
    {m m' : Memory F V} {r : a.Result} (hturns : Turns m.toTurnState (logged m.log))
    (h : Recognitions m.toTurnState m.log) (hturnsAllow : TurnsAllow role a m)
    (hallow : RecognitionsAllow role a m) (hexec : exec P role a x m = some (r, m')) :
    Recognitions m'.toTurnState m'.log := by
  have hlog := log_exec hexec
  by_cases hof : a.OfTurns
  · cases a with
    | session op =>
      obtain ⟨rfl, rfl⟩ := done_inj hexec
      rw [hlog]
      change Recognitions _ (m.log ++ [])
      rw [List.append_nil]
      exact h.apply P.models hturns hturnsAllow.2.1 hallow
    | popQueue =>
      rcases popQueue_cases hexec with ⟨-, rfl, rfl⟩ | ⟨turn, queue, hqueue, rfl, rfl⟩
      · exact h
      · exact h.popQueue hqueue hturnsAllow.2
    | pushAnswer job =>
      obtain ⟨rfl, rfl⟩ := done_inj hexec
      have hrests : Recognitions { m.toTurnState with
          answers := m.answers ++ [job], recognizing := none } m.log :=
        h.rests fun p hp => by
          obtain rfl := Option.some.inj (hturnsAllow.2.symm.trans hp)
          exact hallow
      exact hrests.apart (e := .gave job.turnId job.revision) trivial rfl
    | popAnswer =>
      rcases popAnswer_cases hexec with ⟨-, rfl, rfl⟩ | ⟨-, job, answers, hanswers, rfl, rfl⟩
      · exact h
      · have htook : Recognitions { m.toTurnState with
            answers := answers, answering := some (job.turnId, job.revision) } m.log :=
          h.aside rfl rfl rfl rfl rfl rfl
        exact htook.apart (e := .took job.turnId job.revision) trivial rfl
    | opened turnId revision =>
      obtain ⟨opening, cancel, rfl, rfl, -⟩ := opened_cases hexec
      rw [if_pos (hturnsAllow.2.2.imp_right fun h => ⟨h.1, h.2.1⟩)]
      exact h.openedOn hallow
    | lockSession =>
      obtain ⟨-, rfl⟩ := lockSession_cases hexec
      exact h.aside rfl rfl rfl rfl rfl rfl
    | unlockSession =>
      obtain ⟨rfl, rfl⟩ := done_inj hexec
      exact h.aside rfl rfl rfl rfl rfl rfl
    | returned =>
      obtain ⟨rfl, rfl⟩ := done_inj hexec
      change Recognitions { m.toTurnState with due := m.due.tail } m.log
      cases hdue : m.due with
      | nil =>
        have hsame : ({ m.toTurnState with due := [] } : TurnState F V) = m.toTurnState := by
          rw [← hdue]
        exact hsame ▸ h
      | cons r rest =>
        obtain ⟨hplace, htraced⟩ := hallow r rest hdue
        exact h.returned hdue hplace htraced
    | final turnId =>
      obtain ⟨rfl, rfl⟩ := done_inj hexec
      exact h.aside rfl rfl rfl rfl rfl rfl
    | enqueue turn =>
      obtain ⟨rfl, rfl⟩ := done_inj hexec
      exact h.enqueue hallow.1 hallow.2.1 hallow.2.2
    | _ => exact hof.elim
  · rw [turnState_exec hof hexec, hlog]
    have hquiet : a.logs role m r = [] → Recognitions m.toTurnState (m.log ++ a.logs role m r) :=
      fun hnone => by rw [hnone, List.append_nil]; exact h
    cases a with
    | ask query =>
      cases query with
      | transcribe turn => exact h.recognition m.cancel hallow.2.1 hallow.2.2
      | stream messages => exact h.apart (e := .work (.request messages) m.cancel) trivial rfl
      | gather => exact h.apart (e := .work .listing m.cancel) trivial rfl
      | call server name arguments => exact h.apart (e := .work (.tool name) m.cancel) trivial rfl
      | synthesize text => exact h.apart (e := .work (.synthesis text) m.cancel) trivial rfl
      | _ => exact hquiet rfl
    | send f =>
      cases f with
      | transcript item text =>
        obtain ⟨p, hlast, rfl, hnew⟩ := hallow
        exact h.transcript role text hlast hnew
      | _ => exact h.apart (e := .frame role _) trivial rfl
    | callback e =>
      obtain ⟨rest, hdue⟩ := hallow
      exact h.callback hdue
    | stopped => exact h.apart (e := .stopped) trivial rfl
    | _ => first | exact absurd trivial hof | exact hquiet rfl

end Conversation
end S2S
