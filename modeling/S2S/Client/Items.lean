/-
# The turns a line stands for

A user line names the turn it transcribes while its connection lasts: the server
drops it from the request of that very turn (`past`).  The next connection
counts its turns from one again, so a line that kept its item would be dropped
for a turn it has nothing to do with.  `teardown` and `reconnect` of
`src/tools/webui/src/lib/s2s.ts` strip the items (`forgetTurns`), `setHistory`
too, and only a transcript brings one: whatever item a line carries came over
the connection that is open (`items_known`).
-/

import S2S.Agent.Joined
import S2S.Client.Talk
import S2S.Conversation.Threads

namespace S2S
namespace Client

open Json Agent

variable {F : Type}

/-! ### Connections -/

/-- An event that opens or ends a connection, and which of both. -/
def Event.link : Event F → Option Bool
  | .opened => some true
  | .stop => some false
  | .ended => some false
  | .dropped => some false
  | _ => none

/-- The events since the connection opened or ended last. -/
def connection (events : List (Event F)) : List (Event F) :=
  events.foldl (fun since e => if e.link.isSome then [] else since ++ [e]) []

theorem connection_snoc (events : List (Event F)) (e : Event F) :
    connection (events ++ [e]) = if e.link.isSome then [] else connection events ++ [e] := by
  simp [connection, List.foldl_append]

/-- An event that changes the list of the host's own accord, or ends the connection. -/
def Event.Resets : Event F → Prop
  | .setHistory _ => True
  | .clearHistory => True
  | .stop => True
  | .ended => True
  | .dropped => True
  | _ => False

namespace Talk

section Small

variable (t : Talk F)

@[simp] theorem emit_connected (o : Output F) : (t.emit o).connected = t.connected := rfl

@[simp] theorem send_connected (f : ClientFrame) : (t.send f).connected = t.connected := by
  rw [send_eq]

@[simp] theorem post_connected (p : Post F) : (t.post p).connected = t.connected := by
  rw [post_eq]

@[simp] theorem flushPlayback_connected : t.flushPlayback.connected = t.connected :=
  t.post_connected _

@[simp] theorem setState_connected (s : State) : (t.setState s).connected = t.connected := by
  rw [setState_eq]

@[simp] theorem pushHistory_connected : t.pushHistory.connected = t.connected := by
  simp [pushHistory]

@[simp] theorem closeAnswer_connected : t.closeAnswer.connected = t.connected := by
  rcases Bool.eq_false_or_eq_true t.answering with h | h
  · rw [closeAnswer_eq t h]
  · rw [closeAnswer_idle t h]

end Small

/-! ### Items over a run -/

/-- Only `onopen` opens a connection, and `stop` and a drop end it. -/
theorem step_connected (t : Talk F) (e : Event F) :
    (t.step e).connected = e.link.getD t.connected := by
  cases e with
  | server e =>
    show (t.onServerEvent e).connected = t.connected
    cases e with
    | sessionUpdated voice => rcases voice with - | ⟨voice, effect⟩ <;> rfl
    | speechStarted =>
      rw [onServerEvent]
      split_ifs <;> simp
    | transcript text item => rfl
    | created => simp [onServerEvent]
    | audio pcm => cases pcm <;> rw [onServerEvent] <;> split_ifs <;> simp
    | cancelled => simp [onServerEvent]
    | done =>
      rw [onServerEvent]
      dsimp only
      split_ifs <;> simp
    | error message => rfl
    | other => rfl
    | _ =>
      rw [onServerEvent]
      split_ifs <;> rfl
  | report generation played =>
    show (t.onReport generation played).connected = t.connected
    unfold onReport
    dsimp only
    split_ifs <;> simp
  | cancel => simp [step, cancel, Event.link]
  | setHistory messages => simp [step, setHistory, Event.link]
  | clearHistory =>
    show t.clearHistory.connected = t.connected
    unfold clearHistory setHistory
    dsimp only
    split_ifs <;> simp
  | update options => simp [step, update, sendSessionUpdate, Event.link]
  | prepared => rfl
  | opened => simp [step, onOpen, sendSessionUpdate, Event.link]
  | ready => simp [step, Event.link]
  | stop => simp [step, teardown, Event.link]
  | ended => simp [step, teardown, Event.link]
  | dropped =>
    show t.reconnect.connected = false
    unfold reconnect forgetTurns
    simp

/-- The list grows: lines without an item stand behind it. -/
structure Grows (t t' : Talk F) : Prop where
  history : ∃ more, t'.history = t.history ++ more ∧ ∀ m ∈ more, m.item = none
  userItem : t'.userItem = t.userItem

namespace Grows

variable {t t' : Talk F}

theorem refl (t : Talk F) : t.Grows t := ⟨⟨[], by simp, by simp⟩, rfl⟩

/-- A step that leaves the list alone. -/
theorem same (h : t.Grows t') {t'' : Talk F} (hhistory : t''.history = t'.history)
    (hitem : t''.userItem = t'.userItem) : t.Grows t'' :=
  ⟨hhistory ▸ h.history, hitem.trans h.userItem⟩

theorem emit (h : t.Grows t') (o : Output F) : t.Grows (t'.emit o) := h.same rfl rfl

theorem send (h : t.Grows t') (f : ClientFrame) : t.Grows (t'.send f) := by
  rw [send_eq]
  exact h.same rfl rfl

theorem post (h : t.Grows t') (p : Post F) : t.Grows (t'.post p) := by
  rw [post_eq]
  exact h.same rfl rfl

theorem flushPlayback (h : t.Grows t') : t.Grows t'.flushPlayback := h.post _

theorem setState (h : t.Grows t') (s : State) : t.Grows (t'.setState s) := by
  rw [setState_eq]
  exact h.same rfl rfl

theorem pushHistory (h : t.Grows t') : t.Grows t'.pushHistory := (h.send _).emit _

theorem closeAnswer (h : t.Grows t') : t.Grows t'.closeAnswer := by
  rcases Bool.eq_false_or_eq_true t'.answering with hanswering | hanswering
  · rw [closeAnswer_eq t' hanswering]
    obtain ⟨more, hmore, hitems⟩ := h.history
    refine ⟨⟨more ++ t'.files, by simp [hmore], fun m hm => ?_⟩, h.userItem⟩
    rcases List.mem_append.1 hm with hm | hm
    · exact hitems m hm
    · unfold files at hm
      split_ifs at hm
      · simp at hm
      · rw [List.mem_singleton.1 hm]
  · rw [closeAnswer_idle t' hanswering]
    exact h

end Grows

/-- **But for a transcript, and for what resets it, the list only grows.** -/
theorem step_grows (t : Talk F) {e : Event F}
    (htranscript : ∀ text item, e ≠ .server (.transcript text item)) (hresets : ¬e.Resets) :
    t.Grows (t.step e) := by
  have hrefl := Grows.refl t
  cases e with
  | server e =>
    show t.Grows (t.onServerEvent e)
    cases e with
    | sessionUpdated voice => rcases voice with - | ⟨voice, effect⟩ <;> exact hrefl.same rfl rfl
    | speechStarted =>
      rw [onServerEvent]
      split_ifs
      · exact hrefl.flushPlayback.closeAnswer.setState _
      · exact hrefl.setState _
    | transcript text item => exact absurd rfl (htranscript text item)
    | created =>
      have hopened : t.Grows { t.closeAnswer with
          answering := true, answerDone := false, generation := t.closeAnswer.generation + 1,
          queuedSamples := 0, playedSamples := 0 } := hrefl.closeAnswer.same rfl rfl
      exact ((hopened.post _).emit _).setState _
    | audio pcm =>
      rcases pcm with - | pcm <;> rw [onServerEvent]
      · split_ifs <;> exact hrefl
      · have hqueued : t.Grows { t with queuedSamples := t.queuedSamples + pcm.length } :=
          hrefl.same rfl rfl
        split_ifs
        · exact (hqueued.post _).setState _
        · exact hrefl
    | cancelled => exact hrefl.flushPlayback.closeAnswer.setState _
    | done =>
      have hdone : t.Grows { t with answerDone := true } := hrefl.same rfl rfl
      rw [onServerEvent]
      dsimp only
      split_ifs
      · exact hdone.closeAnswer.setState _
      · exact hdone
    | error message => exact hrefl.emit _
    | other => exact hrefl
    | spoken delta textEnd =>
      rw [onServerEvent]
      split_ifs
      · exact hrefl.same rfl rfl
      · exact hrefl
    | _ =>
      rw [onServerEvent]
      split_ifs
      · exact hrefl.emit _
      · exact hrefl
  | report generation played =>
    have hplayed : t.Grows { t with playedSamples := played } := hrefl.same rfl rfl
    show t.Grows (t.onReport generation played)
    unfold onReport
    dsimp only
    split_ifs
    · exact hrefl
    · exact hplayed.closeAnswer.setState _
    · exact hplayed
  | cancel => exact ((hrefl.send _).flushPlayback.closeAnswer).setState _
  | update options =>
    have hupdated : t.Grows { t with options := options } := hrefl.same rfl rfl
    exact hupdated.send _
  | prepared => exact hrefl.same rfl rfl
  | opened =>
    have hopened : t.Grows { t with connected := true } := hrefl.same rfl rfl
    exact (hopened.send _).pushHistory
  | ready => exact hrefl.setState _
  | _ => exact absurd trivial hresets

/-- What resets the list leaves no item in it. -/
theorem step_resets (t : Talk F) {e : Event F} (h : e.Resets) :
    (∀ m ∈ (t.step e).history, m.item = none) ∧ (t.step e).userItem = [] := by
  have hbare : ∀ messages : List S2SMessage, ∀ m ∈ messages.map S2SMessage.bare, m.item = none := by
    intro messages m hm
    obtain ⟨m, -, rfl⟩ := List.mem_map.1 hm
    rfl
  have hset : ∀ (t : Talk F) messages, (∀ m ∈ (t.setHistory messages).history, m.item = none) ∧
      (t.setHistory messages).userItem = [] := by
    intro t messages
    rw [setHistory, pushHistory, send_eq]
    exact ⟨hbare messages, rfl⟩
  have hteardown : ∀ t : Talk F, (∀ m ∈ t.teardown.history, m.item = none) ∧
      t.teardown.userItem = [] := by
    intro t
    rw [teardown, setState_eq]
    exact ⟨hbare _, rfl⟩
  cases e with
  | setHistory messages => exact hset t messages
  | clearHistory => exact hset _ []
  | stop => exact hteardown t
  | ended => exact hteardown { t with connected := false }
  | dropped =>
    show (∀ m ∈ t.reconnect.history, m.item = none) ∧ t.reconnect.userItem = []
    rw [reconnect, setState_eq]
    exact ⟨hbare _, rfl⟩
  | _ => exact h.elim

/-- A transcript brings one item. -/
theorem item_onTranscript {t : Talk F} {text item : Bytes} {m : S2SMessage}
    (hm : m ∈ (t.onTranscript text item).history) :
    m.item = some item ∨ ∃ m' ∈ t.history, m.item = m'.item := by
  unfold onTranscript emit at hm
  dsimp only at hm
  split_ifs at hm
  · rcases List.mem_append.1 hm with hm | hm
    · exact .inr ⟨m, List.mem_of_mem_dropLast hm, rfl⟩
    · obtain ⟨last, hlast, rfl⟩ := List.mem_map.1 hm
      refine .inr ⟨last, List.mem_of_getLast? (Option.mem_toList.1 hlast), rfl⟩
  · rcases List.mem_append.1 hm with hm | hm
    · exact .inr ⟨m, hm, rfl⟩
    · rw [List.mem_singleton.1 hm]
      exact .inl rfl

/-- The events a client can see: a socket delivers while it is open, and it opens once the one
before is gone. -/
def Arrives (t : Talk F) : Event F → Prop
  | .server _ => t.connected = true
  | .opened => t.connected = false
  | _ => True

/-- A run of such events. -/
def Delivered (options : S2SOptions) (events : List (Event F)) : Prop :=
  ∀ before e after, events = before ++ e :: after → (run options before).Arrives e

theorem Delivered.front {options : S2SOptions} {events more : List (Event F)}
    (h : Delivered options (events ++ more)) : Delivered options events :=
  fun before e after hsplit => h before e (after ++ more) (by simp [hsplit])

theorem Delivered.nil (options : S2SOptions) : Delivered options ([] : List (Event F)) :=
  fun before e after hsplit => by simp at hsplit

theorem Delivered.snoc {options : S2SOptions} {events : List (Event F)} (h : Delivered options events)
    {e : Event F} (harrives : (run options events).Arrives e) : Delivered options (events ++ [e]) := by
  intro before e' after hsplit
  rcases List.eq_nil_or_concat after with rfl | ⟨after, last, rfl⟩
  · obtain ⟨rfl, hlast⟩ := List.append_inj' hsplit rfl
    obtain rfl : e = e' := by simpa using hlast
    exact harrives
  · rw [List.concat_eq_append, ← List.cons_append, ← List.append_assoc] at hsplit
    exact h before e' after (List.append_inj' hsplit rfl).1

/-- The items of a list came over the connection that is open, and offline there are none. -/
structure Known (t : Talk F) (since : List (Event F)) : Prop where
  items : ∀ m ∈ t.history, ∀ item, m.item = some item →
    ∃ text, .server (.transcript text item) ∈ since
  offline : t.connected = false → (∀ m ∈ t.history, m.item = none) ∧ t.userItem = []

theorem Known.step {t : Talk F} {since : List (Event F)} (h : t.Known since) {e : Event F}
    (harrives : t.Arrives e) :
    (t.step e).Known (if e.link.isSome then [] else since ++ [e]) := by
  have hconnected := t.step_connected e
  by_cases hresets : e.Resets
  · obtain ⟨hitems, huser⟩ := t.step_resets hresets
    refine ⟨fun m hm item hitem => ?_, fun _ => ⟨hitems, huser⟩⟩
    rw [hitems m hm] at hitem
    simp at hitem
  · by_cases htranscript : ∃ text item, e = .server (.transcript text item)
    · obtain ⟨text, item, rfl⟩ := htranscript
      have hopen : t.connected = true := harrives
      refine ⟨fun m hm item' hitem => ?_, fun hoffline => ?_⟩
      · rcases item_onTranscript hm with hnew | ⟨m', hm', hold⟩
        · obtain rfl : item = item' := by simpa [hnew] using hitem
          exact ⟨text, List.mem_append_right _ List.mem_cons_self⟩
        · obtain ⟨text', hmem⟩ := h.items m' hm' item' (hold ▸ hitem)
          exact ⟨text', List.mem_append_left _ hmem⟩
      · rw [hconnected] at hoffline
        simp [Event.link, hopen] at hoffline
    · obtain ⟨⟨more, hmore, hnone⟩, huser⟩ :=
        t.step_grows (fun text item he => htranscript ⟨text, item, he⟩) hresets
      have hold : t.connected = false → ∀ m ∈ (t.step e).history, m.item = none := by
        intro hoffline m hm
        rw [hmore] at hm
        rcases List.mem_append.1 hm with hm | hm
        · exact (h.offline hoffline).1 m hm
        · exact hnone m hm
      cases hlink : e.link with
      | some link =>
        -- Neither a stop nor a drop: a socket opens, and offline no line had an item.
        have hoffline : t.connected = false := by
          unfold Event.link at hlink
          split at hlink
          · exact harrives
          · exact absurd trivial hresets
          · exact absurd trivial hresets
          · exact absurd trivial hresets
          · simp at hlink
        refine ⟨fun m hm item hitem => ?_, fun _ => ⟨hold hoffline, ?_⟩⟩
        · rw [hold hoffline m hm] at hitem
          simp at hitem
        · exact huser.trans (h.offline hoffline).2
      | none =>
        rw [hlink, Option.getD_none] at hconnected
        refine ⟨fun m hm item hitem => ?_, fun hoffline => ?_⟩
        · rw [hmore] at hm
          rcases List.mem_append.1 hm with hm | hm
          · obtain ⟨text, hmem⟩ := h.items m hm item hitem
            exact ⟨text, List.mem_append_left _ hmem⟩
          · rw [hnone m hm] at hitem
            simp at hitem
        · rw [hconnected] at hoffline
          exact ⟨hold hoffline, huser.trans (h.offline hoffline).2⟩

/-- **Whatever item a line carries, a transcript of the connection that is open brought it.** -/
theorem items_known {options : S2SOptions} {events : List (Event F)}
    (h : Delivered options events) : (run options events).Known (connection events) := by
  induction events using List.reverseRecOn with
  | nil => exact ⟨by simp, fun _ => ⟨by simp, rfl⟩⟩
  | append_singleton events e ih =>
    rw [run_snoc, connection_snoc]
    exact (ih h.front).step (h events e [] rfl)

/-! ### The lines of earlier connections -/

/-- The lines of a list are there still, and a transcript that may be revised came after them. -/
def Kept (old : List S2SMessage) (t : Talk F) : Prop :=
  ∃ new, t.history = old ++ new ∧ (t.userItem ≠ [] → new ≠ [])

theorem Kept.step {old : List S2SMessage} {t : Talk F} (h : t.Kept old) {e : Event F}
    (hresets : ¬e.Resets) : (t.step e).Kept old := by
  obtain ⟨new, hnew, huser⟩ := h
  by_cases htranscript : ∃ text item, e = .server (.transcript text item)
  · obtain ⟨text, item, rfl⟩ := htranscript
    show (t.onTranscript text item).Kept old
    unfold onTranscript emit
    dsimp only
    split_ifs with hrevised
    · obtain ⟨hitem, hsame, -⟩ := hrevised
      obtain ⟨front, last, rfl⟩ := List.eq_nil_or_concat' new |>.resolve_left
        (huser (hsame ▸ hitem))
      refine ⟨front ++ [{ last with content := text }], ?_, by simp⟩
      simp [hnew, ← List.append_assoc]
    · exact ⟨new ++ [⟨.user, text, some item⟩], by simp [hnew], by simp⟩
  · obtain ⟨⟨more, hmore, -⟩, huser'⟩ :=
      t.step_grows (fun text item he => htranscript ⟨text, item, he⟩) hresets
    refine ⟨new ++ more, by simp [hmore, hnew], fun h => ?_⟩
    rw [huser'] at h
    simp [huser h]

theorem kept_run {old : List S2SMessage} {t : Talk F} (h : t.Kept old) {during : List (Event F)}
    (hresets : ∀ e ∈ during, ¬e.Resets) : (during.foldl step t).Kept old := by
  induction during generalizing t with
  | nil => exact h
  | cons e during ih =>
    obtain ⟨he, hduring⟩ := List.forall_mem_cons.1 hresets
    exact ih (h.step he) hduring

end Talk

/-! ### What a request keeps -/

section Requests

open Conversation

theorem itemId_ne_nil (turnId : ℕ) : itemId turnId ≠ [] := by
  unfold itemId
  rw [Ne, List.append_eq_nil_iff]
  exact fun h => absurd h.1 (by decide)

/-- A line without an item is in every request. -/
theorem past_bare {lines : List S2SMessage} (h : ∀ m ∈ lines, m.item = none) (turnId : ℕ) :
    past (lines.map S2SMessage.wire) (itemId turnId) = lines.map S2SMessage.wire := by
  refine List.filter_eq_self.2 fun line hline => ?_
  obtain ⟨m, hm, rfl⟩ := List.mem_map.1 hline
  have hitem : m.wire.item = [] := by simp [S2SMessage.wire, h m hm]
  simp [hitem, (itemId_ne_nil turnId).symm]

/-- **What the request of a turn keeps.**  Whatever the history, the prompt and the transcript, the
messages behind the system prompt are the lines of the history but the turn's own earlier
transcripts, then the transcript, in order: runs of user lines joined by single spaces, no two user
messages in a row, the last one ending with the transcript.  A line the client pushed is left out
for a turn only if a transcript of that turn came over the connection that is open; the lines from
before it opened all stand in every request. -/
theorem requests_keep :
    (∀ systemPrompt history turnId transcript, ∃ built,
      turnMessages systemPrompt history (itemId turnId) transcript = system systemPrompt ++ built ∧
      Joined (past history (itemId turnId) ++ [⟨user, itemId turnId, transcript⟩]) built ∧
      Alternate built ∧
      ∃ last, built.getLast? = some last ∧ last.role = user ∧ transcript <:+ last.content) ∧
    (∀ (options : S2SOptions) (events : List (Event F)), Talk.Delivered options events →
      ∀ turnId, ∀ m ∈ (Talk.run options events).history,
        m.wire ∉ past ((Talk.run options events).history.map S2SMessage.wire) (itemId turnId) →
        ∃ text, .server (.transcript text (itemId turnId)) ∈ connection events) ∧
    ∀ (options : S2SOptions) (before during : List (Event F)) turnId,
      Talk.Delivered options (before ++ .opened :: during) → (∀ e ∈ during, ¬e.Resets) →
      ∃ new, (Talk.run options (before ++ .opened :: during)).history =
          (Talk.run options before).history ++ new ∧
        past ((Talk.run options (before ++ .opened :: during)).history.map S2SMessage.wire)
            (itemId turnId) =
          (Talk.run options before).history.map S2SMessage.wire ++
            past (new.map S2SMessage.wire) (itemId turnId) := by
  refine ⟨fun systemPrompt history turnId => turnMessages_joined systemPrompt history _, ?_, ?_⟩
  · intro options events hdelivered turnId m hm hdropped
    have hitem : m.item = some (itemId turnId) := by
      simp only [past, List.mem_filter, List.mem_map, not_and, decide_eq_true_eq, not_or, not_not,
        ne_eq] at hdropped
      obtain ⟨-, hitem⟩ := hdropped ⟨m, hm, rfl⟩
      cases hnone : m.item with
      | none => simp [S2SMessage.wire, hnone, (itemId_ne_nil turnId).symm] at hitem
      | some item => simpa [S2SMessage.wire, hnone] using hitem
    exact (Talk.items_known hdelivered).items m hm _ hitem
  · intro options before during turnId hdelivered hresets
    have hoffline : (Talk.run options before).connected = false := hdelivered before .opened during rfl
    obtain ⟨hitems, huser⟩ := (Talk.items_known hdelivered.front).offline hoffline
    have hkept : (Talk.run options before).Kept (Talk.run options before).history :=
      ⟨[], by simp, fun h => absurd huser h⟩
    have hresets' : ∀ e ∈ .opened :: during, ¬e.Resets := by simpa [Event.Resets] using hresets
    rw [Talk.run_append]
    obtain ⟨new, hnew, -⟩ := Talk.kept_run hkept hresets'
    refine ⟨new, hnew, ?_⟩
    rw [hnew, List.map_append, past, List.filter_append]
    congr 1
    exact past_bare hitems turnId

/-- A connection with a transcript, and its drop. -/
def firstConnection : List (Event ℕ) :=
  [.opened, .server (.transcript (ascii "Hi") (itemId 1)), .dropped]

/-- Another connection, with a transcript of the same number. -/
theorem requests_keep_again :
    ∃ new, (Talk.run ⟨none, none, none, none⟩ (firstConnection ++
          .opened :: [.server (.transcript (ascii "Hello") (itemId 1))])).history =
        (Talk.run ⟨none, none, none, none⟩ firstConnection).history ++ new ∧
      past ((Talk.run ⟨none, none, none, none⟩ (firstConnection ++
          .opened :: [.server (.transcript (ascii "Hello") (itemId 1))])).history.map S2SMessage.wire)
          (itemId 1) =
        (Talk.run ⟨none, none, none, none⟩ firstConnection).history.map S2SMessage.wire ++
          past (new.map S2SMessage.wire) (itemId 1) := by
  have harrives : ∀ (events : List (Event ℕ)) (e : Event ℕ),
      Talk.Delivered ⟨none, none, none, none⟩ events → (Talk.run ⟨none, none, none, none⟩ events).Arrives e →
      Talk.Delivered ⟨none, none, none, none⟩ (events ++ [e]) := fun _ _ h he => h.snoc he
  have hopened := harrives [] .opened (.nil _) rfl
  have hfirst := harrives _ .dropped
    (harrives _ (.server (.transcript (ascii "Hi") (itemId 1))) hopened rfl) trivial
  refine requests_keep.2.2 _ _ _ _ ?_ fun e he => ?_
  · exact harrives _ (.server (.transcript (ascii "Hello") (itemId 1)))
      (harrives _ .opened hfirst rfl) rfl
  · rw [List.mem_singleton.1 he]
    exact id

end Requests

end Client
end S2S
