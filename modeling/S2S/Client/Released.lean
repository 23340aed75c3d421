/-
# Nothing is left in use

What stands after a stop, in every order in which what is pending settles and with
a host that calls back from inside its handlers.  A step of an earlier run finds
its run gone and releases on the spot what it brought.  But the source compares the
run after each `await` only, not after a handler: behind a few of them (`Site.frail`)
it goes on for a run that a stop in the handler ended, and makes a context or a
socket, or changes the state (`stopped_while_dropped`).  Where no handler of those
stops the client, nothing of it is in use after a stop, and never more than one
socket and one context are (`client_released`).
-/

import S2S.Client.Hosted

namespace S2S
namespace Client

open Json Reentry

variable {F : Type}

/-! ### Manners -/

/-- The handler before the audio context of a start. -/
def Site.early : Site → Bool
  | .startRequested made => made
  | _ => false

/-- A handler behind which the source goes on for its run without another look at the number. -/
def Site.frail : Site → Bool
  | .startRequested made => made
  | .microphoneGranted joined => joined
  | .dropped => true
  | .answer closer => closer ≠ .teardown
  | .answerStarts => true
  | _ => false

/-- **No stop from inside a frail handler**, no start from inside the first one, and after a stop no
played report that finds an answer done and played to its end. -/
def manners (F : Type) : Manners (Component F) Site Call (Occurrence F) where
  allows site k :=
    match k with
    | .start _ => !site.early
    | .stop => !site.frail
    | .update _ => true
  permits c e :=
    match e with
    | .report generation played =>
      !(c.context.isNone && generation = c.talk.generation && c.talk.answerDone &&
        c.talk.queuedSamples ≤ played)
    | _ => true

/-- The host called stop, and start no more since. -/
def Stopped (calls : List Call) : Prop :=
  ∃ before later, calls = before ++ .stop :: later ∧ ∀ k ∈ later, ∀ ok, k ≠ .start ok

theorem not_stopped_nil : ¬Stopped [] := by
  rintro ⟨before, later, h, -⟩
  simp at h

theorem not_stopped_start (calls : List Call) (ok : Bool) : ¬Stopped (calls ++ [.start ok]) := by
  rintro ⟨before, later, h, hlater⟩
  rcases List.eq_nil_or_concat later with rfl | ⟨later, k, rfl⟩
  · simpa using (List.append_inj' h rfl).2
  · rw [List.concat_eq_append] at h hlater
    rw [← List.cons_append, ← List.append_assoc] at h
    obtain rfl : Call.start ok = k := by simpa using (List.append_inj' h rfl).2
    exact hlater _ (List.mem_append_right _ List.mem_cons_self) ok rfl

theorem stopped_update {calls : List Call} {options : S2SOptions}
    (h : Stopped (calls ++ [.update options])) : Stopped calls := by
  obtain ⟨before, later, h, hlater⟩ := h
  rcases List.eq_nil_or_concat later with rfl | ⟨later, k, rfl⟩
  · simpa using (List.append_inj' h rfl).2
  · rw [List.concat_eq_append] at h hlater
    rw [← List.cons_append, ← List.append_assoc] at h
    exact ⟨before, later, (List.append_inj' h rfl).1, fun k hk => hlater k (List.mem_append_left _ hk)⟩

namespace Component

/-! ### What a handler may have done -/

/-- The host changed options, and nothing else. -/
structure Alike (c c' : Component F) : Prop where
  sound : c'.Sound
  run : c'.run = c.run
  established : c'.established = c.established
  ws : c'.ws = c.ws
  context : c'.context = c.context
  stream : c'.stream = c.stream
  sockets : c'.sockets = c.sockets
  timers : c'.timers = c.timers
  pending : c.stream = none → c'.pending = c.pending

/-- The host ended the run, and may have begun another one. -/
structure Moved (c : Component F) (calls : List Call) (c' : Component F) : Prop where
  sound : c'.Sound
  run : c.run < c'.run
  context : Stopped calls → c'.context = none
  established : c'.established = true → c.context = none ∧ c.established = true

/-- What holds when no handler runs. -/
structure AtRest (calls : List Call) (c : Component F) : Prop where
  sound : c.Sound
  context : Stopped calls → c.context = none

/-- What a client promises its handlers and may rely on when they return. -/
def pact (F : Type) : Pact (Component F) Site Call where
  amid site _ c := c.Sound ∧ (site.frail = true → site.early = false → c.context ≠ none)
  rely site calls c calls' c' :=
    (Alike c c' ∧ (Stopped calls' → Stopped calls)) ∨ (site.frail = false ∧ Moved c calls' c')

/-- The same run, or a later one. -/
def Onward (c c' : Component F) : Prop := Alike c c' ∨ c.run < c'.run

section Relations

variable {c c' c'' : Component F} {calls calls' calls'' : List Call}

theorem Alike.refl (h : c.Sound) : Alike c c := ⟨h, rfl, rfl, rfl, rfl, rfl, rfl, rfl, fun _ => rfl⟩

theorem Alike.trans (h : Alike c c') (h' : Alike c' c'') : Alike c c'' where
  sound := h'.sound
  run := h'.run.trans h.run
  established := h'.established.trans h.established
  ws := h'.ws.trans h.ws
  context := h'.context.trans h.context
  stream := h'.stream.trans h.stream
  sockets := h'.sockets.trans h.sockets
  timers := h'.timers.trans h.timers
  pending := fun hnone => (h'.pending (h.stream.trans hnone)).trans (h.pending hnone)

/-- What is said to the host, or kept of the conversation. -/
theorem Alike.talk {talk : Talk F} (h : Sound { c with talk := talk }) : Alike c { c with talk := talk } :=
  ⟨h, rfl, rfl, rfl, rfl, rfl, rfl, rfl, fun _ => rfl⟩

theorem Alike.running (h : Alike c c') (hr : c.Running) : c'.Running := by
  cases hstream : c.stream with
  | none => exact hr.same h.context h.run (h.pending hstream) h.timers h.ws
  | some stream => exact h.sound.running_of_stream (by simp [h.stream, hstream])

/-- `update` asks for something of a stream, if there is one. -/
theorem update_eq (c : Component F) (options : S2SOptions) :
    ∃ more, c.update options = { c with talk := c.talk.update options, pending := c.pending ++ more } ∧
      (c.stream = none → more = []) := by
  unfold Component.update Component.applyMic Component.applyEcho
  dsimp only
  split_ifs with hmic hecho
  · exact ⟨[_], rfl, fun hnone => by simp [hnone] at hmic⟩
  · split
    · exact ⟨[_], rfl, fun hnone => by simp [hnone] at hecho⟩
    · exact ⟨[], by simp, fun _ => rfl⟩
  · exact ⟨[], by simp, fun _ => rfl⟩

theorem Alike.update (h : c.Sound) (options : S2SOptions) : Alike c (c.update options) := by
  have hsound := h.update options
  obtain ⟨more, heq, hmore⟩ := update_eq c options
  rw [heq] at hsound ⊢
  exact ⟨hsound, rfl, rfl, rfl, rfl, rfl, rfl, rfl, fun hnone => by simp [hmore hnone]⟩

theorem Alike.moved (h : Alike c c') (h' : Moved c' calls c'') : Moved c calls c'' where
  sound := h'.sound
  run := h.run ▸ h'.run
  context := h'.context
  established := fun hestablished => by
    obtain ⟨hcontext, hbefore⟩ := h'.established hestablished
    exact ⟨h.context ▸ hcontext, h.established ▸ hbefore⟩

theorem Moved.alike (h : Moved c calls c') (h' : Alike c' c'') (hcalls : Stopped calls' → Stopped calls) :
    Moved c calls' c'' where
  sound := h'.sound
  run := h'.run.symm ▸ h.run
  context := fun hstopped => h'.context.trans (h.context (hcalls hstopped))
  established := fun hestablished => h.established (h'.established ▸ hestablished)

theorem Moved.trans (h : Moved c calls c') (h' : Moved c' calls' c'') : Moved c calls' c'' where
  sound := h'.sound
  run := h.run.trans h'.run
  context := h'.context
  established := fun hestablished => h.established (h'.established hestablished).2

theorem Moved.atRest (h : Moved c calls c') : AtRest calls c' := ⟨h.sound, h.context⟩

theorem Onward.trans (h : Onward c c') (h' : Onward c' c'') : Onward c c'' := by
  rcases h with h | h <;> rcases h' with h' | h'
  · exact .inl (h.trans h')
  · exact .inr (h.run ▸ h')
  · exact .inr (h'.run.symm ▸ h)
  · exact .inr (h.trans h')

theorem rely_trans {site : Site} (h : (pact F).rely site calls c calls' c')
    (h' : (pact F).rely site calls' c' calls'' c'') : (pact F).rely site calls c calls'' c'' := by
  rcases h with ⟨h, hcalls⟩ | ⟨hsite, h⟩ <;> rcases h' with ⟨h', hcalls'⟩ | ⟨hsite', h'⟩
  · exact .inl ⟨h.trans h', fun hstopped => hcalls (hcalls' hstopped)⟩
  · exact .inr ⟨hsite', h.moved h'⟩
  · exact .inr ⟨hsite, h.alike h' hcalls'⟩
  · exact .inr ⟨hsite, h.trans h'⟩

theorem rely_amid {site : Site} (h : (pact F).amid site calls c)
    (h' : (pact F).rely site calls c calls' c') : (pact F).amid site calls' c' := by
  rcases h' with ⟨h', -⟩ | ⟨hsite, h'⟩
  · exact ⟨h'.sound, fun hfrail hearly hnone => h.2 hfrail hearly (h'.context ▸ hnone)⟩
  · exact ⟨h'.sound, fun hfrail => by simp [hsite] at hfrail⟩

theorem AtRest.alike (h : AtRest calls c) (h' : Alike c c') (hcalls : Stopped calls' → Stopped calls) :
    AtRest calls' c' :=
  ⟨h'.sound, fun hstopped => h'.context.trans (h.context (hcalls hstopped))⟩

/-- What holds at rest holds still when a handler returns. -/
theorem AtRest.rely {site : Site} (h : AtRest calls c) (h' : (pact F).rely site calls c calls' c') :
    AtRest calls' c' ∧ Onward c c' := by
  rcases h' with ⟨h', hcalls⟩ | ⟨-, h'⟩
  · exact ⟨h.alike h' hcalls, .inl h'⟩
  · exact ⟨h'.atRest, .inr h'.run⟩

end Relations

/-! ### Handlers -/

section Handlers

variable {c : Component F} {calls : List Call} {site : Site} {next : Component F → Steps F}
  {Q : List Call → Component F → Prop}

theorem Sound.talk_same (h : c.Sound) {talk : Talk F} (hstate : talk.state = c.talk.state) :
    Sound { c with talk := talk } := h.talk fun hnone => hstate.trans (h.idle hnone).state

/-- A handler that may do anything, called where what holds at rest holds. -/
theorem AtRest.tells (h : AtRest calls c) (hsite : site.frail = false)
    (hnext : ∀ calls' c', AtRest calls' c' → Onward c c' → (next c').Meets (pact F) Q calls') :
    (Code.tells site c next).Meets (pact F) Q calls := by
  refine ⟨⟨h.sound, fun hfrail => by simp [hsite] at hfrail⟩, fun calls' c' hrely => ?_⟩
  obtain ⟨hrest, honward⟩ := h.rely hrely
  exact hnext calls' c' hrest honward

/-- A handler that may do anything, in the middle of a teardown. -/
theorem Sound.tells (h : c.Sound) (hsite : site.frail = false)
    (hnext : ∀ calls' c', c'.Sound → c.run ≤ c'.run → (next c').Meets (pact F) Q calls') :
    (Code.tells site c next).Meets (pact F) Q calls := by
  refine ⟨⟨h, fun hfrail => by simp [hsite] at hfrail⟩, fun calls' c' hrely => ?_⟩
  rcases hrely with ⟨halike, -⟩ | ⟨-, hmoved⟩
  · exact hnext calls' c' halike.sound halike.run.ge
  · exact hnext calls' c' hmoved.sound hmoved.run.le

/-- A frail handler: the run stays as it is. -/
theorem Sound.tells_frail (h : c.Sound) (hsite : site.frail = true)
    (hcontext : site.early = false → c.context ≠ none)
    (hnext : ∀ calls' c', Alike c c' → (Stopped calls' → Stopped calls) →
      (next c').Meets (pact F) Q calls') : (Code.tells site c next).Meets (pact F) Q calls := by
  refine ⟨⟨h, fun _ => hcontext⟩, fun calls' c' hrely => ?_⟩
  rcases hrely with ⟨halike, hcalls⟩ | ⟨hfree, -⟩
  · exact hnext calls' c' halike hcalls
  · simp [hsite] at hfree

theorem AtRest.setState (h : AtRest calls c) {s : State} (hs : c.context = none → s = .idle) :
    (Hosted.setState s c).Meets (pact F) (fun calls' c' => AtRest calls' c' ∧ Onward c c') calls := by
  unfold Hosted.setState
  split_ifs
  · exact ⟨h, .inl (.refl h.sound)⟩
  · have hsound : Sound { c with talk := c.talk.setState s } := h.sound.talk fun hnone => by
      rw [Talk.setState_eq]
      exact hs hnone
    refine AtRest.tells ⟨hsound, h.context⟩ rfl fun calls' c' hrest honward => ?_
    exact ⟨hrest, Onward.trans (.inl (.talk hsound)) honward⟩

/-- An answer that is closed while the run goes on. -/
theorem Sound.closeAnswer (h : c.Sound) (hcontext : c.context ≠ none) {closer : Closer}
    (hcloser : closer ≠ .teardown) :
    (Hosted.closeAnswer closer c).Meets (pact F)
      (fun calls' c' => Alike c c' ∧ (Stopped calls' → Stopped calls)) calls := by
  have hfrail : (Site.answer closer).frail = true := by simpa [Site.frail] using hcloser
  unfold Hosted.closeAnswer
  split_ifs
  · exact ⟨.refl h, id⟩
  · have hclosing := Alike.talk (h.talk_same c.talk.closing_state)
    refine hclosing.sound.tells_frail hfrail (fun _ => hcontext) fun calls' c' halike hcalls => ?_
    have hpushed := Alike.talk (halike.sound.talk_same c'.talk.pushHistory_state)
    have hcontext' : c'.context ≠ none := halike.context ▸ hcontext
    refine hpushed.sound.tells_frail hfrail (fun _ => hcontext') fun calls'' c'' halike' hcalls' => ?_
    exact ⟨((hclosing.trans halike).trans hpushed).trans halike', fun h => hcalls (hcalls' h)⟩

/-! ### Teardown, stop and start -/

theorem Sound.closeAnswer_teardown (h : c.Sound) :
    (Hosted.closeAnswer .teardown c).Meets (pact F) (fun _ c' => c'.Sound ∧ c.run ≤ c'.run) calls := by
  unfold Hosted.closeAnswer
  split_ifs
  · exact ⟨h, le_rfl⟩
  · have hclosing := h.talk_same c.talk.closing_state
    refine hclosing.tells rfl fun calls' c' hsound hrun => ?_
    have hpushed := hsound.talk_same c'.talk.pushHistory_state
    exact hpushed.tells rfl fun calls'' c'' hsound' hrun' => ⟨hsound', hrun.trans hrun'⟩

/-- **A teardown ends the run**, whatever its handlers do. -/
theorem Sound.teardown_meets (h : c.Sound) : (Hosted.teardown c).Meets (pact F) (Moved c) calls := by
  refine h.closeAnswer_teardown.andThen fun calls' c' hclosed => ?_
  obtain ⟨hsound, hrun⟩ := hclosed
  have hmoved : ∀ talk : Talk F, talk.state = .idle →
      Moved c calls' { Hosted.release c' with talk := talk } := fun talk hidle => {
    sound := Sound.talk (c := c'.teardown) hsound.teardown.1 fun _ => hidle
    run := Nat.lt_succ_of_le hrun
    context := fun _ => rfl
    established := fun hestablished => by simp [Hosted.release] at hestablished }
  unfold Hosted.setState
  split_ifs with hidle
  · exact hmoved _ hidle
  · have hset := hmoved ((Hosted.release c').talk.setState .idle) (by rw [Talk.setState_eq])
    refine ⟨⟨hset.sound, fun hfrail => by simp [Site.frail] at hfrail⟩, fun calls'' c'' hrely => ?_⟩
    rcases hrely with ⟨halike, hcalls⟩ | ⟨-, hmoved'⟩
    · exact hset.alike halike hcalls
    · exact hset.trans hmoved'

/-- **A stop ends the run.** -/
theorem Sound.stop_meets (h : c.Sound) : (Hosted.stop c).Meets (pact F) (Moved c) calls := by
  refine ⟨⟨h, fun hfrail => by simp [Site.frail] at hfrail⟩, fun calls' c' hrely => ?_⟩
  rcases hrely with ⟨halike, -⟩ | ⟨-, hmoved⟩
  · exact halike.sound.teardown_meets.mono fun _ _ hmoved => halike.moved hmoved
  · exact hmoved.sound.teardown_meets.mono fun _ _ hmoved' => hmoved.trans hmoved'

/-- A run that was left behind fails. -/
theorem Sound.awaits_past (h : c.Sound) {p : Pending} {run : ℕ} (hp : p.run = some run)
    (hrun : run < c.run) : (c.await p).Sound := by
  refine h.await (fun run' hrun' => ?_) fun hnow => ?_
  · rw [hp] at hrun'
    exact (Option.some.inj hrun').symm.le.trans hrun.le
  · rw [hp] at hnow
    exact absurd (Option.some.inj hnow) hrun.ne

/-- **A start of a client at rest begins a run.** -/
theorem Sound.start_meets (h : c.Sound) (hnone : c.context = none) (ok : Bool)
    (hcalls : ¬Stopped calls) : (Hosted.start ok c).Meets (pact F) (Moved c) calls := by
  have hbegun := h.begins hnone
  have hrest := h.idle hnone
  unfold Hosted.start
  rw [if_neg (by simp [hnone])]
  cases ok with
  | true =>
    refine hbegun.tells_frail rfl (fun hearly => by simp [Site.early] at hearly)
      fun calls' c' halike hcalls' => ?_
    have hpast : c'.Past := by
      refine ⟨fun p hp run hrun => ?_, fun run hrun => ?_⟩
      · rw [halike.pending hrest.stream] at hp
        exact halike.run ▸ h.timely.past.pending p hp run hrun
      · rw [halike.timers] at hrun
        exact halike.run ▸ h.timely.past.timers run hrun
    have hrun : c.run + 1 = c'.run := halike.run.symm
    exact {
      sound := by
        rw [hrun]
        exact halike.sound.opens (halike.context.trans hnone) hpast
      run := halike.run.symm ▸ Nat.lt_succ_self _
      context := fun hstopped => absurd (hcalls' hstopped) hcalls
      established := fun hestablished => ⟨hnone, halike.established ▸ hestablished⟩ }
  | false =>
    refine ⟨⟨hbegun, fun hfrail => by simp [Site.frail] at hfrail⟩, fun calls' c' hrely => ?_⟩
    rcases hrely with ⟨halike, hcalls'⟩ | ⟨-, hmoved⟩
    · exact {
        sound := halike.sound.fails_early (halike.context.trans hnone) halike.run.ge
        run := halike.run.symm ▸ Nat.lt_succ_self _
        context := fun hstopped => absurd (hcalls' hstopped) hcalls
        established := fun hestablished => ⟨hnone, halike.established ▸ hestablished⟩ }
    · exact {
        sound := hmoved.sound.awaits_past rfl hmoved.run
        run := (Nat.lt_succ_self _).trans hmoved.run
        context := hmoved.context
        established := hmoved.established }

end Handlers

/-! ### What settles -/

section Settles

variable {c : Component F} {calls : List Call} {i : ℕ}

theorem AtRest.without (h : AtRest calls c) {p : Pending} (hp : c.pending[i]? = some p) :
    AtRest calls (c.without i) := ⟨h.sound.without hp, h.context⟩

/-- Code that ends once the state is changed. -/
theorem AtRest.setState_ends (h : AtRest calls c) {s : State} (hs : c.context = none → s = .idle) :
    (Hosted.setState s c).Meets (pact F) AtRest calls :=
  (h.setState hs).mono fun _ _ hset => hset.1

theorem AtRest.talk (h : AtRest calls c) {talk : Talk F} (hstate : talk.state = c.talk.state) :
    AtRest calls { c with talk := talk } := ⟨h.sound.talk_same hstate, h.context⟩

theorem Sound.teardown_rests (h : c.Sound) : (Hosted.teardown c).Meets (pact F) AtRest calls :=
  h.teardown_meets.mono fun _ _ hmoved => hmoved.atRest

theorem AtRest.caught (h : AtRest calls c) (run : ℕ) (message : Bytes) :
    (Hosted.caught run message c).Meets (pact F) AtRest calls := by
  unfold Hosted.caught
  split_ifs
  · exact h
  · refine h.tells rfl fun calls' c' hrest _ => ?_
    refine AtRest.tells (c := c'.tell message) (hrest.talk rfl) rfl fun calls'' c'' hrest' _ => ?_
    exact hrest'.sound.teardown_rests

theorem AtRest.loaded (h : AtRest calls c) {run : ℕ} (hp : c.pending[i]? = some (.worklet run))
    (o : Outcome) : (Hosted.loaded run o (c.without i)).Meets (pact F) AtRest calls := by
  have hd := h.without hp
  unfold Hosted.loaded
  split_ifs with hgranted hrun
  · exact ⟨h.sound.fails hp rfl trivial, h.context⟩
  · exact hd
  · obtain rfl : run = c.run := not_not.1 hrun
    obtain ⟨hl, hnone⟩ := h.sound.without_early hp rfl trivial
    refine hd.tells rfl fun calls' c' hrest honward => ⟨?_, hrest.context⟩
    rcases honward with halike | hlater
    · have hcurrent : c'.current = [] := by
        rw [current, halike.pending hl.stream, halike.run]
        exact hnone
      have hasks := hrest.sound.asks (halike.context.trans_ne hl.context) (halike.stream.trans hl.stream)
        (halike.ws.trans hl.ws) hcurrent (by rw [halike.timers, halike.run]; exact hl.timers)
        c'.talk.options.constraints
      rwa [show c'.run = c.run from halike.run] at hasks
    · exact hrest.sound.awaits_past rfl hlater

/-- Something to wait for, of the run in force or of one that was left behind. -/
theorem AtRest.awaits (h : AtRest calls c) {p : Pending} {run : ℕ} (hp : p.run = some run)
    (hearly : ¬p.Early) (hrun : run < c.run ∨ run = c.run ∧ c.Running) : AtRest calls (c.await p) := by
  refine ⟨?_, h.context⟩
  rcases hrun with hlater | ⟨rfl, hrunning⟩
  · exact h.sound.awaits_past hp hlater
  · exact hrunning.await h.sound.owned h.sound.timely hp hearly

/-- A worklet joins a stream. -/
theorem AtRest.join (h : AtRest calls c) (stream : ℕ) : AtRest calls (Hosted.join stream c) :=
  ⟨h.sound.same ⟨h.sound.owned.contexts, h.sound.owned.streams, h.sound.owned.sockets⟩ rfl rfl rfl rfl
    rfl rfl rfl, h.context⟩

/-- A run with no socket and no timer makes a socket. -/
theorem AtRest.connects (h : AtRest calls c) (hr : c.Running) (hws : c.ws = none)
    (htimers : some c.run ∉ c.timers) : AtRest calls (c.connect c.run) :=
  ⟨hr.connects h.sound.owned h.sound.timely hws htimers, h.context⟩

theorem AtRest.heard (h : AtRest calls c) {run : ℕ} {asked : MediaTrackConstraints}
    (hp : c.pending[i]? = some (.microphone run asked)) (o : Outcome) :
    (Hosted.heard run asked o (c.without i)).Meets (pact F) AtRest calls := by
  have hd := h.without hp
  unfold Hosted.heard
  dsimp only
  by_cases hgranted : o.granted = true
  swap
  · rw [if_pos (by simpa using hgranted)]
    exact ⟨h.sound.fails hp rfl trivial, h.context⟩
  rw [if_neg (by simpa using hgranted)]
  by_cases hrun : run = c.run
  swap
  · rw [if_pos hrun]
    exact ⟨hd.sound.same (hd.sound.owned.release asked) rfl rfl rfl rfl rfl rfl rfl, h.context⟩
  subst hrun
  rw [if_neg (by simp)]
  have hl := (h.sound.without_early hp rfl trivial).1
  have hheld : AtRest calls { (c.without i).acquire asked with stream := (c.without i).streams.length } :=
    ⟨h.sound.holds hp, h.context⟩
  have hrunning := hheld.sound.running_of_stream rfl
  by_cases hjoined : o.graph = true ∧ o.socket = true
  · -- Behind this handler a socket is made: the run is still the one in force.
    obtain ⟨hgraph, hsocket⟩ := hjoined
    refine hheld.sound.tells_frail (by simp [Site.frail, hgraph, hsocket]) (fun _ => hl.context)
      fun calls' c' halike hcalls => ?_
    have hrest : AtRest calls' c' := hheld.alike halike hcalls
    have hrun : c'.run = c.run := halike.run
    simp only [hgraph, hsocket, Bool.not_true, Bool.false_eq_true, if_false, if_true]
    have hconnects := (hrest.join (c.without i).streams.length).connects
      ((halike.running hrunning).same rfl rfl rfl rfl rfl) (halike.ws.trans hl.ws)
      (show some c'.run ∉ c'.timers by rw [hrun, halike.timers]; exact hl.timers)
    rw [← hrun]
    refine hconnects.tells rfl fun calls'' c'' hrest' honward => ?_
    refine hrest'.awaits rfl id ?_
    rcases honward with halike' | hlater
    · exact .inr ⟨halike'.run.symm, halike'.sound.running_of_ws halike'.ws⟩
    · exact .inl hlater
  · refine hheld.tells (by simpa [Site.frail] using hjoined) fun calls' c' hrest honward => ?_
    have hlater : c.run < c'.run ∨ c.run = c'.run ∧ c'.Running := by
      rcases honward with halike | hlater
      · exact .inr ⟨halike.run.symm, halike.running hrunning⟩
      · exact .inl hlater
    split_ifs with hgraph hsocket
    · exact hrest.awaits rfl id hlater
    · exact absurd ⟨by simpa using hgraph, hsocket⟩ hjoined
    · refine (hrest.join _).awaits rfl id ?_
      exact hlater.imp_right fun hnow => ⟨hnow.1, hnow.2.same rfl rfl rfl rfl rfl⟩

theorem AtRest.connected (h : AtRest calls c) {run socket : ℕ}
    (hp : c.pending[i]? = some (.connected run socket)) (opened : Bool) (o : Outcome) :
    (Hosted.connected run opened o (c.without i)).Meets (pact F) AtRest calls := by
  have hd := h.without hp
  unfold Hosted.connected
  split_ifs with hopened hrun
  · exact hd.caught run o.message
  · exact hd
  · obtain rfl : run = c.run := not_not.1 hrun
    have hrunning := h.sound.running_of (List.mem_of_getElem? hp) rfl id (by simp)
    exact hd.setState_ends fun hnone => absurd hnone hrunning.context

theorem AtRest.refuse (h : AtRest calls c) (o : Outcome) :
    (Hosted.refuse o c).Meets (pact F) AtRest calls := by
  refine h.tells rfl fun calls' c' hrest _ => ?_
  exact AtRest.tells (c := c'.tell (ascii "Microphone switch refused, " ++ o.message)) (hrest.talk rfl)
    rfl fun calls'' c'' hrest' _ => hrest'

theorem AtRest.switched (h : AtRest calls c) {run : ℕ} {asked : MediaTrackConstraints}
    (hp : c.pending[i]? = some (.switched run asked)) (o : Outcome) :
    (Hosted.switched run asked o (c.without i)).Meets (pact F) AtRest calls := by
  have hd := h.without hp
  unfold Hosted.switched
  dsimp only
  split_ifs with hgranted hrun hgraph
  · exact hd.refuse o
  · exact ⟨hd.sound.same (hd.sound.owned.release asked) rfl rfl rfl rfl rfl rfl rfl, h.context⟩
  all_goals
    obtain rfl : run = c.run := by
      by_contra hne
      exact hrun (.inl hne)
  · exact AtRest.tells ⟨h.sound.takes hp _, h.context⟩ rfl fun calls' c' hrest _ => hrest
  · exact AtRest.refuse ⟨h.sound.takes hp none, h.context⟩ o

theorem AtRest.constrained (h : AtRest calls c) (stream : ℕ) (asked : MediaTrackConstraints)
    (o : Outcome) : (Hosted.constrained stream asked o c).Meets (pact F) AtRest calls := by
  unfold Hosted.constrained
  split_ifs with hgranted
  · have hsound := h.sound.constrained stream asked o
    rw [Component.constrained, if_pos hgranted] at hsound
    exact AtRest.tells ⟨hsound, h.context⟩ rfl fun calls' c' hrest _ => hrest
  · exact h.refuse o

/-- **What settles**, in every outcome. -/
theorem AtRest.settle (h : AtRest calls c) (i : ℕ) (o : Outcome) :
    (Hosted.settle i o c).Meets (pact F) AtRest calls := by
  unfold Hosted.settle
  split
  · rename_i p hp
    split_ifs
    · cases p with
      | worklet run => exact h.loaded hp o
      | microphone run asked => exact h.heard hp o
      | connected run socket => exact h.connected hp _ o
      | failed run => exact (h.without hp).caught run o.message
      | switched run asked => exact h.switched hp o
      | constrained stream asked => exact (h.without hp).constrained stream asked o
    · exact h
  · exact h

end Settles

/-! ### Sockets and timers -/

section Sockets

variable {c : Component F} {calls : List Call} {i : ℕ}

/-- What happens to a socket that brings none into use. -/
theorem AtRest.touch (h : AtRest calls c) {f : Socket → Socket} (established : Bool) {talk : Talk F}
    (hf : ∀ s, (f s).inUse = true → s.inUse = true) (htalk : talk.state = c.talk.state) :
    AtRest calls { c with
      sockets := Client.touch i f c.sockets, established := established, talk := talk } := by
  have howned := h.sound.owned.touch i hf
  exact ⟨h.sound.same ⟨howned.contexts, howned.streams, howned.sockets⟩ rfl rfl rfl rfl rfl rfl htalk,
    h.context⟩

theorem AtRest.onOpen (h : AtRest calls c) (i : ℕ) :
    (Hosted.onOpen i c).Meets (pact F) AtRest calls := by
  unfold Hosted.onOpen
  refine AtRest.tells (c := { c with talk := { c.talk with connected := true } }) (h.talk rfl) rfl
    fun calls' c' hrest _ => ?_
  refine AtRest.tells (hrest.touch true (fun s hs => hs) ?_) rfl fun calls'' c'' hrest' _ => ?_
  · rw [Talk.pushHistory_state, Talk.sendSessionUpdate_state]
  · exact hrest'.touch c''.established (fun s hs => hs) rfl

theorem AtRest.onError (h : AtRest calls c) (i : ℕ) :
    (Hosted.onError i c).Meets (pact F) AtRest calls :=
  h.tells rfl fun _ _ hrest _ => ⟨hrest.sound.onError i, hrest.context⟩

/-- **A reconnection**, of a run that its handlers may end. -/
theorem AtRest.reconnect (h : AtRest calls c) (hws : c.ws = some i)
    (hnone : ∀ (j : ℕ) (s : Socket), c.sockets[j]? = some s → s.inUse = false) :
    (Hosted.reconnect c.run c).Meets (pact F) AtRest calls := by
  have hrunning := h.sound.running_of_ws hws
  have hfresh : some c.run ∉ c.timers := fun hmem => by simp [hrunning.ws hmem] at hws
  unfold Hosted.reconnect
  dsimp only
  set lost : Component F :=
    { c with ws := none, talk := { c.talk with connected := false }.flushPlayback } with hlost
  have hlostSound : lost.Sound := h.sound.loses hrunning hnone
  refine (hlostSound.closeAnswer hrunning.context (by simp)).andThen
    fun calls' c' hclosed => ?_
  obtain ⟨halike, hcalls⟩ := hclosed
  have hcontext : c'.context ≠ none := halike.context ▸ hrunning.context
  have hrest : AtRest calls' c' := AtRest.alike ⟨hlostSound, h.context⟩ halike hcalls
  have hforgot : AtRest calls' { c' with talk := c'.talk.forgetTurns } := hrest.talk rfl
  refine (hforgot.setState fun hnone => absurd hnone hcontext).andThen fun calls₂ c₂ hset => ?_
  obtain ⟨hrest₂, honward₂⟩ := hset
  refine hrest₂.tells rfl fun calls₃ c₃ hrest₃ honward₃ => ⟨?_, hrest₃.context⟩
  have honward : Onward lost c₃ :=
    .trans (.inl (halike.trans (.talk hforgot.sound))) (honward₂.trans honward₃)
  -- The timer is of the run that was lost, which may be over by now.
  rcases honward with hsame | hlater
  · refine hrest₃.sound.schedules hsame.run.ge fun _ => ⟨hsame.running ?_, hsame.ws, ?_⟩
    · exact ⟨hrunning.context, hrunning.pending, hrunning.timers, fun _ => rfl⟩
    · rw [hsame.timers, hsame.run]
      exact hfresh
  · exact hrest₃.sound.schedules hlater.le fun hnow => absurd hnow hlater.ne

/-- **A connection that is lost**: a run that a handler ended goes on to its teardown. -/
theorem AtRest.lose {c₀ : Component F} {calls₀ : List Call} (h₀ : AtRest calls₀ c₀)
    (hws : c₀.ws = some i) (hnone : ∀ (j : ℕ) (s : Socket), c₀.sockets[j]? = some s → s.inUse = false)
    (hrely : (pact F).rely .connectionClosed calls₀ c₀ calls c) {s : Socket} (hrun : s.run = c₀.run)
    (clean : Bool) (code : ℕ) : (Hosted.lose s clean code c).Meets (pact F) AtRest calls := by
  have h := (h₀.rely hrely).1
  have hrunning := h₀.sound.running_of_ws hws
  unfold Hosted.lose
  dsimp only
  by_cases hend : clean = true ∨ (!c.established) = true
  · rw [if_pos hend]
    split_ifs
    · exact h.sound.teardown_rests
    · refine AtRest.tells (c := c.tell (ascii "Connection lost, code " ++ natText code)) (h.talk rfl) rfl
        fun calls' c' hrest _ => hrest.sound.teardown_rests
  · rw [if_neg hend]
    -- A stop would have lowered `established`, so the run is still the one of the socket.
    obtain ⟨halike, hcalls⟩ : Alike c₀ c ∧ (Stopped calls → Stopped calls₀) := by
      refine hrely.resolve_right fun hmoved => hrunning.context (hmoved.2.established ?_).1
      simpa using (not_or.1 hend).2
    have hws' : c.ws = some i := halike.ws.trans hws
    rw [hrun, ← halike.run]
    split_ifs
    · have htold : AtRest calls (c.tell (ascii "Connection lost, code " ++ natText code ++
          ascii ", reconnecting")) := h.talk rfl
      refine htold.sound.tells_frail rfl (fun _ => halike.context.trans_ne hrunning.context)
        fun calls' c' halike' hcalls' => ?_
      have hrest : AtRest calls' c' := htold.alike halike' hcalls'
      have hreconnect := hrest.reconnect (halike'.ws.trans hws') fun j s' hs' => by
        rw [halike'.sockets] at hs'
        exact hnone j s' (halike.sockets ▸ hs')
      rwa [show c'.run = c.run from halike'.run] at hreconnect
    · exact h.reconnect hws' fun j s' hs' => hnone j s' (halike.sockets ▸ hs')

theorem AtRest.onClose (h : AtRest calls c) (i : ℕ) (s : Socket) (clean : Bool) (code : ℕ) :
    (Hosted.onClose i s clean code c).Meets (pact F) AtRest calls := by
  have hclosed : AtRest calls { c with
      sockets := Client.touch i (fun s => { s with closed := true }) c.sockets } :=
    h.touch c.established (fun _ hs => by simp [Socket.inUse] at hs) rfl
  unfold Hosted.onClose
  dsimp only
  by_cases hgone : c.ws ≠ some i ∨ s.run ≠ c.run
  · rw [if_pos hgone]
    exact hclosed
  · rw [if_neg hgone]
    obtain ⟨hws, hrun⟩ := not_or.1 hgone
    have hws : c.ws = some i := not_not.1 hws
    have hrun : s.run = c.run := not_not.1 hrun
    have hlost : AtRest calls { c with
        sockets := Client.touch i (fun s => { s with closed := true }) c.sockets
        talk := { c.talk with connected := false } } := hclosed.talk rfl
    refine ⟨⟨hlost.sound, fun hfrail => by simp [Site.frail] at hfrail⟩, fun calls' c' hrely => ?_⟩
    refine hlost.lose hws (fun j s' hj => ?_) hrely hrun clean code
    by_contra huse
    obtain rfl : i = j := Option.some.inj
      (hws.symm.trans (hlost.sound.owned.sockets j s' hj (Bool.eq_true_of_not_eq_false huse)))
    rw [getElem?_touch, if_pos rfl] at hj
    obtain ⟨s'', -, rfl⟩ := Option.map_eq_some_iff.1 hj
    simp [Socket.inUse] at huse

theorem AtRest.onTimer (h : AtRest calls c) {run : ℕ} (hi : c.timers[i]? = some (some run))
    (socket : Bool) : (Hosted.onTimer i run socket c).Meets (pact F) AtRest calls := by
  have hfired := h.sound.onTimer hi socket
  unfold Component.onTimer at hfired
  unfold Hosted.onTimer
  dsimp only at hfired ⊢
  split_ifs at hfired ⊢
  · exact AtRest.tells ⟨hfired, h.context⟩ rfl fun _ _ hrest _ => hrest
  · exact ⟨hfired, h.context⟩

end Sockets

/-! ### What the server sends, and what was played -/

section Events

variable {c : Component F} {calls : List Call}

/-- An answer is closed, and the state changes: only of a run that goes on. -/
theorem AtRest.closes (h : AtRest calls c) (hcontext : c.context ≠ none) (closer : Closer)
    (hcloser : closer ≠ .teardown) (s : State) :
    ((Hosted.closeAnswer closer c).andThen (Hosted.setState s)).Meets (pact F) AtRest calls := by
  refine (h.sound.closeAnswer hcontext hcloser).andThen fun calls' c' hclosed => ?_
  obtain ⟨halike, hcalls⟩ := hclosed
  exact (h.alike halike hcalls).setState_ends fun hnone => absurd (halike.context ▸ hnone) hcontext

theorem AtRest.told (h : AtRest calls c) (hcontext : c.context ≠ none) (e : ServerEvent F) :
    (Hosted.told c e).Meets (pact F) AtRest calls :=
  AtRest.tells (c := { c with talk := c.talk.onServerEvent e })
    ⟨h.sound.talk fun hnone => absurd hnone hcontext, h.context⟩ rfl fun _ _ hrest _ => hrest

theorem AtRest.taken (h : AtRest calls c) (hcontext : c.context ≠ none) (e : ServerEvent F) :
    (Hosted.taken c e).Meets (pact F) AtRest calls := by
  unfold Hosted.taken
  split_ifs
  · exact h.told hcontext e
  · exact h

/-- **A server event**, while a socket is in use. -/
theorem AtRest.onServerEvent (h : AtRest calls c) (hcontext : c.context ≠ none) (e : ServerEvent F) :
    (Hosted.onServerEvent c e).Meets (pact F) AtRest calls := by
  have htalk : ∀ talk : Talk F, AtRest calls { c with talk := talk } := fun talk =>
    ⟨h.sound.talk fun hnone => absurd hnone hcontext, h.context⟩
  cases e with
  | sessionUpdated voice =>
    rcases voice with - | ⟨voice, effect⟩
    · exact h
    · refine (htalk _).tells rfl fun calls' c' hrest _ => ?_
      exact AtRest.tells (c := { c' with talk := c'.talk.emit (.voice voice effect) }) (hrest.talk rfl) rfl
        fun _ _ hrest' _ => hrest'
  | speechStarted =>
    rw [Hosted.onServerEvent]
    split_ifs
    · exact (htalk c.talk.flushPlayback).closes hcontext .speechStarted (by simp) _
    · exact h.setState_ends fun hnone => absurd hnone hcontext
  | created =>
    rw [Hosted.onServerEvent]
    refine (h.sound.closeAnswer hcontext (by simp)).andThen fun calls' c' hclosed => ?_
    obtain ⟨halike, hcalls⟩ := hclosed
    have hcontext' : c'.context ≠ none := halike.context.trans_ne hcontext
    refine Sound.tells_frail (halike.sound.talk fun hnone => absurd hnone hcontext') rfl
      (fun _ => hcontext') fun calls'' c'' halike' hcalls' => ?_
    have hcontext'' : c''.context ≠ none := halike'.context.trans_ne hcontext'
    have hrest := (h.alike halike hcalls).context
    exact AtRest.setState_ends ⟨halike'.sound, fun hstopped => absurd (hrest (hcalls' hstopped)) hcontext'⟩
      fun hnone => absurd hnone hcontext''
  | audio pcm =>
    rcases pcm with - | pcm <;> rw [Hosted.onServerEvent] <;> split_ifs
    · exact h
    · exact h
    · exact (htalk _).setState_ends fun hnone => absurd hnone hcontext
    · exact h
  | cancelled => exact (htalk c.talk.flushPlayback).closes hcontext .cancelled (by simp) _
  | done =>
    rw [Hosted.onServerEvent]
    dsimp only
    split_ifs
    · exact (htalk { c.talk with answerDone := true }).closes hcontext .done (by simp) _
    · exact htalk _
  | transcript text item => exact h.told hcontext _
  | error message => exact h.told hcontext _
  | other => exact h
  | textDelta delta => exact h.taken hcontext _
  | toolStarted name => exact h.taken hcontext _
  | toolDone name ok ms bytes => exact h.taken hcontext _
  | spoken delta textEnd => exact h.taken hcontext _

/-- **A played report**, where the manners permit it. -/
theorem AtRest.onReport (h : AtRest calls c) {generation played : ℕ}
    (hpermits : (manners F).permits c (.report generation played) = true) :
    (Hosted.onReport generation played c).Meets (pact F) AtRest calls := by
  have hplayed : AtRest calls { c with talk := { c.talk with playedSamples := played } } := h.talk rfl
  unfold Hosted.onReport
  dsimp only
  split_ifs with hother hdone
  · exact h
  · have hcontext : c.context ≠ none := by
      intro hnone
      simp [manners, hnone, not_not.1 hother, hdone] at hpermits
    exact hplayed.closes hcontext .report (by simp) _
  · exact hplayed

/-- **Whatever happens to a client that keeps its manners.** -/
theorem AtRest.event (h : AtRest calls c) {e : Occurrence F}
    (hpermits : (manners F).permits c e = true) :
    ((hosted F).event e c).Meets (pact F) AtRest calls := by
  cases e with
  | settles i o => exact h.settle i o
  | opens i =>
    show (Hosted.event (.opens i) c).Meets (pact F) AtRest calls
    rw [Hosted.event]
    split_ifs
    · exact h.onOpen i
    · exact h
  | errs i =>
    show (Hosted.event (.errs i) c).Meets (pact F) AtRest calls
    rw [Hosted.event]
    split_ifs
    · exact h.onError i
    · exact h
  | closes i clean code =>
    show (Hosted.event (.closes i clean code) c).Meets (pact F) AtRest calls
    rw [Hosted.event]
    split
    · split_ifs
      · exact h
      · exact h.onClose ..
    · exact h
  | message i e =>
    show (Hosted.event (.message i e) c).Meets (pact F) AtRest calls
    rw [Hosted.event]
    split_ifs with huse
    · exact h.onServerEvent (h.sound.running_of_ws (h.sound.ws_of_use huse)).context e
    · exact h
  | fires i socket =>
    show (Hosted.event (.fires i socket) c).Meets (pact F) AtRest calls
    rw [Hosted.event]
    split
    · rename_i run hi
      exact h.onTimer hi socket
    · exact h
  | report generation played => exact h.onReport hpermits

/-- **A client keeps the pact.** -/
theorem keeps : Keeps (hosted F) (manners F) (pact F) AtRest where
  refl _ _ _ hamid := .inl ⟨.refl hamid.1, id⟩
  trans _ _ _ _ _ _ _ hrely hrely' := rely_trans hrely hrely'
  amid _ _ _ _ _ hamid hrely := rely_amid hamid hrely
  called site calls c k hamid hallows := by
    cases k with
    | start ok =>
      have hearly : site.early = false := by simpa [manners] using hallows
      by_cases hnone : c.context = none
      · have hfree : site.frail = false := by
          by_contra hfrail
          exact hamid.2 (Bool.eq_true_of_not_eq_false hfrail) hearly hnone
        exact (hamid.1.start_meets hnone ok (not_stopped_start calls ok)).mono fun _ _ hmoved =>
          .inr ⟨hfree, hmoved⟩
      · show (Hosted.start ok c).Meets _ _ _
        rw [Hosted.start, if_pos (by simpa [Option.isSome_iff_ne_none] using hnone)]
        exact .inl ⟨.refl hamid.1, fun hstopped => absurd hstopped (not_stopped_start calls ok)⟩
    | stop =>
      have hfree : site.frail = false := by simpa [manners] using hallows
      exact hamid.1.stop_meets.mono fun _ _ hmoved => .inr ⟨hfree, hmoved⟩
    | update options => exact .inl ⟨.update hamid.1 options, stopped_update⟩
  begins calls c k hrest := by
    cases k with
    | start ok =>
      by_cases hnone : c.context = none
      · exact (hrest.sound.start_meets hnone ok (not_stopped_start calls ok)).mono fun _ _ hmoved =>
          hmoved.atRest
      · show (Hosted.start ok c).Meets _ _ _
        rw [Hosted.start, if_pos (by simpa [Option.isSome_iff_ne_none] using hnone)]
        exact ⟨hrest.sound, fun hstopped => absurd hstopped (not_stopped_start calls ok)⟩
    | stop => exact hrest.sound.stop_meets.mono fun _ _ hmoved => hmoved.atRest
    | update options =>
      exact hrest.alike (.update hrest.sound options) stopped_update
  happens _ _ _ hrest hpermits := hrest.event hpermits

end Events

/-! ### Over a run -/

/-- What a stop leaves: no track is live, sockets and contexts are closed, the state is idle, and a
timer that fires makes no socket. -/
structure Released (c : Component F) : Prop where
  streams : ∀ s ∈ c.streams, s.live = false
  sockets : ∀ s ∈ c.sockets, s.inUse = false
  contexts : ∀ running ∈ c.contexts, running = false
  state : c.talk.state = .idle
  timers : ∀ i socket, ∃ c', (hosted F).event (.fires i socket) c = .ends c' ∧ c'.sockets = c.sockets

/-- **Without an audio context nothing is in use.** -/
theorem Sound.released {c : Component F} (h : c.Sound) (hnone : c.context = none) : Released c := by
  have hrest := h.idle hnone
  refine ⟨fun s hs => ?_, fun s hs => ?_, fun running hrunning => ?_, hrest.state, fun i socket => ?_⟩
  · obtain ⟨i, hi⟩ := List.mem_iff_getElem?.1 hs
    by_contra hlive
    have := h.owned.streams i s hi (Bool.eq_true_of_not_eq_false hlive)
    simp [hrest.stream] at this
  · obtain ⟨i, hi⟩ := List.mem_iff_getElem?.1 hs
    by_contra huse
    have := h.owned.sockets i s hi (Bool.eq_true_of_not_eq_false huse)
    simp [hrest.ws] at this
  · obtain ⟨i, hi⟩ := List.mem_iff_getElem?.1 hrunning
    by_contra huse
    obtain rfl := Bool.eq_true_of_not_eq_false huse
    simpa [hnone] using h.owned.contexts i hi
  · show ∃ c', Hosted.event (.fires i socket) c = .ends c' ∧ c'.sockets = c.sockets
    rw [Hosted.event]
    split
    · rename_i run hi
      have hpast : run ≠ c.run := fun hnow => hrest.timers (hnow ▸ List.mem_of_getElem? hi)
      rw [Hosted.onTimer, if_neg fun hconnect => hpast hconnect.1]
      exact ⟨_, rfl, rfl⟩
    · exact ⟨c, rfl, rfl⟩

/-- At most one of a list is in use when its place is known. -/
theorem length_filter_le_one {α : Type} {l : List α} {p : α → Bool} (place : Option ℕ)
    (h : ∀ (i : ℕ) a, l[i]? = some a → p a = true → place = some i) : (l.filter p).length ≤ 1 := by
  induction l generalizing place with
  | nil => simp
  | cons a l ih =>
    by_cases ha : p a = true
    · have hplace := h 0 a rfl ha
      have hnone : l.filter p = [] := by
        refine List.filter_eq_nil_iff.2 fun b hb hpb => ?_
        obtain ⟨i, hi⟩ := List.mem_iff_getElem?.1 hb
        have := hplace.symm.trans (h (i + 1) b (by simpa using hi) hpb)
        simp at this
      rw [List.filter_cons_of_pos ha, hnone]
      simp
    · rw [List.filter_cons_of_neg ha]
      refine ih (place.map Nat.pred) fun i b hi hpb => ?_
      rw [h (i + 1) b (by simpa using hi) hpb]
      rfl

/-- At most one socket and one context are in use. -/
theorem Sound.single {c : Component F} (h : c.Sound) :
    (c.sockets.filter Socket.inUse).length ≤ 1 ∧ (c.contexts.filter id).length ≤ 1 :=
  ⟨length_filter_le_one _ h.owned.sockets, length_filter_le_one _ fun i running hi hrunning =>
    h.owned.contexts i (by rw [hi]; exact congrArg some hrunning)⟩

end Component

/-- A client before its first start. -/
def fresh (F : Type) (options : S2SOptions) : Component F := { talk := { options := options } }

/-- **Nothing is left in use.**  In every run in which no frail handler stops the client, whatever
settles in whatever order and outcome and whatever the other handlers call: once the client was
stopped and not started again, and no handler runs, no track it acquired is live, its sockets and
contexts are closed, the state is idle and no timer makes a socket; and at any time, while a handler
runs too, at most one socket and one context are in use. -/
theorem client_released (options : S2SOptions) {moves : List (Move Call (Occurrence F))}
    (hcalm : (hosted F).along (manners F) { state := fresh F options } moves = true) :
    (((hosted F).run (fresh F options) moves).frames = [] →
      Stopped ((hosted F).run (fresh F options) moves).calls →
      Component.Released ((hosted F).run (fresh F options) moves).state) ∧
    (((hosted F).run (fresh F options) moves).state.sockets.filter Socket.inUse).length ≤ 1 ∧
    (((hosted F).run (fresh F options) moves).state.contexts.filter id).length ≤ 1 := by
  have hfresh : Component.AtRest [] (fresh F options) :=
    ⟨Component.sound_initial options, fun hstopped => absurd hstopped not_stopped_nil⟩
  have hstanding := Component.keeps.run hfresh hcalm
  generalize (hosted F).run (fresh F options) moves = c at hstanding
  obtain ⟨c, frames, calls⟩ := c
  constructor
  · rintro rfl hstopped
    have hrest : Component.AtRest calls c := hstanding
    exact hrest.sound.released (hrest.context hstopped)
  · exact (hstanding.always (fun _ _ hrest => hrest.sound) fun _ _ _ hamid => hamid.1).single

/-- A client that lost its connection, and has just said so in its log. -/
def lostRun : List (Move Call (Occurrence ℕ)) :=
  [.call (.start true), .returns,
    .event (.settles 0 {}), .returns,
    .event (.settles 0 {}), .returns, .returns,
    .event (.opens 0), .returns, .returns,
    .event (.settles 0 {}), .returns,
    .event (.closes 0 false 1006)]

/-- A stop from inside the handler of that line. -/
def stoppedRun : List (Move Call (Occurrence ℕ)) :=
  lostRun ++ [.call .stop, .returns, .returns, .returns, .returns]

theorem released_inside :
    Component.Released ((hosted ℕ).run (fresh ℕ ⟨none, none, none, none⟩) stoppedRun).state := by
  have hcalls : ((hosted ℕ).run (fresh ℕ ⟨none, none, none, none⟩) stoppedRun).calls =
      [.start true, .stop] := by decide +kernel
  refine (client_released ⟨none, none, none, none⟩ (by decide +kernel)).1 (by decide +kernel) ?_
  rw [hcalls]
  exact ⟨[.start true], [], rfl, by simp⟩

/-- A stop from inside the next handler, that of the error. -/
def droppedRun : List (Move Call (Occurrence ℕ)) :=
  lostRun ++ [.returns, .call .stop, .returns, .returns, .returns, .returns, .returns]

/-- **A stop from inside the error handler of a drop** is undone: `reconnect` comes after it, and the
client listens. -/
theorem stopped_while_dropped :
    ¬∀ (options : S2SOptions) (moves : List (Move Call (Occurrence ℕ))),
      ((hosted ℕ).run (fresh ℕ options) moves).frames = [] →
      Stopped ((hosted ℕ).run (fresh ℕ options) moves).calls →
      Component.Released ((hosted ℕ).run (fresh ℕ options) moves).state := by
  intro h
  have hcalls : ((hosted ℕ).run (fresh ℕ ⟨none, none, none, none⟩) droppedRun).calls =
      [.start true, .stop] := by decide +kernel
  have hreleased := h ⟨none, none, none, none⟩ droppedRun (by decide +kernel)
    (hcalls ▸ ⟨[.start true], [], rfl, by simp⟩)
  exact absurd hreleased.state (by decide +kernel)

end Client
end S2S
