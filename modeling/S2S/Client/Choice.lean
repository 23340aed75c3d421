/-
# The last choice of a microphone

`update` of `src/tools/webui/src/lib/s2s.ts` asks for another microphone, or for
other constraints on the one it has, and nothing orders what it asked for: a
request that was made first may be granted last, and a change that comes while
the first microphone of a start is still asked for reaches nobody
(`stale_microphone`).  A request that the options left behind (`stale`) does no
harm while another is pending that takes its place (`relieved`); where no other
settles (`careful`), the last choice wins (`last_choice_wins`).
-/

import S2S.Client.Phases

namespace S2S
namespace Client

open Json

variable {F : Type}

/-! ### What the conversation leaves alone -/

namespace Talk

/-- What the microphone rests on, and whether there is a worklet. -/
def micSetup (t : Talk F) : Option Bytes × Option Echo × Bool := (t.options.mic, t.options.echo, t.duplex)

section Small

variable (t : Talk F)

@[simp] theorem emit_micSetup (o : Output F) : (t.emit o).micSetup = t.micSetup := rfl

@[simp] theorem send_micSetup (f : ClientFrame) : (t.send f).micSetup = t.micSetup := by
  rw [send_eq]; rfl

@[simp] theorem post_micSetup (p : Post F) : (t.post p).micSetup = t.micSetup := by
  rw [post_eq]; rfl

@[simp] theorem flushPlayback_micSetup : t.flushPlayback.micSetup = t.micSetup := t.post_micSetup _

@[simp] theorem setState_micSetup (s : State) : (t.setState s).micSetup = t.micSetup := by
  rw [setState_eq]; rfl

@[simp] theorem pushHistory_micSetup : t.pushHistory.micSetup = t.micSetup := by simp [pushHistory]

@[simp] theorem closeAnswer_micSetup : t.closeAnswer.micSetup = t.micSetup := by
  rcases Bool.eq_false_or_eq_true t.answering with h | h
  · rw [closeAnswer_eq t h]; rfl
  · rw [closeAnswer_idle t h]

/-- A server event changes neither the microphone nor the echo method. -/
theorem onServerEvent_micSetup (e : ServerEvent F) : (t.onServerEvent e).micSetup = t.micSetup := by
  cases e with
  | sessionUpdated voice => rcases voice with - | ⟨voice, effect⟩ <;> rfl
  | speechStarted =>
    rw [onServerEvent]
    split_ifs <;> simp
  | transcript text item => rfl
  | created =>
    rw [onServerEvent, setState_micSetup, emit_micSetup, post_micSetup]
    exact t.closeAnswer_micSetup
  | audio pcm =>
    rcases pcm with - | pcm <;> rw [onServerEvent] <;> split_ifs
    · rfl
    · rfl
    · rw [setState_micSetup, post_micSetup]; rfl
    · rfl
  | cancelled => simp [onServerEvent]
  | done =>
    rw [onServerEvent]
    dsimp only
    split_ifs
    · rw [setState_micSetup, closeAnswer_micSetup]; rfl
    · rfl
  | error message => rfl
  | other => rfl
  | _ =>
    rw [onServerEvent]
    split_ifs <;> rfl

theorem onOpen_micSetup : t.onOpen.micSetup = t.micSetup := by
  rw [onOpen, pushHistory_micSetup, sendSessionUpdate, send_micSetup]
  rfl

theorem reconnect_micSetup : t.reconnect.micSetup = t.micSetup := by
  rw [reconnect, setState_micSetup]
  show Talk.micSetup (closeAnswer (flushPlayback { t with connected := false })) = _
  rw [closeAnswer_micSetup, flushPlayback_micSetup]
  rfl

end Small

end Talk

/-- The constraints rest on the microphone and the echo method alone. -/
theorem constraints_congr {o o' : S2SOptions} (hmic : o'.mic = o.mic)
    (hecho : o'.echoMethod = o.echoMethod) : o'.constraints = o.constraints := by
  rw [S2SOptions.constraints, S2SOptions.constraints, hmic, hecho]

/-- A socket, and so no request for a microphone. -/
def Pending.ofSocket : Pending → Bool
  | .connected _ _ => true
  | _ => false

namespace Component

/-! ### Requests -/

/-- The constraints the options ask for. -/
abbrev constraints (c : Component F) : MediaTrackConstraints := c.talk.options.constraints

/-- A request that would be taken and asks for something else than the options do by now. -/
def stale (c : Component F) : Pending → Bool
  | .microphone run asked => run = c.run ∧ asked ≠ c.constraints
  | .switched run asked => run = c.run ∧ asked ≠ c.constraints
  | .constrained stream asked => c.stream = some stream ∧ asked.processing ≠ c.constraints.processing
  | _ => false

/-- A pending request that takes the place of another: a stream of its own, or other constraints on
the same one. -/
def relieves (c : Component F) : Pending → Pending → Bool
  | .switched _ _, .switched run _ => run = c.run
  | .constrained _ _, .switched run _ => run = c.run
  | .constrained stream _, .constrained stream' _ => stream' = stream
  | _, _ => false

/-- **No stale request settles as the last of those that could put it right.** -/
def careful (c : Component F) : Happening F → Bool
  | .settles i _ => c.pending[i]?.all fun p => !c.stale p || (c.pending.eraseIdx i).any (c.relieves p)
  | _ => true

/-- A request that a change caused is granted, and its stream can be connected. -/
def granted (c : Component F) : Happening F → Bool
  | .settles i o => c.pending[i]?.all fun p =>
    match p with
    | .switched _ _ => o.granted && o.graph
    | .constrained _ _ => o.granted
    | _ => true
  | _ => true

/-- A condition at every step of a run. -/
def along (q : Component F → Happening F → Bool) : Component F → List (Happening F) → Bool
  | _, [] => true
  | c, h :: later => q c h && along q (c.step h) later

/-! ### The stream in use -/

/-- The stream in use is the one the options ask for, or a request is pending that will see to it. -/
structure Serving (c : Component F) (i : ℕ) (s : MediaStream) : Prop where
  stream : c.stream = some i
  source : c.source = some i
  duplex : c.talk.duplex = true
  nth : c.streams[i]? = some s
  live : s.live = true
  chosen : (∃ asked, .switched c.run asked ∈ c.pending) ∨
    (s.device = c.constraints.deviceId ∧
      ((∃ asked, .constrained i asked ∈ c.pending) ∨ s.processing = c.constraints.processing))

/-- A client at rest, a start that has no microphone yet or failed, a microphone in use. -/
inductive Choice (c : Component F) : Prop
  | rest (h : c.context = none)
  | start (p : Pending) (h : p ∈ c.pending) (hrun : p.run = some c.run)
      (hp : p.Early ∨ p = .failed c.run)
  | serving (i : ℕ) (s : MediaStream) (h : c.Serving i s)

section Parts

variable {c c' : Component F}

theorem constraints_of_setup (h : c'.talk.micSetup = c.talk.micSetup) :
    c'.constraints = c.constraints ∧ c'.talk.duplex = c.talk.duplex := by
  obtain ⟨hmic, hrest⟩ := Prod.mk.inj h
  obtain ⟨hecho, hduplex⟩ := Prod.mk.inj hrest
  exact ⟨constraints_congr hmic (by rw [S2SOptions.echoMethod, S2SOptions.echoMethod, hecho]), hduplex⟩

/-- A step that leaves the microphone and what is pending of it alone. -/
theorem Choice.same (h : c.Choice) (hcontext : c'.context = c.context) (hrun : c'.run = c.run)
    (hstream : c'.stream = c.stream) (hsource : c'.source = c.source)
    (hstreams : ∀ (i : ℕ) s, c.streams[i]? = some s → c'.streams[i]? = some s)
    (hpending : c.pending ⊆ c'.pending) (hsetup : c'.talk.micSetup = c.talk.micSetup) : c'.Choice := by
  obtain ⟨hconstraints, hduplex⟩ := constraints_of_setup hsetup
  cases h with
  | rest h => exact .rest (hcontext.trans h)
  | start p h hp hearly => exact .start p (hpending h) (hrun ▸ hp) (hrun ▸ hearly)
  | serving i s h =>
    refine .serving i s ⟨hstream.trans h.stream, hsource.trans h.source, hduplex.trans h.duplex,
      hstreams i s h.nth, h.live, ?_⟩
    rw [hrun, hconstraints]
    rcases h.chosen with ⟨asked, hasked⟩ | ⟨hdevice, ⟨asked, hasked⟩ | hprocessing⟩
    · exact .inl ⟨asked, hpending hasked⟩
    · exact .inr ⟨hdevice, .inl ⟨asked, hpending hasked⟩⟩
    · exact .inr ⟨hdevice, .inr hprocessing⟩

theorem Choice.talk (h : c.Choice) {talk : Talk F} (hsetup : talk.micSetup = c.talk.micSetup) :
    Choice { c with talk := talk } :=
  h.same rfl rfl rfl rfl (fun _ _ hs => hs) (List.Subset.refl _) hsetup

theorem Choice.await (h : c.Choice) (p : Pending) : (c.await p).Choice :=
  h.same rfl rfl rfl rfl (fun _ _ hs => hs) (List.subset_append_left _ _) rfl

theorem Choice.teardown (c : Component F) : c.teardown.Choice := .rest rfl

theorem Choice.caught (h : c.Choice) (run : ℕ) (message : Bytes) : (c.caught run message).Choice := by
  rw [Component.caught]
  split_ifs
  · exact h
  · exact .teardown _

/-- A start that failed waits for its end. -/
theorem Choice.fails (c : Component F) : (c.await (.failed c.run)).Choice :=
  .start (.failed c.run) (List.mem_append_right _ List.mem_cons_self) rfl (.inr rfl)

/-! ### What settles -/

theorem mem_without {i : ℕ} {p q : Pending} (hp : c.pending[i]? = some p) (hq : q ∈ c.pending)
    (hne : q ≠ p) : q ∈ (c.without i).pending := by
  obtain ⟨j, hj⟩ := List.mem_iff_getElem?.1 hq
  refine List.mem_eraseIdx_iff_getElem?.2 ⟨j, fun hij => hne ?_, hj⟩
  rw [hij, hp] at hj
  exact (Option.some.inj hj).symm

/-- Something pending that the microphone does not rest on is gone. -/
theorem Choice.without (h : c.Choice) {i : ℕ} {p : Pending} (hp : c.pending[i]? = some p)
    (hstart : p.run = some c.run → ¬p.Early ∧ p ≠ .failed c.run)
    (hswitched : ∀ asked, p ≠ .switched c.run asked)
    (hconstrained : ∀ stream asked, p ≠ .constrained stream asked) : (c.without i).Choice := by
  cases h with
  | rest h => exact .rest h
  | start q h hq hearly =>
    refine .start q (mem_without hp h ?_) hq hearly
    rintro rfl
    exact hearly.elim (hstart hq).1 (hstart hq).2
  | serving j s h =>
    refine .serving j s ⟨h.stream, h.source, h.duplex, h.nth, h.live, ?_⟩
    rcases h.chosen with ⟨asked, hasked⟩ | ⟨hdevice, ⟨asked, hasked⟩ | hprocessing⟩
    · exact .inl ⟨asked, mem_without hp hasked (hswitched asked).symm⟩
    · exact .inr ⟨hdevice, .inl ⟨asked, mem_without hp hasked (hconstrained j asked).symm⟩⟩
    · exact .inr ⟨hdevice, .inr hprocessing⟩

/-- A stream that is released on the spot leaves the others as they are. -/
theorem Choice.release (h : c.Choice) (asked : MediaTrackConstraints) :
    ((c.acquire asked).stopTracks c.streams.length).Choice := by
  refine h.same rfl rfl rfl rfl (fun i s hs => ?_) (List.Subset.refl _) rfl
  have hlt : i < c.streams.length := (List.getElem?_eq_some_iff.1 hs).1
  rw [show ((c.acquire asked).stopTracks c.streams.length).streams = touch (some c.streams.length)
    (fun s => { s with live := false })
    (c.streams ++ [⟨true, asked.deviceId, asked.processing⟩]) from rfl, getElem?_touch,
    if_neg (by simp; omega), List.getElem?_append_left hlt]
  exact hs

theorem Choice.loaded (h : c.Choice) {i run : ℕ} (hp : c.pending[i]? = some (.worklet run))
    (o : Outcome) : ((c.without i).loaded run o).Choice := by
  by_cases hrun : run = c.run
  · subst hrun
    rw [Component.loaded]
    split_ifs with hgranted hrun
    · exact .fails _
    · exact absurd rfl hrun
    · exact .start _ (List.mem_append_right _ List.mem_cons_self) rfl (.inl trivial)
  · have hd := h.without hp (fun h => absurd (Option.some.inj h) hrun) (by simp) (by simp)
    rw [Component.loaded]
    split_ifs
    · exact hd.await _
    · exact hd

theorem Choice.heard (h : c.Choice) {i run : ℕ} {asked : MediaTrackConstraints}
    (hp : c.pending[i]? = some (.microphone run asked)) (o : Outcome)
    (hcareful : c.stale (.microphone run asked) = false) : ((c.without i).heard run asked o).Choice := by
  by_cases hrun : run = c.run
  · subst hrun
    have hasked : asked = c.constraints := by simpa [stale] using hcareful
    have hnth : (c.streams ++ [⟨true, asked.deviceId, asked.processing⟩])[c.streams.length]? =
        some ⟨true, asked.deviceId, asked.processing⟩ := by simp
    have hchosen : asked.deviceId = c.constraints.deviceId ∧
        asked.processing = c.constraints.processing := by rw [hasked]; exact ⟨rfl, rfl⟩
    rw [Component.heard]
    dsimp only
    split_ifs with hgranted hrun hgraph hsocket
    · exact .fails _
    · exact absurd rfl hrun
    · exact .fails _
    · exact .serving _ _ ⟨rfl, rfl, rfl, hnth, rfl, .inr ⟨hchosen.1, .inr hchosen.2⟩⟩
    · exact .fails _
  · have hd := h.without hp (fun h => absurd (Option.some.inj h) hrun) (by simp) (by simp)
    rw [Component.heard]
    dsimp only
    split_ifs
    · exact hd.await _
    · exact hd.release asked

theorem Choice.connected (h : c.Choice) {i run socket : ℕ}
    (hp : c.pending[i]? = some (.connected run socket)) (opened : Bool) (o : Outcome) :
    ((c.without i).connected run opened o).Choice := by
  have hd := h.without hp (fun _ => ⟨id, by simp⟩) (by simp) (by simp)
  rw [Component.connected]
  split_ifs
  · exact hd.caught run o.message
  · exact hd
  · exact hd.talk (Talk.setState_micSetup _ _)

theorem Choice.failed (h : c.Choice) {i run : ℕ} (hp : c.pending[i]? = some (.failed run))
    (message : Bytes) : ((c.without i).caught run message).Choice := by
  rw [Component.caught]
  split_ifs with hrun
  · exact h.without hp (fun h => absurd (Option.some.inj h) hrun) (by simp) (by simp)
  · exact .teardown _

/-- **The last of the requests for a microphone takes the options with it.** -/
theorem Choice.switched (h : c.Choice) {i run : ℕ} {asked : MediaTrackConstraints}
    (hp : c.pending[i]? = some (.switched run asked)) {o : Outcome}
    (hgranted : o.granted = true) (hgraph : o.graph = true)
    (hcareful : c.stale (.switched run asked) = false ∨
      ∃ q ∈ (c.without i).pending, c.relieves (.switched run asked) q = true) :
    ((c.without i).switched run asked o).Choice := by
  rw [Component.switched]
  simp only [hgranted, hgraph, Bool.not_true, Bool.false_eq_true, if_false, if_true]
  cases h with
  | rest h => split_ifs <;> exact .rest h
  | start q h hq hearly =>
    have hq' := mem_without hp h (by rintro rfl; exact hearly.elim id (by simp))
    split_ifs <;> exact .start q hq' hq hearly
  | serving j s h =>
    by_cases hrun : run = c.run
    · subst hrun
      split_ifs with hgone
      · have hcontext : c.context = none := by simpa [h.duplex] using hgone
        exact .rest hcontext
      · have hlt : j < c.streams.length := (List.getElem?_eq_some_iff.1 h.nth).1
        have hnth : (touch c.stream (fun s => { s with live := false })
            (c.streams ++ [⟨true, asked.deviceId, asked.processing⟩]))[c.streams.length]? =
            some ⟨true, asked.deviceId, asked.processing⟩ := by
          rw [getElem?_touch, if_neg (by rw [h.stream]; simp; omega)]
          simp
        refine .serving _ _ ⟨rfl, rfl, h.duplex, hnth, rfl, ?_⟩
        rcases hcareful with hcareful | ⟨q, hq, hrelieves⟩
        · have hasked : asked = c.constraints := by simpa [stale] using hcareful
          rw [hasked]
          exact .inr ⟨rfl, .inr rfl⟩
        · cases q with
          | switched run asked' =>
            obtain rfl : run = c.run := by simpa [relieves] using hrelieves
            exact .inl ⟨asked', hq⟩
          | _ => simp [relieves] at hrelieves
    · have hd := Choice.without (.serving j s h) hp (fun _ => ⟨id, by simp⟩) (by simp [hrun]) (by simp)
      rw [if_pos (.inl hrun)]
      exact hd.release asked

/-- **So does the last of the requests for other constraints.** -/
theorem Choice.constrained (h : c.Choice) {i stream : ℕ} {asked : MediaTrackConstraints}
    (hp : c.pending[i]? = some (.constrained stream asked)) {o : Outcome} (hgranted : o.granted = true)
    (hcareful : c.stale (.constrained stream asked) = false ∨
      ∃ q ∈ (c.without i).pending, c.relieves (.constrained stream asked) q = true) :
    ((c.without i).constrained stream asked o).Choice := by
  rw [Component.constrained, if_pos hgranted]
  cases h with
  | rest h => exact .rest h
  | start q h hq hearly =>
    refine .start q (mem_without hp h ?_) hq hearly
    rintro rfl
    exact hearly.elim id (by simp)
  | serving j s h =>
    have hswitched : ∀ asked', .switched c.run asked' ∈ c.pending →
        .switched c.run asked' ∈ (c.without i).pending := fun _ h => mem_without hp h (by simp)
    by_cases hj : stream = j
    · subst hj
      have hnth : (Client.touch (some stream) (fun s => { s with processing := asked.processing })
          c.streams)[stream]? = some { s with processing := asked.processing } := by
        rw [getElem?_touch, if_pos rfl, h.nth]
        rfl
      refine .serving stream { s with processing := asked.processing } ⟨h.stream, h.source, h.duplex,
        hnth, h.live, ?_⟩
      rcases h.chosen with ⟨asked', hasked'⟩ | ⟨hdevice, -⟩
      · exact .inl ⟨asked', hswitched asked' hasked'⟩
      rcases hcareful with hcareful | ⟨q, hq, hrelieves⟩
      · have hasked : asked.processing = c.constraints.processing := by
          simpa [stale, h.stream] using hcareful
        exact .inr ⟨hdevice, .inr hasked⟩
      · cases q with
        | switched run asked' =>
          obtain rfl : run = c.run := by simpa [relieves] using hrelieves
          exact .inl ⟨asked', hq⟩
        | constrained stream' asked' =>
          obtain rfl : stream' = stream := by simpa [relieves] using hrelieves
          exact .inr ⟨hdevice, .inl ⟨asked', hq⟩⟩
        | _ => simp [relieves] at hrelieves
    · have hnth : (Client.touch (some stream) (fun s => { s with processing := asked.processing })
          c.streams)[j]? = some s := by
        rw [getElem?_touch, if_neg (by simpa using hj)]
        exact h.nth
      refine .serving j s ⟨h.stream, h.source, h.duplex, hnth, h.live, ?_⟩
      rcases h.chosen with ⟨asked', hasked'⟩ | ⟨hdevice, ⟨asked', hasked'⟩ | hprocessing⟩
      · exact .inl ⟨asked', hswitched asked' hasked'⟩
      · exact .inr ⟨hdevice, .inl ⟨asked', mem_without hp hasked' (by simp [Ne.symm hj])⟩⟩
      · exact .inr ⟨hdevice, .inr hprocessing⟩

theorem Choice.settle (h : c.Choice) {i : ℕ} {o : Outcome}
    (hgranted : granted c (.settles i o) = true) (hcareful : careful c (.settles i o) = true) :
    (c.settle i o).Choice := by
  rw [Component.settle]
  split
  · rename_i p hp
    split_ifs
    · have hfree : c.stale p = false ∨ ∃ q ∈ (c.without i).pending, c.relieves p q = true := by
        simpa [careful, hp] using hcareful
      cases p with
      | worklet run => exact h.loaded hp o
      | microphone run asked => exact h.heard hp o (hfree.resolve_right fun ⟨q, _, hq⟩ => by cases q <;> simp [relieves] at hq)
      | connected run socket => exact h.connected hp _ o
      | failed run => exact h.failed hp o.message
      | switched run asked =>
        have hall : o.granted = true ∧ o.graph = true := by simpa [granted, hp] using hgranted
        exact h.switched hp hall.1 hall.2 hfree
      | constrained stream asked =>
        exact h.constrained hp (by simpa [granted, hp] using hgranted) hfree
    · exact h
  · exact h

/-! ### What else happens -/

theorem Choice.start' (h : c.Choice) (ok : Bool) : (c.start ok).Choice := by
  rw [Component.start]
  split_ifs with hcontext
  · exact h
  · exact .start _ (List.mem_append_right _ List.mem_cons_self) rfl (.inl trivial)
  · have hnone : c.context = none := by simpa using hcontext
    exact .rest hnone

theorem applyEcho_eq {i : ℕ} (h : c.stream = some i) :
    c.applyEcho = c.await (.constrained i (micConstraints c.talk.options.echoMethod none)) := by
  rw [applyEcho, h]

/-- **A change of the microphone asks for a stream, one of the echo method for other constraints.** -/
theorem Choice.update (h : c.Choice) (options : S2SOptions) : (c.update options).Choice := by
  have hsetup : (c.talk.update options).options = options ∧ (c.talk.update options).duplex = c.talk.duplex := by
    rw [Talk.update, Talk.sendSessionUpdate, Talk.send_eq]
    exact ⟨rfl, rfl⟩
  have hpending : c.pending ⊆ (c.update options).pending ∧ (c.update options).context = c.context ∧
      (c.update options).run = c.run := by
    unfold Component.update Component.applyEcho
    dsimp only
    split_ifs
    · exact ⟨List.subset_append_left _ _, rfl, rfl⟩
    · split
      · exact ⟨List.subset_append_left _ _, rfl, rfl⟩
      · exact ⟨List.Subset.refl _, rfl, rfl⟩
    · exact ⟨List.Subset.refl _, rfl, rfl⟩
  cases h with
  | rest h => exact .rest (hpending.2.1.trans h)
  | start p h hp hearly =>
    exact .start p (hpending.1 h) (hpending.2.2 ▸ hp) (hpending.2.2 ▸ hearly)
  | serving i s h =>
    have hrun : (c.update options).run = c.run := hpending.2.2
    unfold Component.update at hrun ⊢
    simp only [show c.stream.isSome = true by rw [h.stream]; rfl, true_and] at hrun ⊢
    split_ifs with hmic hecho
    · exact .serving i s ⟨h.stream, h.source, hsetup.2.trans h.duplex, h.nth, h.live,
        .inl ⟨_, List.mem_append_right _ List.mem_cons_self⟩⟩
    · rw [applyEcho_eq (c := { c with talk := c.talk.update options }) h.stream]
      have hdevice : (c.talk.update options).options.constraints.deviceId = c.constraints.deviceId := by
        rw [hsetup.1]
        exact congrArg (Option.filter (· ≠ [])) (not_not.1 hmic)
      refine .serving i s ⟨h.stream, h.source, hsetup.2.trans h.duplex, h.nth, h.live, ?_⟩
      rcases h.chosen with ⟨asked, hasked⟩ | ⟨hserved, -⟩
      · exact .inl ⟨asked, List.mem_append_left _ hasked⟩
      · exact .inr ⟨hserved.trans hdevice.symm, .inl ⟨_, List.mem_append_right _ List.mem_cons_self⟩⟩
    · have hconstraints : (c.talk.update options).options.constraints = c.constraints := by
        rw [hsetup.1]
        exact constraints_congr (not_not.1 hmic) (not_not.1 hecho)
      refine .serving i s ⟨h.stream, h.source, hsetup.2.trans h.duplex, h.nth, h.live, ?_⟩
      rw [show Component.constraints { c with talk := c.talk.update options } = c.constraints from hconstraints]
      exact h.chosen

theorem Choice.onClose (h : c.Choice) (i : ℕ) (s : Socket) (clean : Bool) (code : ℕ) :
    (c.onClose i s clean code).Choice := by
  have hclosed : Choice { c with
      sockets := Client.touch i (fun s => { s with closed := true }) c.sockets } :=
    h.same rfl rfl rfl rfl (fun _ _ hs => hs) (List.Subset.refl _) rfl
  rw [Component.onClose]
  dsimp only
  split_ifs
  · exact hclosed
  · exact .teardown _
  · exact .teardown _
  · exact h.same rfl rfl rfl rfl (fun _ _ hs => hs) (List.Subset.refl _) (Talk.reconnect_micSetup _)
  · exact h.same rfl rfl rfl rfl (fun _ _ hs => hs) (List.Subset.refl _) (Talk.reconnect_micSetup _)

theorem Choice.onTimer (h : c.Choice) (i run : ℕ) (socket : Bool) : (c.onTimer i run socket).Choice := by
  rw [Component.onTimer]
  dsimp only
  split_ifs <;> exact h.same rfl rfl rfl rfl (fun _ _ hs => hs) (List.Subset.refl _) rfl

/-- **A careful step keeps the choice.** -/
theorem Choice.step (h : c.Choice) {happening : Happening F} (hgranted : granted c happening = true)
    (hcareful : careful c happening = true) : (c.step happening).Choice := by
  cases happening with
  | start ok => exact h.start' ok
  | stop => exact .teardown c
  | update options => exact h.update options
  | settles i o => exact h.settle hgranted hcareful
  | opens i =>
    rw [Component.step]
    split_ifs
    · exact h.same rfl rfl rfl rfl (fun _ _ hs => hs) (List.Subset.refl _) (Talk.onOpen_micSetup _)
    · exact h
  | errs i =>
    rw [Component.step]
    split_ifs
    · exact h.same rfl rfl rfl rfl (fun _ _ hs => hs) (List.Subset.refl _) rfl
    · exact h
  | closes i clean code =>
    rw [Component.step]
    split
    · split_ifs
      · exact h
      · exact h.onClose ..
    · exact h
  | message i e =>
    rw [Component.step]
    split_ifs
    · exact h.talk (Talk.onServerEvent_micSetup _ e)
    · exact h
  | fires i socket =>
    rw [Component.step]
    split
    · exact h.onTimer ..
    · exact h

/-- **So does a careful run.** -/
theorem Choice.run (h : c.Choice) {happenings : List (Happening F)}
    (hgranted : along granted c happenings = true) (hcareful : along careful c happenings = true) :
    (happenings.foldl Component.step c).Choice := by
  induction happenings generalizing c with
  | nil => exact h
  | cons happening later ih =>
    rw [along, Bool.and_eq_true] at hgranted hcareful
    exact ih (h.step hgranted.1 hcareful.1) hgranted.2 hcareful.2

end Parts

/-! ### The last choice -/

/-- **The last choice wins** where no stale request settles as the last of those that could put it
right: once no request is pending, the stream in front of the worklet is live, was opened on the device
of the options and has the processing of the echo method, and no other stream is live. -/
theorem last_choice_wins (options : S2SOptions) (happenings : List (Happening F))
    (hgranted : along granted (after options []) happenings = true)
    (hcareful : along careful (after options []) happenings = true)
    (hcontext : (after options happenings).context.isSome = true)
    (hpending : ∀ p ∈ (after options happenings).pending, p.ofSocket = true) :
    ∃ i s, (after options happenings).stream = some i ∧ (after options happenings).source = some i ∧
      (after options happenings).streams[i]? = some s ∧ s.live = true ∧
      s.device = (after options happenings).talk.options.constraints.deviceId ∧
      s.processing = (after options happenings).talk.options.constraints.processing ∧
      ∀ (j : ℕ) s', (after options happenings).streams[j]? = some s' → j ≠ i → s'.live = false := by
  have hsound := after_sound options happenings
  have hrun := Choice.run (.rest rfl) hgranted hcareful
  rw [show happenings.foldl Component.step (after options []) = after options happenings from rfl] at hrun
  cases hrun with
  | rest h => simp [h] at hcontext
  | start p h _ hearly =>
    have hsocket := hpending p h
    cases p <;> simp [Pending.ofSocket, Pending.Early] at hsocket hearly
  | serving i s h =>
    obtain ⟨hdevice, hprocessing⟩ := h.chosen.resolve_left fun ⟨asked, hasked⟩ =>
      Bool.false_ne_true (hpending _ hasked)
    have hprocessing := hprocessing.resolve_left fun ⟨asked, hasked⟩ =>
      Bool.false_ne_true (hpending _ hasked)
    refine ⟨i, s, h.stream, h.source, h.nth, h.live, hdevice, hprocessing, fun j s' hs' hne => ?_⟩
    by_contra hlive
    have hj := hsound.owned.streams j s' hs' (Bool.eq_true_of_not_eq_false hlive)
    exact hne (Option.some.inj (hj.symm.trans h.stream))

/-- A client on microphone `a` that runs. -/
def running : List (Happening Unit) :=
  [.start true, .settles 0 {}, .settles 0 {}, .opens 0, .settles 0 {}]

/-- The options with another microphone. -/
def onMic (mic : Bytes) : S2SOptions := ⟨some mic, none, none, none⟩

/-- Two switches and an echo method, granted in the order they were asked for. -/
theorem last_choice_wins_in_order :
    let happenings := running ++ [.update (onMic [98]), .update (onMic [99]), .settles 0 {},
      .settles 0 {}, .update { onMic [99] with echo := some .server }, .settles 0 {}]
    ∃ i s, (after (onMic [97]) happenings).stream = some i ∧
      (after (onMic [97]) happenings).source = some i ∧
      (after (onMic [97]) happenings).streams[i]? = some s ∧ s.live = true ∧
      s.device = (after (onMic [97]) happenings).talk.options.constraints.deviceId ∧
      s.processing = (after (onMic [97]) happenings).talk.options.constraints.processing ∧
      ∀ (j : ℕ) s', (after (onMic [97]) happenings).streams[j]? = some s' → j ≠ i → s'.live = false :=
  last_choice_wins (onMic [97]) _ (by decide) (by decide) (by decide) (by decide)

/-- **An older request settles last.**  Of two switches the second is granted first: every request
was granted and none is pending, and the stream in use is the one of the first. -/
theorem stale_microphone :
    let happenings := running ++ [.update (onMic [98]), .update (onMic [99]), .settles 1 {},
      .settles 0 {}]
    let c := after (onMic [97]) happenings
    along granted (after (onMic [97]) []) happenings = true ∧ c.context.isSome = true ∧
      c.pending = [] ∧ c.talk.options.mic = some [99] ∧
      (c.stream.bind fun i => c.streams[i]?).map MediaStream.device = some (some [98]) := by decide

end Component

end Client
end S2S
