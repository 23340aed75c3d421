/-
# A client, its server, and what is on its way between them

One connection of `src/tools/webui/src/lib/s2s.ts` to
`src/src/s2s-conversation.cpp`, while it stands: the client, the four threads of
the server, and the two directions of the socket, each in order (`Link`).  A step
is one action of one thread, a frame that goes up or comes down, something that
the host of the client does, or the microphone (`Step`); they may come in any
order.

The frames of the client reach the reader parsed (`Reads`), those of the server
reach the client as events (`Tells`).  A connection that is lost ends there: the
client opens another one, with another server.
-/

import S2S.Client.Talk
import S2S.Conversation.Effects
import S2S.Conversation.Hands
import Mathlib.Logic.Relation

namespace S2S
namespace Wire

open Json Thread Conversation Client

variable {F V S : Type}

/-! ### Frames -/

/-- A frame on its way to the server; audio as the session will get it. -/
inductive Upward (F : Type)
  | frame (f : ClientFrame)
  | audio (errors : List Bytes) (pcm : List F)

/-- A frame, and the answer that the client held open when it sent it, which the frame does not
tell. -/
structure Posted (F : Type) where
  frame : Upward F
  held : Option ℕ

/-- What an update makes of the voice (`conn_apply_patch`): the one it names and an effect that the
server knows, the defaults otherwise. -/
structure Applies (P : Setup F V S) (o : S2SOptions) (settings : Settings) : Prop where
  voice : settings.voice = if o.voice.getD [] = [] then P.defaults.voice else o.voice.getD []
  effect : settings.effect =
    if o.effect.getD [] ∈ P.effects then o.effect.getD [] else P.defaults.effect

/-- What the reader makes of a frame of the client (`rt_parse`). -/
def Reads (P : Setup F V S) : Upward F → Incoming F → Prop
  | .frame (.sessionUpdate o), x => ∃ errors settings params invalid,
      x = .update errors settings params invalid ∧ Applies P o settings
  | .frame .responseCancel, x => x = .cancel
  | .frame (.history messages), x => x = .history (messages.map S2SMessage.wire)
  | .audio errors pcm, x => x = .audio errors pcm

/-- A reading of a frame: an update with nothing wrong and nothing but the voice. -/
def parsed (P : Setup F V S) : Upward F → Incoming F
  | .frame (.sessionUpdate o) => .update [] { P.defaults with
      voice := if o.voice.getD [] = [] then P.defaults.voice else o.voice.getD []
      effect := if o.effect.getD [] ∈ P.effects then o.effect.getD [] else P.defaults.effect }
      none none
  | .frame .responseCancel => .cancel
  | .frame (.history messages) => .history (messages.map S2SMessage.wire)
  | .audio errors pcm => .audio errors pcm

theorem reads_parsed (P : Setup F V S) (u : Upward F) : Reads P u (parsed P u) := by
  cases u with
  | frame f =>
    cases f with
    | sessionUpdate o => exact ⟨_, _, _, _, rfl, rfl, rfl⟩
    | _ => rfl
  | audio errors pcm => rfl

theorem Reads.not_ended {P : Setup F V S} {u : Upward F} {x : Incoming F} (h : Reads P u x) :
    ¬(Hand.incoming x).Ended := by
  cases u with
  | frame f =>
    cases f with
    | sessionUpdate o =>
      obtain ⟨errors, settings, params, invalid, rfl, -⟩ := h
      exact id
    | _ => exact h ▸ id
  | audio errors pcm => exact h ▸ id

/-- What the client makes of a frame of the server; samples travel with fewer bits. -/
def Tells : Frame F → ServerEvent F → Prop
  | .error message, e => e = .error message
  | .speechStarted, e => e = .speechStarted
  | .sessionUpdated, e => e = .sessionUpdated none
  | .voice voice effect, e => e = .sessionUpdated (some (voice, effect))
  | .transcript item text, e => e = .transcript text item
  | .created, e => e = .created
  | .done, e => e = .done
  | .cancelled, e => e = .cancelled
  | .textDelta delta, e => e = .textDelta delta
  | .audio pcm, e => ∃ heard : List F, heard.length = pcm.length ∧ e = .audio (some heard)
  | .spoken unit textEnd, e => e = .spoken unit textEnd
  | .toolStarted name, e => e = .toolStarted name
  | .toolDone name ok ms bytes, e => e = .toolDone name ok ms bytes

/-- An event for a frame: the samples arrive as they were. -/
def told : Frame F → ServerEvent F
  | .error message => .error message
  | .speechStarted => .speechStarted
  | .sessionUpdated => .sessionUpdated none
  | .voice voice effect => .sessionUpdated (some (voice, effect))
  | .transcript item text => .transcript text item
  | .created => .created
  | .done => .done
  | .cancelled => .cancelled
  | .textDelta delta => .textDelta delta
  | .audio pcm => .audio (some pcm)
  | .spoken unit textEnd => .spoken unit textEnd
  | .toolStarted name => .toolStarted name
  | .toolDone name ok ms bytes => .toolDone name ok ms bytes

theorem tells_told (f : Frame F) : Tells f (told f) := by
  cases f with
  | audio pcm => exact ⟨pcm, rfl, rfl⟩
  | _ => rfl

/-! ### The connection -/

/-- **A connection and its client.**  `up` and `down` are the frames on their way, `got` those that
the client has taken, `watches` what each thread has in hand, `read` the answer that the client held
when it sent what the reader read last. -/
structure Link (F V : Type) where
  server : Config Role (Act F) Act.Result (Memory F V)
  watches : Role → Watch F
  client : Talk F
  up : List (Posted F)
  read : Option ℕ
  down : List (Frame F)
  got : List (Frame F)

/-- The answer that a client holds open. -/
def holds (t : Talk F) : Option ℕ := if t.answering then some t.generation else none

/-- The frames among what a client did. -/
def sends (out : List (Output F)) : List ClientFrame :=
  out.filterMap fun
    | .send f => some f
    | _ => none

/-- What happens to a client while its connection stands, the frames of the server apart. -/
def OfHost : Event F → Prop
  | .report _ _ => True
  | .cancel => True
  | .setHistory _ => True
  | .clearHistory => True
  | .update _ => True
  | .prepared => True
  | .ready => True
  | _ => False

/-- An action that neither reads the socket nor writes it. -/
def Own : Act F → Prop
  | .ask .read => False
  | .ask (.transport _) => False
  | _ => True

namespace Link

/-- A thread has taken an action, which left `m`. -/
def act (w : Link F V) (i : Role) {a : Act F} (next : a.Result → Program F Bool) (r : a.Result)
    (m : Memory F V) : Link F V :=
  { w with
    server := ⟨m, Function.update w.server.prog i (next r)⟩
    watches := Function.update w.watches i
      ⟨(w.watches i).hand.next a r, (w.watches i).look.next a r⟩ }

/-- An event of the client, with what it sends. -/
def tell (w : Link F V) (e : Event F) : Link F V :=
  let client := { w.client with out := [] }.step e
  { w with
    client := client
    up := w.up ++ (sends client.out).map fun f => ⟨.frame f, holds w.client⟩ }

end Link

/-- A client `t` opens a connection. -/
def opening (P : Setup F V S) (t : Talk F) : Link F V :=
  Link.tell ⟨(connection P).start, fun _ => ⟨.empty, .off⟩, t, [], none, [], []⟩ .opened

/-- What happens: an action of a thread, its body once more, a frame that is read, written or
received, something on the side of the client, audio of the microphone. -/
inductive Happening (F : Type)
  | act (role : Role) (a : Act F)
  | again (role : Role)
  | read (x : Incoming F)
  | write (f : Frame F)
  | receive (f : Frame F)
  | host (e : Event F)
  | speak

/-- **One step**, of a thread, of the socket, of the client or of the microphone. -/
inductive Step (P : Setup F V S) : Link F V → Happening F → Link F V → Prop
  | act {w : Link F V} {i : Role} {a : Act F} {next : a.Result → Program F Bool}
      (hprog : w.server.prog i = .act a next) (hown : Own a) {x : a.Input} {r : a.Result}
      {m : Memory F V} (hexec : exec P i a x w.server.mem = some (r, m)) :
      Step P w (.act i a) (w.act i next r m)
  | again {w : Link F V} {i : Role} (hprog : w.server.prog i = .done true) :
      Step P w (.again i) { w with
        server := ⟨w.server.mem, Function.update w.server.prog i ((connection P).body i)⟩ }
  | read {w : Link F V} {i : Role} {next : Incoming F → Program F Bool}
      (hprog : w.server.prog i = .act (.ask .read) next) {posted : Posted F} {up : List (Posted F)}
      (hup : w.up = posted :: up) {x : Incoming F} (hreads : Reads P posted.frame x) :
      Step P w (.read x)
        { w.act i (a := .ask .read) next x w.server.mem with up := up, read := posted.held }
  | write {w : Link F V} {i : Role} {f : Frame F} {next : Bool → Program F Bool}
      (hprog : w.server.prog i = .act (.ask (.transport f)) next) :
      Step P w (.write f)
        { w.act i (a := .ask (.transport f)) next true w.server.mem with down := w.down ++ [f] }
  | receive {w : Link F V} {f : Frame F} {down : List (Frame F)} (hdown : w.down = f :: down)
      {e : ServerEvent F} (htells : Tells f e) :
      Step P w (.receive f) { w.tell (.server e) with down := down, got := w.got ++ [f] }
  | host {w : Link F V} {e : Event F} (he : OfHost e) : Step P w (.host e) (w.tell e)
  | speak {w : Link F V} (errors : List Bytes) (pcm : List F) :
      Step P w .speak { w with up := w.up ++ [⟨.audio errors pcm, holds w.client⟩] }

/-- A run whose steps are all as `ok` says. -/
def Along (P : Setup F V S) (ok : Link F V → Happening F → Link F V → Prop) :
    Link F V → Link F V → Prop :=
  Relation.ReflTransGen fun w w' => ∃ h, Step P w h w' ∧ ok w h w'

theorem Along.mono {P : Setup F V S} {ok ok' : Link F V → Happening F → Link F V → Prop}
    {w w' : Link F V} (h : Along P ok w w')
    (himp : ∀ w happening w', ok w happening w' → ok' w happening w') : Along P ok' w w' := by
  induction h with
  | refl => exact .refl
  | tail _ hstep ih =>
    obtain ⟨happening, hstep, hok⟩ := hstep
    exact ih.tail ⟨happening, hstep, himp _ _ _ hok⟩

/-! ### The frames of the server -/

/-- The frame that a thread has taken off the queue. -/
def carried : Hand F → List (Frame F)
  | .carrying f => [f]
  | _ => []

/-- The frame that an action hands to `conn_send`. -/
def sent : Act F → List (Frame F)
  | .send f => [f]
  | _ => []

/-- An action that takes something in hand, or gives it away, on the side of the server. -/
def Hands : Act F → Prop
  | .popOut => True
  | .patch _ => True
  | .setVoice _ _ => True
  | .send (.voice _ _) => True
  | _ => False

/-- An action that ends the connection on the side of the server. -/
def Ends : Act F → Prop
  | .setStop => True
  | .closeOut => True
  | .dropOut => True
  | _ => False

section Exec

variable {P : Setup F V S} {role : Role} {a : Act F} {x : a.Input} {m m' : Memory F V} {r : a.Result}

theorem frames_exec (h : exec P role a x m = some (r, m')) :
    frames m'.log = frames m.log ++ sent a := by
  rw [log_exec h, frames_append]
  congr 1
  cases a with
  | send f => rfl
  | ask query => cases hw : query.work <;> simp [Act.logs, hw, frames, sent]
  | popAnswer => cases r <;> rfl
  | _ => rfl

/-- What an action that does not end the connection does to the queue of frames. -/
theorem out_exec (ha : ¬Ends a) (hpop : a ≠ .popOut) (h : exec P role a x m = some (r, m'))
    (hout : m.outStop = false) :
    m'.stop = m.stop ∧ m'.outStop = false ∧ m'.out = m.out ++ sent a := by
  cases a with
  | send f =>
    obtain ⟨-, rfl⟩ := done_inj h
    simp [Memory.record, hout, sent]
  | ask query =>
    obtain rfl := ask_cases h
    simp [hout, sent]
  | session op =>
    obtain ⟨-, rfl⟩ := done_inj h
    obtain ⟨recognizing, answering, heq, -⟩ := apply_eq P.models role op m
    rw [heq]
    simp [hout, sent]
  | lockSession =>
    obtain ⟨-, rfl⟩ := lockSession_cases h
    simp [hout, sent]
  | opened turnId revision =>
    obtain ⟨opening, cancel, rfl, -⟩ := opened_cases h
    simp [hout, sent]
  | popQueue =>
    rcases popQueue_cases h with ⟨-, -, rfl⟩ | ⟨turn, queue, -, -, rfl⟩ <;> simp [hout, sent]
  | popAnswer =>
    rcases popAnswer_cases h with ⟨-, -, rfl⟩ | ⟨-, job, answers, -, -, rfl⟩ <;>
      simp [Memory.record, hout, sent]
  | waitFinal =>
    obtain ⟨-, -, rfl⟩ := waitFinal_cases h
    simp [Memory.voided, hout, sent]
  | popOut => exact absurd rfl hpop
  | setStop => exact absurd trivial ha
  | closeOut => exact absurd trivial ha
  | dropOut => exact absurd trivial ha
  | _ =>
    obtain ⟨-, rfl⟩ := done_inj h
    simp [Memory.record, hout, sent]

theorem popOut_taken {x : Unit} {r : Option (Frame F)} (h : exec P role .popOut x m = some (r, m'))
    (hout : m.outStop = false) :
    ∃ f out, r = some f ∧ m.out = f :: out ∧ m' = { m with out := out } := by
  simp only [exec, hout, Bool.false_eq_true, if_false] at h
  split at h
  · simp at h
  · rename_i f out heq
    obtain ⟨rfl, rfl⟩ := done_inj h
    exact ⟨f, out, rfl, heq, by rw [hout]⟩

end Exec

/-! ### What a step does to the server -/

/-- **The server of a connection runs as it would on its own.** -/
theorem Step.reaches {P : Setup F V S} {w w' : Link F V} {happening : Happening F}
    (h : Step P w happening w')
    (hw : Reaches (connection P) w.server) : Reaches (connection P) w'.server := by
  cases h with
  | act hprog _ hexec => exact hw.act hprog hexec
  | again hprog => exact hw.again hprog
  | @read i next hprog posted up hup x hreads =>
    have hexec : (connection P).exec i (.ask .read) x w.server.mem = some (x, w.server.mem) := rfl
    exact hw.act hprog hexec
  | @write i f next hprog =>
    have hexec : (connection P).exec i (.ask (.transport f)) true w.server.mem
      = some (true, w.server.mem) := rfl
    exact hw.act hprog hexec
  | receive => exact hw
  | host => exact hw
  | speak => exact hw

/-! ### While it stands -/

/-- The frames of the server that the client has not taken yet. -/
def Link.flow (w : Link F V) : List (Frame F) :=
  w.down ++ carried (w.watches .writer).hand ++ w.server.mem.out

/-- **What holds of a connection that stands.**  Its server is fit for its monitors and has not
stopped, and every frame of the server is where it should be: with the client, on its way down, in
the hand of the writer or in the queue. -/
structure Stands (P : Setup F V S) (w : Link F V) : Prop where
  reaches : Reaches (connection P) w.server
  fit : (watchFit P).At w.watches w.server
  open' : ∀ i, ¬(w.watches i).hand.Ended
  stop : w.server.mem.stop = false
  outStop : w.server.mem.outStop = false
  frames : Conversation.frames w.server.mem.log = w.got ++ w.flow
  connected : w.client.connected = true

section Hands

variable {P : Setup F V S} {i : Role} {s : Watch F} {a : Act F} {x : a.Input} {r : a.Result}
  {m m' : Memory F V}

/-- Most actions of the server alone leave the hand as it is; the cancel of a client is dealt with. -/
theorem hand_still (hown : Own a) (hended : ¬s.hand.Ended) (hexec : exec P i a x m = some (r, m'))
    (hstop : m.stop = false) (ha : ¬Hands a) :
    s.hand.next a r = s.hand ∨ s.hand.Cancels ∧ s.hand.next a r = .empty := by
  cases a with
  | ask query => cases query <;> first | exact hown.elim | exact .inl rfl
  | load field =>
    cases field with
    | stop =>
      obtain ⟨rfl, rfl⟩ := done_inj hexec
      have hread : m.read .stop = false := hstop
      rw [hread]
      left
      cases hs : s.hand with
      | gone => exact absurd (hs ▸ trivial) hended
      | _ => rfl
    | _ => exact .inl rfl
  | send f => cases f <;> first | exact absurd trivial ha | exact .inl rfl
  | storeCancel cancel =>
    cases cancel with
    | false => exact .inl rfl
    | true =>
      cases hs : s.hand with
      | incoming x => cases x <;> first | exact .inl rfl | exact .inr ⟨trivial, rfl⟩
      | _ => exact .inl rfl
  | _ => first | exact absurd trivial ha | exact .inl rfl

/-- A hand that an action of the server alone leaves as it is, or empties. -/
theorem hand_next (hown : Own a) (hok : (watch P).ok i s a) (hended : ¬s.hand.Ended)
    (hexec : exec P i a x m = some (r, m')) (hstop : m.stop = false) (hpop : a ≠ .popOut) :
    ¬(s.hand.next a r).Ended ∧ carried (s.hand.next a r) = carried s.hand := by
  by_cases ha : Hands a
  · cases a with
    | send f =>
      cases f with
      | voice voice effect => exact ⟨id, by rw [hok.2]; rfl⟩
      | _ => exact ha.elim
    | patch settings =>
      obtain ⟨-, errors, params, invalid, hs⟩ := hok
      exact ⟨id, by rw [hs]; rfl⟩
    | setVoice voice effect => exact ⟨id, by rw [hok.2.1]; rfl⟩
    | popOut => exact absurd rfl hpop
    | _ => exact ha.elim
  · rcases hand_still hown hended hexec hstop ha with hnext | ⟨hcancels, hnext⟩
    · rw [hnext]
      exact ⟨hended, rfl⟩
    · rw [hnext]
      refine ⟨id, ?_⟩
      cases hs : s.hand with
      | carrying f => exact absurd hcancels (hs ▸ id)
      | _ => rfl

/-- **An action of the server alone** loses no frame. -/
theorem hand_exec (hown : Own a) (hok : (watch P).ok i s a) (hended : ¬s.hand.Ended)
    (hexec : exec P i a x m = some (r, m')) (hstop : m.stop = false) (hout : m.outStop = false) :
    ¬(s.hand.next a r).Ended ∧ m'.stop = false ∧ m'.outStop = false ∧
      carried (s.hand.next a r) ++ m'.out = carried s.hand ++ (m.out ++ sent a) ∧
      (i ≠ .writer → m'.out = m.out ++ sent a) := by
  by_cases hpop : a = .popOut
  · subst hpop
    obtain ⟨hrole, hs⟩ := hok
    obtain ⟨f, out, rfl, hqueue, rfl⟩ := popOut_taken hexec hout
    refine ⟨id, hstop, hout, ?_, fun hne => absurd hrole hne⟩
    rw [hs, hqueue]
    exact (List.append_nil _).symm
  · have hends : ¬Ends a := by
      cases a <;> first | exact id | exact absurd hok hended
    obtain ⟨hnext, hcarried⟩ := hand_next hown hok hended hexec hstop hpop
    obtain ⟨hstop', hout', hqueue⟩ := out_exec hends hpop hexec hout
    exact ⟨hnext, hstop'.trans hstop, hout', by rw [hcarried, hqueue], fun _ => hqueue⟩

end Hands

/-! ### The client -/

/-- What leaves the session and the socket alone: the options stay, and no update goes out. -/
structure Apart (t t' : Talk F) : Prop where
  options : t'.options = t.options
  connected : t'.connected = t.connected
  out : ∃ out, t'.out = t.out ++ out ∧ ∀ o, ClientFrame.sessionUpdate o ∉ sends out

namespace Apart

variable {t t' t'' : Talk F}

theorem refl (t : Talk F) : Apart t t := ⟨rfl, rfl, [], (List.append_nil _).symm, by simp [sends]⟩

theorem trans (h : Apart t t') (h' : Apart t' t'') : Apart t t'' := by
  obtain ⟨out, hout, hno⟩ := h.out
  obtain ⟨out', hout', hno'⟩ := h'.out
  refine ⟨h'.options.trans h.options, h'.connected.trans h.connected, out ++ out', ?_,
    fun o ho => ?_⟩
  · rw [hout', hout, List.append_assoc]
  · rw [sends, List.filterMap_append, List.mem_append] at ho
    exact ho.elim (hno o) (hno' o)

/-- Fields change, and nothing is done. -/
theorem silent (hoptions : t'.options = t.options) (hconnected : t'.connected = t.connected)
    (hout : t'.out = t.out) : Apart t t' :=
  ⟨hoptions, hconnected, [], by rw [hout, List.append_nil], by simp [sends]⟩

theorem silently (h : Apart t' t'') (hoptions : t'.options = t.options)
    (hconnected : t'.connected = t.connected) (hout : t'.out = t.out) : Apart t t'' :=
  (silent hoptions hconnected hout).trans h

theorem emit (t : Talk F) (o : Output F) (ho : ∀ options, o ≠ .send (.sessionUpdate options)) :
    Apart t (t.emit o) := by
  refine ⟨rfl, rfl, [o], rfl, fun options hmem => ?_⟩
  cases o with
  | send f =>
    have hf : ClientFrame.sessionUpdate options = f := by simpa [sends] using hmem
    exact ho options (by rw [hf])
  | _ => simp [sends] at hmem

theorem send (t : Talk F) {f : ClientFrame} (hf : ∀ options, f ≠ .sessionUpdate options) :
    Apart t (t.send f) := by
  unfold Talk.send
  split
  · exact emit t _ fun options heq => hf options (Output.send.inj heq)
  · exact refl t

theorem post (t : Talk F) (p : Post F) : Apart t (t.post p) := by
  unfold Talk.post
  split
  · exact emit t _ (by simp)
  · exact refl t

theorem setState (t : Talk F) (s : Client.State) : Apart t (t.setState s) := by
  unfold Talk.setState
  split
  · exact (emit _ (.state s) (by simp)).silently rfl rfl rfl
  · exact refl t

theorem flushPlayback (t : Talk F) : Apart t t.flushPlayback := post t _

theorem pushHistory (t : Talk F) : Apart t t.pushHistory :=
  (send t (by simp)).trans (emit _ _ (by simp))

theorem closeAnswer (t : Talk F) : Apart t t.closeAnswer := by
  cases h : t.answering with
  | false =>
    rw [t.closeAnswer_idle h]
    exact refl t
  | true =>
    rw [t.closeAnswer_eq h]
    refine ⟨rfl, rfl, _, List.append_assoc _ _ _ |>.trans (List.append_assoc _ _ _), fun o ho => ?_⟩
    unfold Talk.sent at ho
    split at ho <;> simp [sends] at ho

theorem closes (t : Talk F) (s : Client.State) : Apart t (t.closeAnswer.setState s) :=
  (closeAnswer t).trans (setState _ s)

/-- A server event that brings no voice. -/
theorem onServerEvent (t : Talk F) (e : ServerEvent F)
    (he : ∀ voice, e ≠ .sessionUpdated (some voice)) : Apart t (t.onServerEvent e) := by
  cases e with
  | sessionUpdated voice =>
    cases voice with
    | none => exact refl t
    | some voice => exact absurd rfl (he voice)
  | speechStarted =>
    unfold Talk.onServerEvent
    dsimp only
    split
    · exact ((flushPlayback t).trans (closeAnswer _)).trans (setState _ _)
    · exact setState t _
  | transcript text item => exact (emit _ (.userText _ _) (by simp)).silently rfl rfl rfl
  | created =>
    have hopened : Apart t.closeAnswer { t.closeAnswer with
        answering := true, answerDone := false, generation := t.closeAnswer.generation + 1,
        queuedSamples := 0, playedSamples := 0 } := silent rfl rfl rfl
    refine ((closeAnswer t).trans hopened).trans ?_
    exact ((post _ _).trans (emit _ .assistantStart (by simp))).trans (setState _ _)
  | spoken delta textEnd =>
    unfold Talk.onServerEvent
    dsimp only
    split
    · exact (emit _ (.assistantText _ _) (by simp)).silently rfl rfl rfl
    · exact refl t
  | audio pcm =>
    unfold Talk.onServerEvent
    dsimp only
    split
    · cases pcm with
      | none => exact refl t
      | some pcm => exact ((post _ (.pcm pcm)).trans (setState _ .speaking)).silently rfl rfl rfl
    · exact refl t
  | cancelled => exact (flushPlayback t).trans (closes _ _)
  | done =>
    unfold Talk.onServerEvent
    dsimp only
    split
    · exact (closes _ .listening).silently rfl rfl rfl
    · exact silent rfl rfl rfl
  | error message => exact emit t (.error message) (by simp)
  | other => exact refl t
  | _ =>
    unfold Talk.onServerEvent
    dsimp only
    split
    · exact emit t _ (by simp)
    · exact refl t

theorem setHistory (t : Talk F) (messages : List S2SMessage) : Apart t (t.setHistory messages) :=
  silently (pushHistory _) rfl rfl rfl

theorem clearHistory (t : Talk F) : Apart t t.clearHistory := by
  unfold Talk.clearHistory
  dsimp only
  split
  · refine trans ?_ (setHistory _ [])
    refine ((send t (f := .responseCancel) (by simp)).trans (flushPlayback _)).trans ?_
    exact ((emit _ .assistantEnd (by simp)).trans (setState _ .listening)).silently rfl rfl rfl
  · exact setHistory t []

/-- What the host does, an update apart. -/
theorem host (t : Talk F) {e : Event F} (he : OfHost e) (hupdate : ∀ options, e ≠ .update options) :
    Apart t (t.step e) := by
  cases e with
  | report generation played =>
    show Apart t (t.onReport generation played)
    unfold Talk.onReport
    split
    · exact refl t
    · dsimp only
      split
      · exact (closes _ .listening).silently rfl rfl rfl
      · exact silent rfl rfl rfl
  | cancel => exact ((send t (by simp)).trans (flushPlayback _)).trans (closes _ _)
  | setHistory messages => exact setHistory t messages
  | clearHistory => exact clearHistory t
  | update options => exact absurd rfl (hupdate options)
  | prepared => exact silent rfl rfl rfl
  | ready => exact setState t _
  | _ => exact he.elim

end Apart

/-- What a client does while it stands leaves the socket open. -/
theorem connected_step {t : Talk F} {e : Event F} (he : OfHost e ∨ ∃ s, e = .server s) :
    (t.step e).connected = t.connected := by
  rcases he with he | ⟨s, rfl⟩
  · by_cases hupdate : ∃ options, e = .update options
    · obtain ⟨options, rfl⟩ := hupdate
      show ({ t with options := options } : Talk F).sendSessionUpdate.connected = _
      rw [Talk.sendSessionUpdate, Talk.send_eq]
    · exact (Apart.host t he fun options heq => hupdate ⟨options, heq⟩).connected
  · by_cases hvoice : ∃ voice, s = .sessionUpdated (some voice)
    · obtain ⟨voice, rfl⟩ := hvoice
      rfl
    · exact (Apart.onServerEvent t s fun voice heq => hvoice ⟨voice, heq⟩).connected

section Stands

variable {P : Setup F V S} {w w' : Link F V}

/-- **An action of the server** adds to the flow what it sends. -/
theorem Stands.flow_act (h : Stands P w) {i : Role} {a : Act F} {next : a.Result → Program F Bool}
    (hprog : w.server.prog i = .act a next) (hown : Own a) {x : a.Input} {r : a.Result}
    {m : Memory F V} (hexec : exec P i a x w.server.mem = some (r, m)) :
    (w.act i next r m).flow = w.flow ++ sent a := by
  obtain ⟨-, -, -, hcarried, hother⟩ :=
    hand_exec hown (h.fit.ok hprog) (h.open' i) hexec h.stop h.outStop
  by_cases hi : i = .writer
  · subst hi
    simp only [Link.flow, Link.act, Function.update_self, List.append_assoc]
    rw [hcarried]
  · simp only [Link.flow, Link.act, Function.update_of_ne (Ne.symm hi), hother hi, List.append_assoc]

theorem Stands.flow_write (h : Stands P w) {i : Role} {f : Frame F} {next : Bool → Program F Bool}
    (hprog : w.server.prog i = .act (.ask (.transport f)) next) :
    Link.flow { w.act i (a := .ask (.transport f)) next true w.server.mem with
      down := w.down ++ [f] } = w.flow := by
  obtain ⟨rfl, hhand⟩ := h.fit.ok hprog
  simp [Link.flow, Link.act, carried, hhand, Hand.next]

theorem Stands.flow_read (h : Stands P w) {i : Role} {next : Incoming F → Program F Bool}
    (hprog : w.server.prog i = .act (.ask .read) next) (x : Incoming F) (up : List (Posted F))
    (held : Option ℕ) :
    Link.flow { w.act i (a := .ask .read) next x w.server.mem with up := up, read := held }
      = w.flow := by
  obtain ⟨rfl, -⟩ := h.fit.ok hprog
  simp [Link.flow, Link.act]

theorem Link.flow_receive {f : Frame F} {down : List (Frame F)} (hdown : w.down = f :: down)
    (e : Event F) :
    w.flow = f :: Link.flow { w.tell e with down := down, got := w.got ++ [f] } := by
  simp [Link.flow, Link.tell, hdown]

/-- **A connection that stands goes on to stand.** -/
theorem Step.stands {happening : Happening F} (h : Step P w happening w') (hw : Stands P w) :
    Stands P w' := by
  have hreaches := h.reaches hw.reaches
  cases h with
  | @act i a next hprog hown x r m hexec =>
    obtain ⟨hended, hstop, hout, -, -⟩ :=
      hand_exec hown (hw.fit.ok hprog) (hw.open' i) hexec hw.stop hw.outStop
    refine ⟨hreaches, hw.fit.act hprog r m, fun j => ?_, hstop, hout, ?_, hw.connected⟩
    · by_cases hj : j = i
      · subst hj
        simpa [Link.act] using hended
      · simpa [Link.act, hj] using hw.open' j
    · rw [hw.flow_act hprog hown hexec, ← List.append_assoc]
      exact (frames_exec hexec).trans (congrArg (· ++ sent a) hw.frames)
  | again hprog =>
    exact ⟨hreaches, hw.fit.again hprog, hw.open', hw.stop, hw.outStop, hw.frames, hw.connected⟩
  | @read i next hprog posted up hup x hreads =>
    refine ⟨hreaches, hw.fit.act hprog x _, fun j => ?_, hw.stop, hw.outStop, ?_, hw.connected⟩
    · by_cases hj : j = i
      · subst hj
        show ¬(Function.update w.watches j _ j).hand.Ended
        rw [Function.update_self]
        exact hreads.not_ended
      · simpa [Link.act, hj] using hw.open' j
    · rw [hw.flow_read hprog]
      exact hw.frames
  | @write i f next hprog =>
    refine ⟨hreaches, hw.fit.act hprog true _, fun j => ?_, hw.stop, hw.outStop, ?_, hw.connected⟩
    · by_cases hj : j = i
      · subst hj
        show ¬(Function.update w.watches j _ j).hand.Ended
        rw [Function.update_self]
        exact id
      · simpa [Link.act, hj] using hw.open' j
    · rw [hw.flow_write hprog]
      exact hw.frames
  | @receive f down hdown e htells =>
    refine ⟨hreaches, hw.fit, hw.open', hw.stop, hw.outStop, ?_, ?_⟩
    · have hframes := hw.frames
      rw [Link.flow_receive hdown (.server e), ← List.singleton_append, ← List.append_assoc] at hframes
      exact hframes
    · exact (connected_step (.inr ⟨_, rfl⟩)).trans hw.connected
  | host he =>
    exact ⟨hreaches, hw.fit, hw.open', hw.stop, hw.outStop, hw.frames,
      (connected_step (.inl he)).trans hw.connected⟩
  | speak => exact ⟨hreaches, hw.fit, hw.open', hw.stop, hw.outStop, hw.frames, hw.connected⟩

theorem Stands.along {ok : Link F V → Happening F → Link F V → Prop} (hw : Stands P w)
    (h : Along P ok w w') : Stands P w' := by
  induction h with
  | refl => exact hw
  | tail _ hstep ih =>
    obtain ⟨_, hstep, -⟩ := hstep
    exact hstep.stands ih

end Stands

theorem stands_opening (P : Setup F V S) (t : Talk F) : Stands P (opening P t) where
  reaches := .start
  fit := (watchFit P).at_start
  open' _ := id
  stop := rfl
  outStop := rfl
  frames := rfl
  connected := by
    show (({ t with out := [], connected := true } : Talk F).sendSessionUpdate.pushHistory).connected
      = true
    simp [Talk.sendSessionUpdate, Talk.pushHistory, Talk.send_eq, Talk.emit]

/-! ### Schedules -/

/-- Who steps: a thread, the world answering as it says, or the client, who takes the next frame,
cancels or updates, or the microphone. -/
inductive Cue (F : Type)
  | thread (i : Role) (input : (a : Act F) → a.Input)
  | receive
  | cancel
  | update (o : S2SOptions)
  | speak (pcm : List F)

/-- One step of a schedule. -/
def Link.advance (P : Setup F V S) (w : Link F V) : Cue F → Option (Link F V)
  | .thread i input =>
    match w.server.prog i with
    | .done true => some { w with
        server := ⟨w.server.mem, Function.update w.server.prog i ((connection P).body i)⟩ }
    | .done false => none
    | .act (.ask .read) next =>
      match w.up with
      | [] => none
      | posted :: up => some { w.act i (a := .ask .read) next (parsed P posted.frame) w.server.mem with
          up := up, read := posted.held }
    | .act (.ask (.transport f)) next =>
      some { w.act i (a := .ask (.transport f)) next true w.server.mem with down := w.down ++ [f] }
    | .act a next =>
      match exec P i a (input a) w.server.mem with
      | none => none
      | some (r, m) => some (w.act i next r m)
  | .receive =>
    match w.down with
    | [] => none
    | f :: down => some { w.tell (.server (told f)) with down := down, got := w.got ++ [f] }
  | .cancel => some (w.tell .cancel)
  | .update o => some (w.tell (.update o))
  | .speak pcm => some { w with up := w.up ++ [⟨.audio [] pcm, holds w.client⟩] }

/-- A schedule, as long as its states are as `ok` says. -/
def Link.play (P : Setup F V S) (ok : Link F V → Bool) (w : Link F V) : List (Cue F) → Option (Link F V)
  | [] => some w
  | cue :: rest =>
    match w.advance P cue with
    | none => none
    | some w' => if ok w' then w'.play P ok rest else none

/-- Of what the host may do, a schedule has cancels and updates. -/
def Happening.Cued : Happening F → Prop
  | .host .cancel => True
  | .host (.update _) => True
  | .host _ => False
  | _ => True

theorem step_cue {P : Setup F V S} {w w' : Link F V} {cue : Cue F}
    (h : w.advance P cue = some w') : ∃ happening, Step P w happening w' ∧ happening.Cued := by
  cases cue with
  | thread i input =>
    unfold Link.advance at h
    dsimp only at h
    split at h
    · rename_i hprog
      obtain rfl := Option.some.inj h
      exact ⟨_, .again hprog, trivial⟩
    · simp at h
    · rename_i next hprog
      split at h
      · simp at h
      · rename_i hup
        obtain rfl := Option.some.inj h
        exact ⟨_, .read hprog hup (reads_parsed P _), trivial⟩
    · rename_i f next hprog
      obtain rfl := Option.some.inj h
      exact ⟨_, .write hprog, trivial⟩
    · rename_i a next hread hwrite hprog
      split at h
      · simp at h
      · rename_i r m hexec
        obtain rfl := Option.some.inj h
        refine ⟨_, .act hprog ?_ hexec, trivial⟩
        cases a with
        | ask query =>
          cases query with
          | read => exact (hread next rfl .rfl).elim
          | transport f => exact (hwrite f next rfl .rfl).elim
          | _ => trivial
        | _ => trivial
  | receive =>
    unfold Link.advance at h
    dsimp only at h
    split at h
    · simp at h
    · rename_i hdown
      obtain rfl := Option.some.inj h
      exact ⟨_, .receive hdown (tells_told _), trivial⟩
  | cancel => exact Option.some.inj h ▸ ⟨_, .host (e := .cancel) trivial, trivial⟩
  | update o => exact Option.some.inj h ▸ ⟨_, .host (e := .update o) trivial, trivial⟩
  | speak pcm => exact Option.some.inj h ▸ ⟨_, .speak [] pcm, trivial⟩

/-- What a schedule plays is a run, in which the host does no more than the schedule says. -/
theorem along_cues {P : Setup F V S} {ok : Link F V → Bool} {w w' : Link F V} {schedule : List (Cue F)}
    (h : w.play P ok schedule = some w') :
    Along P (fun _ happening w' => ok w' = true ∧ happening.Cued) w w' := by
  induction schedule generalizing w with
  | nil => exact Option.some.inj h ▸ .refl
  | cons cue rest ih =>
    rw [Link.play] at h
    split at h
    · simp at h
    · rename_i w₁ hadvance
      split at h
      · rename_i hok
        obtain ⟨happening, hstep, hcued⟩ := step_cue hadvance
        exact .head ⟨happening, hstep, hok, hcued⟩ (ih h)
      · simp at h

/-- **What a schedule plays is a run.** -/
theorem along_play {P : Setup F V S} {ok : Link F V → Bool} {w w' : Link F V} {schedule : List (Cue F)}
    (h : w.play P ok schedule = some w') : Along P (fun _ _ w' => ok w' = true) w w' :=
  (along_cues h).mono fun _ _ _ hok => hok.1

end Wire
end S2S
