/-
# The list of a client, over a run

What stands in the list of a client after any run of one connection
(`lines_of_along`).  The server decides when a turn is final, when an answer is
opened and when it may sound; the client knows none of this, and files by the
order in which the frames come.  They come in the order in which the server sent
them, which is that of `S2S.Conversation.Order`, whatever else is on its way.
-/

import S2S.Client.Lines
import S2S.Conversation.Order
import S2S.Wire.Cancel

namespace S2S
namespace Wire

open Json Thread Conversation Client

variable {F V S : Type} {P : Setup F V S} {w w' : Link F V}

/-! ### What the client has taken -/

/-- The frames that the client has taken, each with what it is about. -/
def Link.received (w : Link F V) : List (Note F) := (notes w.server.mem.log).take w.got.length

theorem notes_prefix (log more : List (Entry F)) : notes log <+: notes (log ++ more) := by
  induction more using List.reverseRecOn with
  | nil => rw [List.append_nil]
  | append_singleton more e ih =>
    rw [← List.append_assoc, notes_snoc]
    exact ih.trans (List.prefix_append _ _)

/-- They are the ones that came. -/
theorem Stands.received_frame (h : Stands P w) : w.received.map Note.frame = w.got := by
  rw [Link.received, List.map_take, notes_frame, h.frames, List.take_left]

theorem Stands.received_orderly (h : Stands P w) : Orderly w.received := by
  obtain ⟨states, hheld⟩ := held_of_reaches h.reaches
  obtain ⟨rest, hrest⟩ := List.take_prefix w.got.length (notes w.server.mem.log)
  exact Orderly.front (hrest ▸ hheld.orderly)

theorem Stands.got_le (h : Stands P w) : w.got.length ≤ (notes w.server.mem.log).length := by
  have hlength := congrArg List.length h.frames
  rw [← notes_frame, List.length_map, List.length_append] at hlength
  omega

/-- What the server does on its own is not there yet. -/
theorem Stands.received_same (h : Stands P w) (hgot : w'.got = w.got)
    (hlog : w.server.mem.log <+: w'.server.mem.log) : w'.received = w.received := by
  obtain ⟨more, hmore⟩ := hlog
  obtain ⟨rest, hrest⟩ := notes_prefix w.server.mem.log more
  rw [Link.received, Link.received, hgot, ← hmore, ← hrest, List.take_append_of_le_length h.got_le]

/-- **The next frame comes with what it is about**, in its place. -/
theorem Stands.received_next (h : Stands P w) (w' : Link F V) {f : Frame F} {down : List (Frame F)}
    (hdown : w.down = f :: down) (hserver : w'.server = w.server) (hgot : w'.got = w.got ++ [f]) :
    ∃ n : Note F, n.frame = f ∧ n.Fits w.received ∧ w'.received = w.received ++ [n] := by
  have hframes : (notes w.server.mem.log).map Note.frame = w.got ++ f :: (down ++
      carried (w.watches .writer).hand ++ w.server.mem.out) := by
    rw [notes_frame, h.frames, Link.flow, hdown]
    simp
  obtain ⟨before, after, hsplit, hbefore, hafter⟩ := List.map_eq_append_iff.1 hframes
  obtain ⟨n, rest, rfl, hn, -⟩ := List.map_eq_cons_iff.1 hafter
  have hlength : before.length = w.got.length := by rw [← hbefore, List.length_map]
  have hreceived : w.received = before := by
    rw [Link.received, hsplit, ← hlength, List.take_left]
  have hnext : w'.received = before ++ [n] := by
    rw [Link.received, hserver, hsplit, hgot, List.length_append, ← hlength, List.append_cons]
    exact List.take_left' (by simp)
  obtain ⟨states, hheld⟩ := held_of_reaches h.reaches
  refine ⟨n, hn, ?_, by rw [hnext, hreceived]⟩
  rw [hreceived]
  have horderly := hheld.orderly
  rw [hsplit, List.append_cons] at horderly
  exact horderly.front.last

/-! ### Runs -/

/-- The host leaves the list to the conversation, and the start of the session is over before the
first frame comes. -/
def LeavesList (w : Link F V) (happening : Happening F) (_ : Link F V) : Prop :=
  match happening with
  | .host (.setHistory _) => False
  | .host .clearHistory => False
  | .host .ready => w.got = []
  | _ => True

section Follows

variable {base : List S2SMessage} {blocks : List Block} {t : Talk F} {ns : List (Note F)}

/-- **What a frame does to the list.** -/
theorem follows_server (h : Follows base blocks ns t) {n : Note F} {e : ServerEvent F}
    (htells : Tells n.frame e) (hfits : n.Fits ns) :
    ∃ blocks', Follows base blocks' (ns ++ [n]) (t.onServerEvent e) := by
  obtain ⟨f, p⟩ := n
  have hbeside : ∀ {t'}, Frame.NoTranscript f → f.Beside → t.Alike t' →
      ∃ blocks', Follows base blocks' (ns ++ [⟨f, p⟩]) t' := fun hf hbeside ha =>
    ⟨blocks, (h.beside hf hbeside).alike ha⟩
  have hdelta : ∀ {o : Output F}, Talk.Alike t (if t.answering then t.emit o else t) := by
    intro o
    split
    · exact .emit _ _
    · exact .refl _
  cases f with
  | transcript item text =>
    obtain rfl := htells
    exact h.transcript rfl hfits
  | created =>
    obtain rfl := htells
    exact h.created rfl hfits
  | spoken unit textEnd =>
    obtain rfl := htells
    exact ⟨blocks, h.spoken rfl hfits⟩
  | audio pcm =>
    obtain ⟨heard, -, rfl⟩ := htells
    have hsound : (⟨.audio pcm, p⟩ : Note F).frame.Sound := trivial
    exact ⟨blocks, h.audio hsound hfits _⟩
  | speechStarted =>
    obtain rfl := htells
    exact h.started rfl
  | cancelled =>
    obtain rfl := htells
    exact h.cancelled rfl
  | done =>
    obtain rfl := htells
    exact h.done rfl
  | error message =>
    obtain rfl := htells
    exact hbeside (fun _ _ => by simp) trivial (.emit _ _)
  | sessionUpdated =>
    obtain rfl := htells
    exact hbeside (fun _ _ => by simp) trivial (.refl _)
  | voice voice effect =>
    obtain rfl := htells
    exact hbeside (fun _ _ => by simp) trivial ⟨rfl, rfl, rfl, rfl, rfl⟩
  | textDelta delta =>
    obtain rfl := htells
    exact hbeside (fun _ _ => by simp) trivial hdelta
  | toolStarted name =>
    obtain rfl := htells
    exact hbeside (fun _ _ => by simp) trivial hdelta
  | toolDone name ok ms bytes =>
    obtain rfl := htells
    exact hbeside (fun _ _ => by simp) trivial hdelta

/-- **What the host does to the list.** -/
theorem follows_host (h : Follows base blocks ns t) {e : Event F} (he : OfHost e)
    (hset : ∀ messages, e ≠ .setHistory messages) (hclear : e ≠ .clearHistory)
    (hready : e = .ready → ns = []) : ∃ blocks', Follows base blocks' ns (t.step e) := by
  cases e with
  | report generation played => exact h.report generation played
  | cancel => exact h.cancel
  | setHistory messages => exact absurd rfl (hset messages)
  | clearHistory => exact absurd rfl hclear
  | update options =>
    have hoptions : t.Alike { t with options := options } := ⟨rfl, rfl, rfl, rfl, rfl⟩
    exact ⟨blocks, h.alike (hoptions.trans (.send _ _))⟩
  | prepared => exact ⟨blocks, h.alike ⟨rfl, rfl, rfl, rfl, rfl⟩⟩
  | ready =>
    refine ⟨blocks, h.setState fun hanswering => ?_⟩
    have hhears := (h.busy hanswering).1
    rw [hready rfl] at hhears
    exact absurd rfl hhears
  | _ => exact he.elim

end Follows

/-- A step of the connection. -/
theorem Step.follows {base : List S2SMessage} {happening : Happening F} (hstep : Step P w happening w')
    (hok : LeavesList w happening w') (hw : Stands P w)
    (h : ∃ blocks, Follows base blocks w.received w.client) :
    ∃ blocks, Follows base blocks w'.received w'.client := by
  obtain ⟨blocks, h⟩ := h
  have hquiet : w.client.Alike { w.client with out := [] } := ⟨rfl, rfl, rfl, rfl, rfl⟩
  cases hstep with
  | @act i a next hprog hown x r m hexec =>
    have hsame : (w.act i next r m).received = w.received :=
      hw.received_same rfl ⟨_, (log_exec hexec).symm⟩
    exact ⟨blocks, hsame ▸ h⟩
  | again hprog => exact ⟨blocks, h⟩
  | read hprog hup hreads => exact ⟨blocks, h⟩
  | write hprog => exact ⟨blocks, h⟩
  | @receive f down hdown e htells =>
    obtain ⟨n, rfl, hfits, hnext⟩ := hw.received_next
      { w.tell (.server e) with down := down, got := w.got ++ [f] } hdown rfl rfl
    rw [hnext]
    exact follows_server (h.alike hquiet) htells hfits
  | @host e he =>
    refine follows_host (h.alike hquiet) he (fun messages heq => ?_)
      (fun heq => ?_) fun heq => ?_
    · subst heq
      exact hok
    · subst heq
      exact hok
    · subst heq
      have hgot : w.got = [] := hok
      rw [Link.received, hgot]
      rfl
  | speak => exact ⟨blocks, h⟩

/-- **The list of a client**: behind the lines it came with, a block for each turn it was sent a
transcript of, in the order of the turns.  The user line is the latest transcript; below it stands
at most one line of the assistant, of units that were spoken of an answer to that turn. -/
structure Listed (base : List S2SMessage) (blocks : List Block) (w : Link F V) : Prop where
  history : w.client.history = base ++ linesOf blocks
  turns : (turnsOf blocks).Pairwise (· < ·)
  known : ∀ item text, .transcript item text ∈ w.got → ∃ b ∈ blocks, itemId b.turn = item
  texts : ∀ b ∈ blocks, latest w.got (itemId b.turn) = some b.text
  replies : ∀ b ∈ blocks, ∀ reply ∈ b.reply, ∃ p ∈ soundsOf w.received,
    p.1 = b.turn ∧ Said w.received p reply

theorem listed_of_follows {base : List S2SMessage} {blocks : List Block} (hw : Stands P w)
    (h : Follows base blocks w.received w.client) : Listed base blocks w where
  history := h.history
  turns := h.turns
  known item text hin := by
    rw [← hw.received_frame] at hin
    obtain ⟨n, hn, hframe⟩ := List.mem_map.1 hin
    obtain ⟨before, after, hsplit⟩ := List.append_of_mem hn
    have hfits : n.Fits before := hw.received_orderly before n after hsplit
    have hitem : item = itemId n.pair.1 := by
      unfold Note.Fits at hfits
      rw [hframe] at hfits
      exact hfits.item
    have htranscript : n.pair ∈ transcriptsOf w.received := by
      rw [hsplit, List.append_cons, transcriptsOf_append, transcriptsOf_append]
      refine List.mem_append_left _ (List.mem_append_right _ ?_)
      simp [transcriptsOf, hframe]
    obtain ⟨b, hb, hturn⟩ := List.mem_map.1 (h.known _ htranscript)
    exact ⟨b, hb, by rw [hitem, hturn]⟩
  texts b hb := by
    rw [← hw.received_frame]
    exact h.texts b hb
  replies := h.replies

theorem follows_opening (P : Setup F V S) {t : Talk F} (hitem : t.userItem = [])
    (hanswering : t.answering = false) (hunits : t.units = []) :
    Follows t.history [] (opening P t).received (opening P t).client := by
  have hclient : Talk.Alike t (opening P t).client := by
    have hconnected : t.Alike { t with out := [], connected := true } := ⟨rfl, rfl, rfl, rfl, rfl⟩
    exact (hconnected.trans (.send _ _)).trans (.pushHistory _)
  refine Follows.alike ?_ hclient
  exact {
    history := by simp [linesOf]
    turns := by simp [turnsOf]
    item := hitem
    last := rfl
    known := by simp [opening, Link.received, Link.tell, transcriptsOf]
    texts := by simp
    replies := by simp
    filed := by simp
    idle := fun _ => hunits
    busy := by simp [hanswering]
    units := by simp [hunits] }

/-- **The list is in order**, in every run of a connection. -/
theorem lines_of_along {t : Talk F} (hitem : t.userItem = []) (hanswering : t.answering = false)
    (hunits : t.units = []) (h : Along P LeavesList (opening P t) w) :
    ∃ blocks, Listed t.history blocks w := by
  suffices hfollows : Stands P w ∧ ∃ blocks, Follows t.history blocks w.received w.client by
    obtain ⟨hw, blocks, hblocks⟩ := hfollows
    exact ⟨blocks, listed_of_follows hw hblocks⟩
  induction h with
  | refl => exact ⟨stands_opening P t, [], follows_opening P hitem hanswering hunits⟩
  | tail _ hstep ih =>
    obtain ⟨happening, hstep, hok⟩ := hstep
    obtain ⟨hw, hfollows⟩ := ih
    exact ⟨hstep.stands hw, hstep.follows hok hw hfollows⟩

/-! ### One run -/

theorem leaves_of_cued {happening : Happening F} (h : happening.Cued) : LeavesList w happening w' := by
  cases happening with
  | host e => cases e <;> first | exact h.elim | exact trivial
  | _ => exact trivial

/-- A turn whose answer the client has taken to its end. -/
def takenOver : List (Cue ℕ) := heldOver ++ turns .writer 9 ++ List.replicate 3 .receive

theorem takenOver_isSome : ((opening (plainSetup (ascii "loopback")) caller).play
    (plainSetup (ascii "loopback")) (fun _ => true) takenOver).isSome = true := by
  decide +kernel

/-- All of it was played. -/
def overheard : Link ℕ Unit := Link.tell (((opening (plainSetup (ascii "loopback")) caller).play
  (plainSetup (ascii "loopback")) (fun _ => true) takenOver).get takenOver_isSome) (.report 1 1)

theorem along_overheard : Along (plainSetup (ascii "loopback")) LeavesList
    (opening (plainSetup (ascii "loopback")) caller) overheard :=
  .tail ((along_cues (Option.some_get takenOver_isSome).symm).mono fun _ _ _ hok =>
    leaves_of_cued hok.2) ⟨_, .host trivial, trivial⟩

/-- The user line of the turn, and what was heard of its answer below it. -/
theorem lines_overheard : (∃ blocks, Listed [] blocks overheard) ∧
    overheard.client.history = linesOf [⟨1, ascii "hello", some (ascii "hello")⟩] :=
  ⟨lines_of_along rfl rfl rfl along_overheard, by decide +kernel⟩

end Wire
end S2S
