/-
# The lines of a conversation

What stands in the list of a client, told from the frames it has taken
(`Follows`).  Behind the lines it came with stands one block for each turn that
was transcribed, in the order of the turns: the latest transcript of the turn,
and below it what was heard of the answer to it, if anything was.

The client itself knows no turn.  It tells a transcript that revises from one
that is new by the item it remembers and the role of the last line
(`onTranscript`), and files an answer behind whatever stands there
(`closeAnswer`).  That this comes out right is owed to the order in which the
frames come (`Note.Fits`).
-/

import S2S.Client.Items
import S2S.Conversation.Notes

namespace S2S
namespace Client

open Json Conversation

variable {F : Type}

/-! ### Blocks -/

/-- A turn in the list: its user line, and the line of the assistant below it. -/
structure Block where
  turn : ℕ
  text : Bytes
  reply : Option Bytes
  deriving DecidableEq, Repr

/-- The lines of a block. -/
def Block.lines (b : Block) : List S2SMessage :=
  ⟨.user, b.text, some (itemId b.turn)⟩ :: b.reply.toList.map fun reply => ⟨.assistant, reply, none⟩

/-- The lines of some blocks. -/
def linesOf (blocks : List Block) : List S2SMessage := blocks.flatMap Block.lines

/-- The turns of some blocks. -/
def turnsOf (blocks : List Block) : List ℕ := blocks.map Block.turn

@[simp] theorem linesOf_append (blocks more : List Block) :
    linesOf (blocks ++ more) = linesOf blocks ++ linesOf more := List.flatMap_append

@[simp] theorem linesOf_singleton (b : Block) : linesOf [b] = b.lines := by simp [linesOf]

@[simp] theorem turnsOf_append (blocks more : List Block) :
    turnsOf (blocks ++ more) = turnsOf blocks ++ turnsOf more := List.map_append

/-- The text of the latest transcript of an item. -/
def latest (fs : List (Frame F)) (item : Bytes) : Option Bytes :=
  (fs.filterMap fun
    | .transcript item' text => if item' = item then some text else none
    | _ => none).getLast?

/-- The units that were spoken of the answer to `p`. -/
def spokenTo (ns : List (Note F)) (p : ℕ × ℕ) : List Bytes :=
  ns.filterMap fun n => match n.frame with
    | .spoken unit _ => if n.pair = p then some unit else none
    | _ => none

/-- A line of the assistant that was heard of the answer to `p`: some of its units, in order. -/
def Said (ns : List (Note F)) (p : ℕ × ℕ) (reply : Bytes) : Prop :=
  ∃ units, units.Sublist (spokenTo ns p) ∧ reply = trim ([0x20].intercalate units)

/-- A frame that is no transcript. -/
def Frame.NoTranscript (f : Frame F) : Prop := ∀ item text, f ≠ .transcript item text

theorem latest_transcript (fs : List (Frame F)) (item text item' : Bytes) :
    latest (fs ++ [.transcript item text]) item' =
      if item = item' then some text else latest fs item' := by
  unfold latest
  rw [List.filterMap_append]
  by_cases h : item = item' <;> simp [h]

theorem latest_beside (fs : List (Frame F)) {f : Frame F} (hf : Frame.NoTranscript f) (item : Bytes) :
    latest (fs ++ [f]) item = latest fs item := by
  unfold latest
  rw [List.filterMap_append]
  have hnone : ([f].filterMap fun
      | .transcript item' text => if item' = item then some text else none
      | _ => none) = ([] : List Bytes) := by
    cases f with
    | transcript item' text => exact absurd rfl (hf item' text)
    | _ => rfl
  rw [hnone, List.append_nil]

@[simp] theorem spokenTo_append (ns ns' : List (Note F)) (p : ℕ × ℕ) :
    spokenTo (ns ++ ns') p = spokenTo ns p ++ spokenTo ns' p := List.filterMap_append

theorem Said.grow {ns : List (Note F)} {p : ℕ × ℕ} {reply : Bytes} (h : Said ns p reply)
    (n : Note F) : Said (ns ++ [n]) p reply := by
  obtain ⟨units, hunits, hreply⟩ := h
  refine ⟨units, ?_, hreply⟩
  rw [spokenTo_append]
  exact hunits.trans (List.sublist_append_left _ _)

/-! ### What the list says -/

/-- **The list of a client follows the frames it has taken.**  The block of a turn has the latest
transcript of it and what was heard of an answer to it; an answer in flight of which anything was
spoken is to what was transcribed last, and nothing of it has been filed. -/
structure Follows (base : List S2SMessage) (blocks : List Block) (ns : List (Note F)) (t : Talk F) :
    Prop where
  history : t.history = base ++ linesOf blocks
  turns : (turnsOf blocks).Pairwise (· < ·)
  item : t.userItem = ((transcriptsOf ns).getLast?.map fun p => itemId p.1).getD []
  last : (turnsOf blocks).getLast? = (transcriptsOf ns).getLast?.map Prod.fst
  known : ∀ p ∈ transcriptsOf ns, p.1 ∈ turnsOf blocks
  texts : ∀ b ∈ blocks, latest (ns.map Note.frame) (itemId b.turn) = some b.text
  replies : ∀ b ∈ blocks, ∀ reply ∈ b.reply, ∃ p ∈ soundsOf ns, p.1 = b.turn ∧ Said ns p reply
  filed : ∀ b ∈ blocks.getLast?, b.reply ≠ none → ∃ p ∈ createdOf ns,
    (transcriptsOf ns).getLast? = some p ∧ (t.answering = true → (createdOf ns).getLast? ≠ some p)
  idle : t.answering = false → t.units = []
  busy : t.answering = true → hears ns ≠ .deaf ∧ (t.state = .thinking ∨ t.state = .speaking)
  units : t.units ≠ [] → hears ns = .hearing true ∧ ∃ p ∈ soundsOf ns,
    (transcriptsOf ns).getLast? = some p ∧ (createdOf ns).getLast? = some p ∧
      (t.units.map SpokenUnit.text).Sublist (spokenTo ns p)

/-- What the list rests on stays. -/
structure Talk.Alike (t t' : Talk F) : Prop where
  history : t'.history = t.history
  userItem : t'.userItem = t.userItem
  answering : t'.answering = t.answering
  units : t'.units = t.units
  state : t'.state = t.state

namespace Talk.Alike

variable {t t' t'' : Talk F}

theorem refl (t : Talk F) : Alike t t := ⟨rfl, rfl, rfl, rfl, rfl⟩

theorem trans (h : Alike t t') (h' : Alike t' t'') : Alike t t'' :=
  ⟨h'.history.trans h.history, h'.userItem.trans h.userItem, h'.answering.trans h.answering,
    h'.units.trans h.units, h'.state.trans h.state⟩

theorem emit (t : Talk F) (o : Output F) : Alike t (t.emit o) := ⟨rfl, rfl, rfl, rfl, rfl⟩

theorem send (t : Talk F) (f : ClientFrame) : Alike t (t.send f) := by
  rw [Talk.send_eq]
  exact ⟨rfl, rfl, rfl, rfl, rfl⟩

theorem post (t : Talk F) (p : Post F) : Alike t (t.post p) := by
  rw [Talk.post_eq]
  exact ⟨rfl, rfl, rfl, rfl, rfl⟩

theorem pushHistory (t : Talk F) : Alike t t.pushHistory := (send t _).trans (emit _ _)

end Talk.Alike

namespace Follows

variable {base : List S2SMessage} {blocks : List Block} {ns : List (Note F)} {t : Talk F}

/-- A step that leaves the conversation alone. -/
theorem alike {t' : Talk F} (h : Follows base blocks ns t) (ha : t.Alike t') : Follows base blocks ns t' where
  history := ha.history.trans h.history
  turns := h.turns
  item := ha.userItem.trans h.item
  last := h.last
  known := h.known
  texts := h.texts
  replies := h.replies
  filed := by
    rw [ha.answering]
    exact h.filed
  idle := by
    rw [ha.answering, ha.units]
    exact h.idle
  busy := by
    rw [ha.answering, ha.state]
    exact h.busy
  units := by
    rw [ha.units]
    exact h.units

theorem setState (h : Follows base blocks ns t) {s : State}
    (hs : t.answering = true → s = .thinking ∨ s = .speaking) :
    Follows base blocks ns (t.setState s) := by
  rw [Talk.setState_eq]
  exact { h with busy := fun hanswering => ⟨(h.busy hanswering).1, hs hanswering⟩ }

/-- **A close files below the user line of the turn it answers.** -/
theorem close (h : Follows base blocks ns t) :
    ∃ blocks', Follows base blocks' ns t.closeAnswer ∧ t.closeAnswer.answering = false := by
  cases hanswering : t.answering with
  | false =>
    rw [t.closeAnswer_idle hanswering]
    exact ⟨blocks, h, hanswering⟩
  | true =>
    rw [t.closeAnswer_eq hanswering]
    by_cases hheard : t.heard = []
    · refine ⟨blocks, ?_, rfl⟩
      have hfiles : t.files = [] := if_pos hheard
      rw [hfiles, List.append_nil]
      exact { h with
        filed := fun b hb hreply => by
          obtain ⟨p, hp, hlast, -⟩ := h.filed b hb hreply
          exact ⟨p, hp, hlast, by simp⟩
        idle := fun _ => rfl
        busy := by simp
        units := by simp }
    have hfiles : t.files = [⟨.assistant, t.heard, none⟩] := if_neg hheard
    have hunits : t.units ≠ [] := fun hnil => hheard (by
      unfold Talk.heard
      rw [hnil]
      rfl)
    obtain ⟨-, p, hsound, hlast, hcreated, hsub⟩ := h.units hunits
    rcases List.eq_nil_or_concat' blocks with hnil | ⟨front, b, hblocks⟩
    · have hnone := h.last
      rw [hnil, hlast] at hnone
      simp [turnsOf] at hnone
    subst hblocks
    have hturn : b.turn = p.1 := by
      have hturns := h.last
      rw [hlast] at hturns
      simpa [turnsOf] using hturns
    have hopen : b.reply = none := by
      by_contra hreply
      obtain ⟨p', -, hlast', hother⟩ := h.filed b (by simp) hreply
      rw [hlast] at hlast'
      exact hother hanswering (hcreated.trans hlast')
    have hsaid : Said ns p t.heard :=
      ⟨_, ((List.filter_sublist).map _).trans hsub, rfl⟩
    refine ⟨front ++ [{ b with reply := some t.heard }], ?_, rfl⟩
    exact {
      history := by
        show t.history ++ t.files = _
        rw [hfiles, h.history]
        simp [Block.lines, hopen]
      turns := by simpa [turnsOf] using h.turns
      item := h.item
      last := by simpa [turnsOf] using h.last
      known := by simpa [turnsOf] using h.known
      texts := fun b' hb' => by
        rcases List.mem_append.1 hb' with hin | hin
        · exact h.texts b' (List.mem_append_left _ hin)
        · rw [List.mem_singleton.1 hin]
          exact h.texts b (by simp)
      replies := fun b' hb' reply hreply => by
        rcases List.mem_append.1 hb' with hin | hin
        · exact h.replies b' (List.mem_append_left _ hin) reply hreply
        · rw [List.mem_singleton.1 hin] at hreply ⊢
          obtain rfl := Option.some.inj hreply
          exact ⟨p, hsound, hturn.symm, hsaid⟩
      filed := fun _ _ _ => ⟨p, List.mem_of_getLast? hcreated, hlast, by simp⟩
      idle := fun _ => rfl
      busy := by simp
      units := by simp }

/-- A frame that is neither a transcript nor opens an answer. -/
theorem grow (h : Follows base blocks ns t) {n : Note F} (hf : Frame.NoTranscript n.frame)
    (hcreated : n.frame ≠ .created) (hbusy : t.answering = true → hears (ns ++ [n]) ≠ .deaf)
    (hunits : t.units ≠ [] → hears (ns ++ [n]) = .hearing true) :
    Follows base blocks (ns ++ [n]) t := by
  have htranscripts : transcriptsOf (ns ++ [n]) = transcriptsOf ns := by
    have hnone : transcriptsOf [n] = [] := by
      obtain ⟨f, p⟩ := n
      cases f with
      | transcript item text => exact absurd rfl (hf item text)
      | _ => rfl
    rw [transcriptsOf_append, hnone, List.append_nil]
  have hopened : createdOf (ns ++ [n]) = createdOf ns := by
    have hnone : createdOf [n] = [] := by
      obtain ⟨f, p⟩ := n
      cases f with
      | created => exact absurd rfl hcreated
      | _ => rfl
    rw [createdOf_append, hnone, List.append_nil]
  have hsounds : ∀ p ∈ soundsOf ns, p ∈ soundsOf (ns ++ [n]) := fun p hp => by
    rw [soundsOf_append]
    exact List.mem_append_left _ hp
  exact { h with
    item := by rw [htranscripts]; exact h.item
    last := by rw [htranscripts]; exact h.last
    known := by rw [htranscripts]; exact h.known
    texts := fun b hb => by
      rw [List.map_append, List.map_singleton, latest_beside _ hf]
      exact h.texts b hb
    replies := fun b hb reply hreply => by
      obtain ⟨p, hp, hturn, hsaid⟩ := h.replies b hb reply hreply
      exact ⟨p, hsounds p hp, hturn, hsaid.grow n⟩
    filed := by rw [htranscripts, hopened]; exact h.filed
    busy := fun hanswering => ⟨hbusy hanswering, (h.busy hanswering).2⟩
    units := fun hne => by
      obtain ⟨-, p, hp, hlast, hopen, hsub⟩ := h.units hne
      refine ⟨hunits hne, p, hsounds p hp, ?_, ?_, ?_⟩
      · rw [htranscripts]; exact hlast
      · rw [hopened]; exact hopen
      · rw [spokenTo_append]
        exact hsub.trans (List.sublist_append_left _ _) }

/-- A frame that the client does not turn to. -/
theorem beside (h : Follows base blocks ns t) {n : Note F} (hf : Frame.NoTranscript n.frame)
    (hbeside : n.frame.Beside) : Follows base blocks (ns ++ [n]) t := by
  have hear : hears (ns ++ [n]) = hears ns := by
    rw [hears_snoc]
    exact hbeside.ear _
  refine h.grow hf (fun heq => ?_) (fun hanswering => ?_) fun hne => ?_
  · rw [heq] at hbeside
    exact hbeside
  · rw [hear]
    exact (h.busy hanswering).1
  · rw [hear]
    exact (h.units hne).1

/-- Nothing is in flight any more. -/
theorem hush (h : Follows base blocks ns t) (hidle : t.answering = false) {n : Note F}
    (hf : Frame.NoTranscript n.frame) (hcreated : n.frame ≠ .created) :
    Follows base blocks (ns ++ [n]) t :=
  h.grow hf hcreated (fun hanswering => by simp [hidle] at hanswering) fun hne =>
    absurd (h.idle hidle) hne

/-! ### Transcripts -/

section Transcript

variable {n : Note F} {item text : Bytes}

/-- Before a transcript nothing was spoken of the answer in flight. -/
theorem unspoken (h : Follows base blocks ns t) (hfits : Tellable ns item n.pair) : t.units = [] := by
  by_contra hne
  exact hfits.quiet (h.units hne).1

/-- A transcript sets the user line of its turn, the last one of the list. -/
theorem told (h : Follows base blocks ns t) (t' : Talk F) (hframe : n.frame = .transcript item text)
    (hfits : Tellable ns item n.pair) {front : List Block} (hfront : ∀ b ∈ front, b ∈ blocks)
    (hbelow : ∀ b ∈ front, b.turn < n.pair.1)
    (hsorted : (turnsOf front).Pairwise (· < ·))
    (hall : ∀ turn ∈ turnsOf blocks, turn ∈ turnsOf front ∨ turn = n.pair.1)
    (hhistory : t'.history = base ++ linesOf (front ++ [⟨n.pair.1, text, none⟩]))
    (hitem : t'.userItem = item) (hanswering : t'.answering = t.answering)
    (hunits : t'.units = t.units) (hstate : t'.state = t.state) :
    Follows base (front ++ [⟨n.pair.1, text, none⟩]) (ns ++ [n]) t' := by
  have htranscripts : transcriptsOf (ns ++ [n]) = transcriptsOf ns ++ [n.pair] := by
    rw [transcriptsOf_append]
    simp [transcriptsOf, hframe]
  have hear : hears (ns ++ [n]) = hears ns := by
    rw [hears_snoc, hframe]
    cases hears ns <;> rfl
  have hnone := h.unspoken hfits
  exact {
    history := hhistory
    turns := by
      rw [turnsOf_append, List.pairwise_append]
      refine ⟨hsorted, by simp [turnsOf], fun turn hturn turn' hturn' => ?_⟩
      obtain ⟨b, hb, rfl⟩ := List.mem_map.1 hturn
      obtain rfl : turn' = n.pair.1 := by simpa [turnsOf] using hturn'
      exact hbelow b hb
    item := by simp [htranscripts, hitem, hfits.item]
    last := by simp [htranscripts, turnsOf]
    known := fun p hp => by
      rw [htranscripts] at hp
      rcases List.mem_append.1 hp with hin | hin
      · rcases hall _ (h.known p hin) with hturn | hturn
        · simp [hturn]
        · simp [turnsOf, hturn]
      · simp [turnsOf, List.mem_singleton.1 hin]
    texts := fun b hb => by
      rw [List.map_append, List.map_singleton, hframe, latest_transcript, hfits.item]
      rcases List.mem_append.1 hb with hin | hin
      · have hne : itemId n.pair.1 ≠ itemId b.turn := fun heq => by
          have := hbelow b hin
          have := itemId_injective heq
          omega
        rw [if_neg hne]
        exact h.texts b (hfront b hin)
      · obtain rfl := List.mem_singleton.1 hin
        exact if_pos rfl
    replies := fun b hb reply hreply => by
      rcases List.mem_append.1 hb with hin | hin
      · obtain ⟨p, hp, hturn, hsaid⟩ := h.replies b (hfront b hin) reply hreply
        refine ⟨p, ?_, hturn, hsaid.grow n⟩
        rw [soundsOf_append]
        exact List.mem_append_left _ hp
      · obtain rfl := List.mem_singleton.1 hin
        simp at hreply
    filed := fun b hb hreply => by
      obtain rfl : _ = b := by simpa using hb
      simp at hreply
    idle := fun hidle => by rw [hunits]; exact hnone
    busy := by
      rw [hanswering, hstate, hear]
      exact h.busy
    units := fun hne => absurd (hunits.trans hnone) hne }

/-- **A transcript of the turn of the last user line replaces it, one of a later turn comes behind
it.** -/
theorem transcript (h : Follows base blocks ns t) (hframe : n.frame = .transcript item text)
    (hfits : Tellable ns item n.pair) :
    ∃ blocks', Follows base blocks' (ns ++ [n]) (t.onTranscript text item) := by
  have hitem : item ≠ [] := by
    rw [hfits.item]
    exact itemId_ne_nil _
  have hadd : ¬(item = t.userItem ∧ t.history.getLast?.any (·.role = .user)) →
      (∀ b ∈ blocks, b.turn < n.pair.1) →
      ∃ blocks', Follows base blocks' (ns ++ [n]) (t.onTranscript text item) := fun hnew hbelow => by
    refine ⟨blocks ++ [⟨n.pair.1, text, none⟩], h.told (t.onTranscript text item) hframe hfits
      (fun _ hb => hb) hbelow h.turns (fun _ hturn => .inl hturn) ?_ rfl rfl rfl rfl⟩
    show (if item ≠ [] ∧ item = t.userItem ∧ _ then _ else _) = _
    rw [if_neg (fun hrevised => hnew hrevised.2), h.history]
    simp [Block.lines, hfits.item]
  rcases List.eq_nil_or_concat' blocks with rfl | ⟨front, b, rfl⟩
  · refine hadd (fun hrevised => ?_) (by simp)
    have hnone : (transcriptsOf ns).getLast? = none := by
      have hlast := h.last
      simpa [turnsOf, eq_comm] using hlast
    rw [h.item, hnone] at hrevised
    exact hitem hrevised.1
  obtain ⟨q, hq, hturn⟩ : ∃ q, (transcriptsOf ns).getLast? = some q ∧ q.1 = b.turn := by
    have hlast := h.last
    cases hnow : (transcriptsOf ns).getLast? with
    | none => simp [hnow, turnsOf] at hlast
    | some q => exact ⟨q, rfl, by simpa [hnow, turnsOf, eq_comm] using hlast⟩
  have hsorted := h.turns
  rw [turnsOf_append, List.pairwise_append] at hsorted
  have hfront : ∀ b' ∈ front, b'.turn < b.turn := fun b' hb' =>
    hsorted.2.2 _ (List.mem_map_of_mem hb') _ (by simp [turnsOf])
  have huser : t.userItem = itemId b.turn := by simp [h.item, hq, hturn]
  have hlater := hfits.later q (List.mem_of_getLast? hq)
  unfold Session.Earlier at hlater
  by_cases hsame : n.pair.1 = b.turn
  · -- An answer to it that had been heard would have made it final.
    have hopen : b.reply = none := by
      by_contra hreply
      obtain ⟨reply, hreply⟩ := Option.ne_none_iff_exists'.1 hreply
      obtain ⟨p, hp, hpturn, -⟩ := h.replies b (by simp) reply hreply
      have := hfits.unheard p hp
      omega
    refine ⟨front ++ [⟨n.pair.1, text, none⟩], h.told (t.onTranscript text item) hframe hfits
      (fun b' hb' => by simp [hb']) (fun b' hb' => hsame ▸ hfront b' hb') hsorted.1
      (fun turn hin => ?_) ?_ rfl rfl rfl rfl⟩
    · rw [turnsOf_append] at hin
      refine (List.mem_append.1 hin).imp id fun hin => ?_
      rw [hsame]
      simpa [turnsOf] using hin
    · have hlines : t.history = (base ++ linesOf front) ++ [⟨.user, b.text, some (itemId b.turn)⟩] := by
        rw [h.history]
        simp [Block.lines, hopen]
      show (if item ≠ [] ∧ item = t.userItem ∧ _ then _ else _) = _
      rw [if_pos ⟨hitem, by rw [hfits.item, hsame, huser], by simp [hlines]⟩, hlines]
      simp [Block.lines, hsame]
  · refine hadd (fun hrevised => hsame ?_) fun b' hb' => ?_
    · have heq := hrevised.1
      rw [hfits.item, huser] at heq
      exact itemId_injective heq
    · rcases List.mem_append.1 hb' with hin | hin
      · have := hfront b' hin
        omega
      · rw [List.mem_singleton.1 hin]
        omega

end Transcript

/-! ### Answers -/

/-- The answer in flight closes, and the client listens. -/
theorem rest (h : Follows base blocks ns t) : ∃ blocks',
    Follows base blocks' ns (t.closeAnswer.setState .listening) ∧
      (t.closeAnswer.setState .listening).answering = false := by
  obtain ⟨blocks', hclosed, hidle⟩ := h.close
  refine ⟨blocks', hclosed.setState (by simp [hidle]), ?_⟩
  rw [Talk.setState_eq]
  exact hidle

section Answer

variable {n : Note F}

/-- **An answer is opened**, the one before it filed or not. -/
theorem created (h : Follows base blocks ns t) (hframe : n.frame = .created)
    (hfits : Openable ns n.pair) :
    ∃ blocks', Follows base blocks' (ns ++ [n]) (t.onServerEvent .created) := by
  obtain ⟨blocks', hclosed, hidle⟩ := h.close
  refine ⟨blocks', ?_⟩
  have htranscripts : transcriptsOf (ns ++ [n]) = transcriptsOf ns := by
    rw [transcriptsOf_append]
    simp [transcriptsOf, hframe]
  have hopened : createdOf (ns ++ [n]) = createdOf ns ++ [n.pair] := by
    rw [createdOf_append]
    simp [createdOf, hframe]
  have hear : hears (ns ++ [n]) = .hearing false := by
    rw [hears_snoc, hframe]
    cases hears ns <;> rfl
  have hgrown : Follows base blocks' (ns ++ [n]) { t.closeAnswer with
      answering := true, answerDone := false, generation := t.closeAnswer.generation + 1,
      queuedSamples := 0, playedSamples := 0, state := .thinking } :=
    { hclosed with
      item := by rw [htranscripts]; exact hclosed.item
      last := by rw [htranscripts]; exact hclosed.last
      known := by rw [htranscripts]; exact hclosed.known
      texts := fun b hb => by
        rw [List.map_append, List.map_singleton, latest_beside]
        · exact hclosed.texts b hb
        · rw [hframe]
          exact fun _ _ => by simp
      replies := fun b hb reply hreply => by
        obtain ⟨p, hp, hturn, hsaid⟩ := hclosed.replies b hb reply hreply
        refine ⟨p, ?_, hturn, hsaid.grow n⟩
        rw [soundsOf_append]
        exact List.mem_append_left _ hp
      filed := fun b hb hreply => by
        obtain ⟨p, hp, hlast, -⟩ := hclosed.filed b hb hreply
        rw [htranscripts, hopened]
        refine ⟨p, List.mem_append_left _ hp, hlast, fun _ heq => ?_⟩
        rw [List.getLast?_concat] at heq
        obtain rfl := Option.some.inj heq
        have hlater := hfits.later _ hp
        unfold Session.Earlier at hlater
        omega
      idle := by simp
      busy := fun _ => ⟨by simp [hear], .inl rfl⟩
      units := fun hne => absurd (hclosed.idle hidle) hne }
  have hstate := hgrown.setState (s := .thinking) fun _ => .inl rfl
  refine hstate.alike ?_
  show Talk.Alike _ (Talk.setState _ _)
  rw [Talk.setState_eq, Talk.setState_eq, Talk.post_eq]
  exact ⟨rfl, rfl, rfl, rfl, rfl⟩

/-- Sound that the client hears: the answer in flight is to what was transcribed last. -/
theorem hearing (hsound : n.frame.Sound) (hfits : Audible ns n.pair) (hhears : hears ns ≠ .deaf) :
    hears (ns ++ [n]) = .hearing true ∧ n.pair ∈ soundsOf (ns ++ [n]) ∧
      (transcriptsOf (ns ++ [n])).getLast? = some n.pair ∧
      (createdOf (ns ++ [n])).getLast? = some n.pair := by
  obtain ⟨f, p⟩ := n
  refine ⟨?_, ?_, ?_, ?_⟩
  · rw [hears_snoc, Frame.Sound.ear hsound, if_neg hhears]
  · rw [soundsOf_append]
    refine List.mem_append_right _ ?_
    cases f <;> first | exact hsound.elim | simp [soundsOf]
  · rw [transcriptsOf_append]
    have hnone : transcriptsOf [(⟨f, p⟩ : Note F)] = [] := by
      cases f <;> first | exact hsound.elim | rfl
    rw [hnone, List.append_nil]
    exact hfits.told hhears
  · rw [createdOf_append]
    have hnone : createdOf [(⟨f, p⟩ : Note F)] = [] := by
      cases f <;> first | exact hsound.elim | rfl
    rw [hnone, List.append_nil]
    exact hfits.opened

/-- Sound of an answer, heard or not. -/
theorem sound (h : Follows base blocks ns t) (hsound : n.frame.Sound) (hfits : Audible ns n.pair) :
    Follows base blocks (ns ++ [n]) t := by
  have hnot : Frame.NoTranscript n.frame ∧ n.frame ≠ .created := by
    obtain ⟨f, p⟩ := n
    cases f <;> first | exact hsound.elim | exact ⟨fun _ _ => by simp, by simp⟩
  refine h.grow hnot.1 hnot.2 (fun hanswering => ?_) fun hne => ?_
  · rw [(hearing hsound hfits (h.busy hanswering).1).1]
    simp
  · exact (hearing hsound hfits (by simp [(h.units hne).1])).1

theorem audio (h : Follows base blocks ns t) (hframe : n.frame.Sound) (hfits : Audible ns n.pair)
    (pcm : Option (List F)) :
    Follows base blocks (ns ++ [n]) (t.onServerEvent (.audio pcm)) := by
  have hgrown := h.sound hframe hfits
  unfold Talk.onServerEvent
  dsimp only
  split
  · cases pcm with
    | none => exact hgrown
    | some pcm =>
      have hposted := hgrown.setState (s := .speaking) fun _ => .inr rfl
      refine hposted.alike ?_
      dsimp only
      rw [Talk.setState_eq, Talk.setState_eq, Talk.post_eq]
      exact ⟨rfl, rfl, rfl, rfl, rfl⟩
  · exact hgrown

/-- **A unit is spoken**, of the answer to what was transcribed last. -/
theorem spoken (h : Follows base blocks ns t) {delta : Bytes} {textEnd : ℕ}
    (hframe : n.frame = .spoken delta textEnd) (hfits : Audible ns n.pair) :
    Follows base blocks (ns ++ [n]) (t.onServerEvent (.spoken delta textEnd)) := by
  have hsound : n.frame.Sound := by
    rw [hframe]
    trivial
  have hgrown := h.sound hsound hfits
  unfold Talk.onServerEvent
  dsimp only
  split
  · rename_i hanswering
    obtain ⟨hhearing, hin, hlast, hopened⟩ := hearing hsound hfits (h.busy hanswering).1
    have hspoken : spokenTo (ns ++ [n]) n.pair = spokenTo ns n.pair ++ [delta] := by
      rw [spokenTo_append]
      simp [spokenTo, hframe]
    have hadded : Follows base blocks (ns ++ [n])
        { t with units := t.units ++ [SpokenUnit.mk delta t.queuedSamples] } :=
      { hgrown with
        idle := fun hidle => by
          have hbusy : t.answering = false := hidle
          simp [hanswering] at hbusy
        units := fun _ => by
          refine ⟨hhearing, n.pair, hin, hlast, hopened, ?_⟩
          rw [List.map_append, hspoken]
          refine List.Sublist.append ?_ (List.Sublist.refl _)
          by_cases hne : t.units = []
          · simp [hne]
          · obtain ⟨-, p, -, hp, -, hsub⟩ := h.units hne
            rw [hfits.told (h.busy hanswering).1] at hp
            rw [Option.some.inj hp]
            exact hsub }
    exact hadded.alike (.emit _ _)
  · exact hgrown

/-- A turn opens: what was heard is filed. -/
theorem started (h : Follows base blocks ns t) (hframe : n.frame = .speechStarted) :
    ∃ blocks', Follows base blocks' (ns ++ [n]) (t.onServerEvent .speechStarted) := by
  have hnot : Frame.NoTranscript n.frame ∧ n.frame ≠ .created := by
    rw [hframe]
    exact ⟨fun _ _ => by simp, by simp⟩
  unfold Talk.onServerEvent
  dsimp only
  split
  · obtain ⟨blocks', hrest, hidle⟩ := (h.alike (.post t .flush)).rest
    exact ⟨blocks', hrest.hush hidle hnot.1 hnot.2⟩
  · rename_i hstate
    have hidle : t.answering = false := by
      by_contra hanswering
      rcases (h.busy (by simpa using hanswering)).2 with hthinking | hspeaking
      · exact hstate (.inr hthinking)
      · exact hstate (.inl hspeaking)
    exact ⟨blocks, (h.hush hidle hnot.1 hnot.2).setState (by simp [hidle])⟩

/-- An answer is cancelled. -/
theorem cancelled (h : Follows base blocks ns t) (hframe : n.frame = .cancelled) :
    ∃ blocks', Follows base blocks' (ns ++ [n]) (t.onServerEvent .cancelled) := by
  obtain ⟨blocks', hrest, hidle⟩ := (h.alike (.post t .flush)).rest
  refine ⟨blocks', hrest.hush hidle ?_ ?_⟩
  · rw [hframe]
    exact fun _ _ => by simp
  · rw [hframe]
    simp

/-- The answer is over once all of it was played. -/
theorem done (h : Follows base blocks ns t) (hframe : n.frame = .done) :
    ∃ blocks', Follows base blocks' (ns ++ [n]) (t.onServerEvent .done) := by
  have hgrown : Follows base blocks (ns ++ [n]) { t with answerDone := true } := by
    refine (h.beside ?_ ?_).alike ⟨rfl, rfl, rfl, rfl, rfl⟩
    · rw [hframe]
      exact fun _ _ => by simp
    · rw [hframe]
      trivial
  unfold Talk.onServerEvent
  dsimp only
  split
  · obtain ⟨blocks', hrest, -⟩ := hgrown.rest
    exact ⟨blocks', hrest⟩
  · exact ⟨blocks, hgrown⟩

end Answer

/-! ### The host -/

/-- The worklet reports what was played. -/
theorem report (h : Follows base blocks ns t) (generation played : ℕ) :
    ∃ blocks', Follows base blocks' ns (t.onReport generation played) := by
  unfold Talk.onReport
  split
  · exact ⟨blocks, h⟩
  · have hplayed : Follows base blocks ns { t with playedSamples := played } :=
      h.alike ⟨rfl, rfl, rfl, rfl, rfl⟩
    dsimp only
    split
    · obtain ⟨blocks', hrest, -⟩ := hplayed.rest
      exact ⟨blocks', hrest⟩
    · exact ⟨blocks, hplayed⟩

theorem cancel (h : Follows base blocks ns t) :
    ∃ blocks', Follows base blocks' ns t.cancel := by
  obtain ⟨blocks', hrest, -⟩ := (h.alike ((Talk.Alike.send t .responseCancel).trans (.post _ .flush))).rest
  exact ⟨blocks', hrest⟩

end Follows

end Client
end S2S
