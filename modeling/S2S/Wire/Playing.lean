/-
# A client, its server and its worklet

The worklet beside the connection: what the page posts to it and what it reports
to the page are on their way for as long as they like, in order (`Stage`).  A
connection may be lost, and the client opens another one with the same worklet.

`response.created` flushes nothing: that nothing of another answer waits when
the worklet starts to count for the next is owed to the server, which opens no
answer while the client hears one sound (`Openable`).  So the count is of the
answer in flight, and what the page takes for played was (`playing_of_along`).
-/

import S2S.Client.Deck
import S2S.Wire.Lines

namespace S2S
namespace Wire

open Json Thread Conversation Client

variable {F V S : Type} {P : Setup F V S}

/-! ### The ear -/

/-- **What is in flight is heard**, and what was queued of it sounds. -/
structure Tuned (d : Deck) (e : Ear) : Prop where
  hears : d.answering = true → e ≠ .deaf
  busy : d.answering = true → d.state = .thinking ∨ d.state = .speaking
  queued : d.answering = true → d.queued ≠ 0 → e = .hearing true

namespace Tuned

variable {d d' : Deck} {e e' : Ear}

theorem idle (h : d.answering = false) : Tuned d e := by
  constructor <;> intro hanswering <;> simp [h] at hanswering

theorem rest (d : Deck) (e : Ear) : Tuned d.rest e := idle d.rest_answering

/-- The same answer is in flight. -/
theorem same (h : Tuned d e) (hear : e ≠ .deaf → e' ≠ .deaf)
    (hsound : e = .hearing true → e' = .hearing true) : Tuned d e' where
  hears hanswering := hear (h.hears hanswering)
  busy := h.busy
  queued hanswering hne := hsound (h.queued hanswering hne)

theorem done (h : Tuned d e) (done : Bool) : Tuned { d with done := done } e :=
  ⟨h.hears, h.busy, h.queued⟩

theorem played (h : Tuned d e) (played : ℕ) : Tuned { d with played := played } e :=
  ⟨h.hears, h.busy, h.queued⟩

/-- **A frame of the server.** -/
theorem server (h : Tuned d e) {f : Frame F} {s : ServerEvent F} (htells : Tells f s) :
    Tuned (d.step (.server s)).1 (e.frame f) := by
  have hsame : Tuned d (e.frame f) → ∀ {s'}, (d.step (.server s') : Deck × List (Post F)).1 = d →
      Tuned (d.step (.server s') : Deck × List (Post F)).1 (e.frame f) := fun hd _ heq => by
    rw [heq]
    exact hd
  cases f with
  | speechStarted =>
    obtain rfl := htells
    unfold Deck.step
    dsimp only
    split
    · exact .rest _ _
    · rename_i hstate
      refine idle ?_
      show d.answering = false
      by_contra hanswering
      rcases h.busy (by simpa using hanswering) with hthinking | hspeaking
      · exact hstate (.inr hthinking)
      · exact hstate (.inl hspeaking)
  | created =>
    obtain rfl := htells
    exact ⟨fun _ => by cases e <;> simp [Ear.frame], fun _ => .inl rfl, fun _ hne => absurd rfl hne⟩
  | cancelled =>
    obtain rfl := htells
    exact .rest _ _
  | done =>
    obtain rfl := htells
    have hd : Tuned { d with done := true } (e.frame (.done : Frame F)) := by
      cases e <;> exact h.done true
    unfold Deck.step
    dsimp only
    split
    · exact .rest _ _
    · exact hd
  | audio pcm =>
    obtain ⟨heard, -, rfl⟩ := htells
    unfold Deck.step
    dsimp only
    split
    · rename_i hanswering
      have hear : e.frame (.audio pcm) = .hearing true := by
        cases he : e with
        | deaf => exact absurd he (h.hears hanswering)
        | hearing sounding => rfl
      rw [hear]
      exact ⟨fun _ => by simp, fun _ => .inr rfl, fun _ _ => rfl⟩
    · rename_i hanswering
      exact idle (by simpa using hanswering)
  | spoken unit textEnd =>
    obtain rfl := htells
    refine hsame (h.same (fun hne => ?_) fun heq => ?_) rfl
    · cases e with
      | deaf => exact absurd rfl hne
      | hearing sounding => simp [Ear.frame]
    · rw [heq]
      rfl
  | voice voice effect =>
    obtain rfl := htells
    exact hsame (by cases e <;> exact h) rfl
  | _ =>
    obtain rfl := htells
    exact hsame (by cases e <;> exact h) rfl

/-- What else happens to a client. -/
theorem host (h : Tuned d e) {event : Event F} (he : ∀ s, event ≠ .server s)
    (hready : event = .ready → e = .deaf) : Tuned (d.step event).1 e := by
  cases event with
  | server s => exact absurd rfl (he s)
  | report generation played =>
    unfold Deck.step
    dsimp only
    split
    · exact h
    · split
      · exact .rest _ _
      · exact h.played played
  | cancel => exact .rest _ _
  | clearHistory =>
    unfold Deck.step
    dsimp only
    split
    · exact .rest _ _
    · exact h
  | ready =>
    refine idle ?_
    show d.answering = false
    by_contra hanswering
    exact h.hears (by simpa using hanswering) (hready rfl)
  | dropped => exact .rest _ _
  | _ => exact h

end Tuned

theorem tells_audio {f : Frame F} {pcm : List F} (h : Tells f (.audio (some pcm))) :
    ∃ sent, f = .audio sent ∧ pcm.length = sent.length := by
  cases f with
  | audio sent =>
    obtain ⟨heard, hlength, heq⟩ := h
    obtain rfl := Option.some.inj (ServerEvent.audio.inj heq)
    exact ⟨sent, rfl, hlength⟩
  | _ => exact absurd h (by simp [Tells])

theorem tells_created {f : Frame F} (h : Tells f .created) : f = .created := by
  cases f with
  | created => rfl
  | _ => simp [Tells] at h

/-! ### The stage -/

/-- A connection and the worklet of its client, what was posted to it and what it reported on their
way. -/
structure Stage (F V : Type) where
  link : Link F V
  port : List (Post F)
  duplex : Duplex F
  reports : List (ℕ × ℕ)

/-- What a step of the connection posts: the client acts where a frame comes or the host does
something. -/
def postedBy (happening : Happening F) (w : Link F V) : List (Post F) :=
  match happening with
  | .receive _ => postsOf w.client.out
  | .host _ => postsOf w.client.out
  | _ => []

/-- What a step may bring: audio that comes has samples, the start of a session is over before the
first frame comes, and only the worklet reports. -/
def Sounding (w : Link F V) (happening : Happening F) : Prop :=
  match happening with
  | .receive (.audio pcm) => pcm ≠ []
  | .host .ready => w.got = []
  | .host (.report _ _) => False
  | _ => True

variable [Zero F]

/-- **One step**, of the connection or the worklet: a message is handled, a block is played and told
of, a report comes; or the connection is lost, and the client opens another one. -/
inductive Stage.Step (P : Setup F V S) : Stage F V → Stage F V → Prop
  | link {s : Stage F V} {happening : Happening F} {w : Link F V}
      (hstep : Wire.Step P s.link happening w) (hsounding : Sounding s.link happening) :
      Stage.Step P s { s with link := w, port := s.port ++ postedBy happening w }
  | handle {s : Stage F V} {p : Post F} {port : List (Post F)} (hport : s.port = p :: port) :
      Stage.Step P s { s with port := port, duplex := s.duplex.onMessage p }
  | block {s : Stage F V} (steps : List ℕ) :
      Stage.Step P s { s with
        duplex := (s.duplex.process steps).1
        reports := s.reports ++ (s.duplex.process steps).2.2.toList }
  | report {s : Stage F V} {r : ℕ × ℕ} {reports : List (ℕ × ℕ)} (hreports : s.reports = r :: reports) :
      Stage.Step P s { s with
        link := s.link.tell (.report r.2 r.1)
        port := s.port ++ postsOf (s.link.tell (.report r.2 r.1)).client.out
        reports := reports }
  | reconnect {s : Stage F V} :
      Stage.Step P s { s with
        link := opening P (s.link.tell .dropped).client
        port := s.port ++ postsOf (s.link.tell .dropped).client.out }

/-- A client with a new worklet opens a connection. -/
def Stage.start (P : Setup F V S) (t : Talk F) : Stage F V := ⟨opening P t, [], .new, []⟩

/-! ### What is played -/

/-- **What holds on a stage.**  What was posted lands, the ear of the client tells what is in flight,
and every report is of samples that were played. -/
structure Plays (P : Setup F V S) (s : Stage F V) : Prop where
  stands : Stands P s.link
  duplex : s.link.client.duplex = true
  whole : s.duplex.Whole
  full : ∀ p ∈ s.port, p.Full
  tuned : Tuned s.link.client.deck (hears s.link.received)
  lands : Lands s.link.client.deck s.duplex.tape s.port
  reports : ∀ r ∈ s.reports, r.2 ≤ s.duplex.tape.generation ∧
    (r.2 = s.duplex.tape.generation → r.1 ≤ s.duplex.tape.played)

section Steps

omit [Zero F]

variable {w : Link F V}

/-- What a client with a worklet does at an event. -/
theorem deals_tell (h : w.client.duplex = true) {e : Event F} (he : e.Keeps) :
    (w.tell e).client.duplex = true ∧ (w.tell e).client.deck = (w.client.deck.step e).1 ∧
      postsOf (w.tell e).client.out = (w.client.deck.step e).2 := by
  have hquiet : ({ w.client with out := [] } : Talk F).duplex = true := h
  have hdeals := deals_step hquiet he
  exact ⟨hdeals.duplex, hdeals.deck, hdeals.posts⟩

/-- Only samples that came are posted. -/
theorem full_step (d : Deck) {e : Event F} (he : ∀ pcm, e = .server (.audio (some pcm)) → pcm ≠ []) :
    ∀ p ∈ (d.step e).2, p.Full := by
  have hone : ∀ {p : Post F}, p.Full → ∀ p' ∈ [p], p'.Full := fun hp p' hp' => by
    rw [List.mem_singleton.1 hp']
    exact hp
  have hnil : ∀ p ∈ ([] : List (Post F)), p.Full := by simp
  cases e with
  | server e =>
    cases e with
    | speechStarted =>
      unfold Deck.step
      dsimp only
      split
      · exact hone trivial
      · exact hnil
    | created => exact hone trivial
    | cancelled => exact hone trivial
    | audio pcm =>
      cases pcm with
      | none => exact hnil
      | some pcm =>
        unfold Deck.step
        dsimp only
        split
        · exact hone (he pcm rfl)
        · exact hnil
    | _ => exact hnil
  | clearHistory =>
    unfold Deck.step
    dsimp only
    split
    · exact hone trivial
    · exact hnil
  | cancel => exact hone trivial
  | dropped => exact hone trivial
  | _ => exact hnil

end Steps

namespace Plays

variable {s : Stage F V}

omit [Zero F] in
/-- Something happens to the client. -/
theorem tell (h : Plays P s) {e : Event F} (he : e.Keeps)
    (hfull : ∀ pcm, e = .server (.audio (some pcm)) → pcm ≠ []) {w : Link F V}
    (hstands : Stands P w) (hclient : w.client = (s.link.tell e).client)
    (htuned : Tuned (s.link.client.deck.step e).1 (hears w.received))
    (hopen : e = .server .created → s.link.client.deck.answering = true →
      s.link.client.deck.queued = 0)
    (hreport : ∀ played, e = .report s.link.client.deck.generation played →
      s.link.client.deck.generation ≤ s.duplex.tape.generation ∧ played ≤ s.duplex.tape.played)
    {reports : List (ℕ × ℕ)} (hreports : reports ⊆ s.reports) :
    Plays P { s with link := w, port := s.port ++ postsOf w.client.out, reports := reports } := by
  obtain ⟨hduplex, hdeck, hposts⟩ := deals_tell h.duplex he
  refine ⟨hstands, ?_, h.whole, fun p hp => ?_, ?_, ?_, fun r hr => h.reports r (hreports hr)⟩
  · rw [hclient]
    exact hduplex
  · rw [hclient, hposts] at hp
    rcases List.mem_append.1 hp with hin | hin
    · exact h.full p hin
    · exact full_step _ hfull p hin
  · rw [hclient, hdeck]
    exact htuned
  · rw [hclient, hdeck, hposts]
    exact h.lands.step hopen hreport

omit [Zero F] in
/-- **A step of the connection.** -/
theorem link (h : Plays P s) {happening : Happening F} {w : Link F V}
    (hstep : Wire.Step P s.link happening w) (hsounding : Sounding s.link happening) :
    Plays P { s with link := w, port := s.port ++ postedBy happening w } := by
  have hstands := hstep.stands h.stands
  have hstay : w.client = s.link.client → w.received = s.link.received →
      Plays P { s with link := w, port := s.port ++ ([] : List (Post F)) } :=
    fun hclient hreceived => by
      rw [List.append_nil]
      exact { h with
        stands := hstands
        duplex := by rw [hclient]; exact h.duplex
        tuned := by rw [hclient, hreceived]; exact h.tuned
        lands := by rw [hclient]; exact h.lands }
  cases hstep with
  | @act i a next hprog hown x r m hexec =>
    exact hstay rfl (h.stands.received_same rfl ⟨_, (log_exec hexec).symm⟩)
  | again hprog => exact hstay rfl rfl
  | read hprog hup hreads => exact hstay rfl rfl
  | write hprog => exact hstay rfl rfl
  | @receive f down hdown e htells =>
    obtain ⟨n, rfl, hfits, hnext⟩ := h.stands.received_next
      { s.link.tell (.server e) with down := down, got := s.link.got ++ [f] } hdown rfl rfl
    refine h.tell (e := .server e) trivial (fun pcm heq => ?_) hstands rfl ?_ (fun heq hanswering => ?_)
      (fun played heq => by simp at heq) (List.Subset.refl _)
    · obtain rfl := Event.server.inj heq
      obtain ⟨sent, hsent, hlength⟩ := tells_audio htells
      rw [hsent] at hsounding
      exact fun hnil => hsounding (List.length_eq_zero_iff.1 (by rw [← hlength, hnil]; rfl))
    · rw [hnext, hears_snoc]
      exact h.tuned.server htells
    · -- The server opens no answer while another one sounds.
      obtain rfl := Event.server.inj heq
      have hquiet : Openable s.link.received n.pair := by
        have hframe := tells_created htells
        unfold Note.Fits at hfits
        rw [hframe] at hfits
        exact hfits
      by_contra hne
      exact hquiet.quiet (h.tuned.queued hanswering hne)
  | @host e he =>
    have hnot : ∀ generation played, e ≠ .report generation played := fun generation played heq => by
      subst heq
      exact hsounding
    refine h.tell ?_ (fun pcm heq => ?_) hstands rfl ?_ (fun heq => ?_) (fun played heq => ?_)
      (List.Subset.refl _)
    · cases e <;> first | exact he.elim | trivial
    · subst heq
      exact he.elim
    · refine h.tuned.host (fun s heq => ?_) fun heq => ?_
      · subst heq
        exact he.elim
      · subst heq
        have hgot : s.link.got = [] := hsounding
        have hnone : s.link.received = [] := by rw [Link.received, hgot]; rfl
        rw [hnone]
        rfl
    · subst heq
      exact he.elim
    · exact absurd heq (hnot _ _)
  | speak => exact hstay rfl rfl

/-- A message is handled. -/
theorem handle (h : Plays P s) {p : Post F} {port : List (Post F)} (hport : s.port = p :: port) :
    Plays P { s with port := port, duplex := s.duplex.onMessage p } := by
  obtain ⟨hfirst, hrest⟩ := List.forall_mem_cons.1 (hport ▸ h.full)
  obtain ⟨hwhole, htape⟩ := h.whole.onMessage hfirst
  have hlands : Lands s.link.client.deck s.duplex.tape (p :: port) := hport ▸ h.lands
  refine { h with whole := hwhole, full := hrest, lands := ?_, reports := fun r hr => ?_ }
  · rw [htape]
    cases p with
    | pcm samples => exact hlands
    | flush => exact hlands.2
    | reset generation => exact hlands.2.2
  · have hreport := h.reports r hr
    rw [htape]
    cases p with
    | pcm samples => exact hreport
    | flush => exact hreport
    | reset generation =>
      have hlater := hlands.2.1
      refine ⟨hreport.1.trans hlater.le, fun heq => ?_⟩
      have hgen : r.2 = generation := heq
      have := hreport.1
      omega

/-- A block is played. -/
theorem block (h : Plays P s) (steps : List ℕ) :
    Plays P { s with
      duplex := (s.duplex.process steps).1
      reports := s.reports ++ (s.duplex.process steps).2.2.toList } := by
  have hpulls : (s.duplex.process steps).1 = Nat.iterate Duplex.advance steps.sum s.duplex := by
    rw [Duplex.process_fst, Duplex.run_pulls]
  obtain ⟨hwhole, n, hwaiting, hplayed, hgeneration⟩ := h.whole.pulls steps.sum
  rw [← hpulls] at hwhole hwaiting hplayed hgeneration
  refine { h with
    whole := hwhole
    lands := h.lands.pull n hwaiting hplayed hgeneration
    reports := fun r hr => ?_ }
  rcases List.mem_append.1 hr with hin | hin
  · obtain ⟨hle, hsame⟩ := h.reports r hin
    rw [hgeneration, hplayed]
    exact ⟨hle, fun heq => (hsame heq).trans (Nat.le_add_right _ _)⟩
  · have hlast : r = ((s.duplex.process steps).1.tape.played,
        (s.duplex.process steps).1.tape.generation) := by
      unfold Duplex.process at hin
      dsimp only at hin
      split at hin
      · exact List.mem_singleton.1 hin
      · simp at hin
    rw [hlast]
    exact ⟨le_rfl, fun _ => le_rfl⟩

omit [Zero F] in
/-- A report comes: it is of the answer in flight, or of no account. -/
theorem report (h : Plays P s) {r : ℕ × ℕ} {reports : List (ℕ × ℕ)}
    (hreports : s.reports = r :: reports) :
    Plays P { s with
      link := s.link.tell (.report r.2 r.1)
      port := s.port ++ postsOf (s.link.tell (.report r.2 r.1)).client.out
      reports := reports } := by
  have hstep : Wire.Step P s.link (.host (.report r.2 r.1)) (s.link.tell (.report r.2 r.1)) :=
    .host trivial
  refine h.tell (e := .report r.2 r.1) trivial (fun pcm heq => by simp at heq)
    (hstep.stands h.stands) rfl ?_ (fun heq => by simp at heq) (fun played heq => ?_) ?_
  · exact h.tuned.host (fun s heq => by simp at heq) fun heq => by simp at heq
  · obtain ⟨hgeneration, hplayed⟩ := Event.report.inj heq
    obtain ⟨hle, hsame⟩ := h.reports r (by simp [hreports])
    have hlast := h.lands.generation_le
    rw [hgeneration] at hle hsame
    exact ⟨hle, hplayed ▸ hsame (le_antisymm hle hlast)⟩
  · rw [hreports]
    exact List.subset_cons_self _ _

omit [Zero F] in
/-- The connection is lost, and the client opens another one. -/
theorem reconnect (h : Plays P s) :
    Plays P { s with
      link := opening P (s.link.tell .dropped).client
      port := s.port ++ postsOf (s.link.tell .dropped).client.out } := by
  obtain ⟨hduplex, hdeck, hposts⟩ := deals_tell (e := .dropped) h.duplex trivial
  have hquiet : ({ (s.link.tell .dropped).client with out := [] } : Talk F).duplex = true := hduplex
  have hopened := deals_step (e := .opened) hquiet trivial
  have hsame : (opening P (s.link.tell .dropped).client).client.deck = s.link.client.deck.rest :=
    hopened.deck.trans hdeck
  refine ⟨stands_opening P _, hopened.duplex, h.whole, fun p hp => ?_, ?_, ?_, h.reports⟩
  · rw [hposts] at hp
    rcases List.mem_append.1 hp with hin | hin
    · exact h.full p hin
    · exact full_step (e := .dropped) _ (fun pcm heq => by simp at heq) p hin
  · rw [hsame]
    exact .rest _ _
  · rw [hsame, hposts]
    exact h.lands.flushed

/-- **Whatever happens.** -/
theorem step (h : Plays P s) {s' : Stage F V} (hstep : Stage.Step P s s') : Plays P s' := by
  cases hstep with
  | link hstep hsounding => exact h.link hstep hsounding
  | handle hport => exact h.handle hport
  | block steps => exact h.block steps
  | report hreports => exact h.report hreports
  | reconnect => exact h.reconnect

theorem start (P : Setup F V S) {t : Talk F} (hanswering : t.answering = false)
    (hduplex : t.duplex = true) : Plays P (Stage.start P t) := by
  have hquiet : ({ t with out := [] } : Talk F).duplex = true := hduplex
  have hopened := deals_step (e := .opened) hquiet trivial
  have hdeck : (opening P t).client.deck = t.deck := hopened.deck
  refine ⟨stands_opening P t, hopened.duplex, ⟨by simp [Stage.start, Duplex.new], .inl rfl⟩,
    by simp [Stage.start], ?_, ?_, by simp [Stage.start]⟩
  · show Tuned (opening P t).client.deck _
    rw [hdeck]
    exact .idle hanswering
  · show Rests (opening P t).client.deck _
    rw [hdeck]
    refine ⟨Nat.zero_le _, fun hans => ?_, fun _ => rfl⟩
    have hidle : t.answering = true := hans
    simp [hanswering] at hidle

end Plays

/-- The worklet once it has handled what was posted. -/
def Stage.settled (s : Stage F V) : Duplex F := s.port.foldl Duplex.onMessage s.duplex

/-- **What is played is of the answer in flight.**  When the worklet comes to a reset, all that was
posted for other answers was played or flushed.  Every sample queued for the answer in flight is
played or waits, and the client takes none for played that was not; with no answer in flight, no
sample waits. -/
structure Played (s : Stage F V) : Prop where
  dry : ∀ before generation after, s.port = before ++ .reset generation :: after →
    (before.foldl Duplex.onMessage s.duplex).waiting = []
  counted : s.link.client.answering = true → s.settled.generation = s.link.client.generation ∧
    s.settled.played + s.settled.waiting.length = s.link.client.queuedSamples ∧
    s.link.client.playedSamples ≤ s.settled.played
  silent : s.link.client.answering = false → s.settled.waiting = []
  reports : ∀ r ∈ s.reports, r.2 = s.link.client.generation → r.1 ≤ s.duplex.played

theorem played_of_plays {s : Stage F V} (h : Plays P s) : Played s := by
  have htape : s.settled.tape = s.port.foldl Tape.onMessage s.duplex.tape := h.whole.foldl h.full
  have hrests : Rests s.link.client.deck s.settled.tape := htape ▸ h.lands.rests
  refine ⟨fun before generation after hport => ?_, fun hanswering => hrests.counted hanswering,
    fun hanswering => List.length_eq_zero_iff.1 (hrests.silent hanswering), fun r hr heq => ?_⟩
  · have hlands := h.lands
    have hfull := h.full
    rw [hport] at hlands hfull
    have hbefore := h.whole.foldl fun p hp => hfull p (List.mem_append_left _ hp)
    refine List.length_eq_zero_iff.1 ?_
    show (before.foldl Duplex.onMessage s.duplex).tape.waiting = 0
    rw [hbefore]
    exact hlands.dry
  · obtain ⟨hle, hsame⟩ := h.reports r hr
    refine hsame (le_antisymm hle ?_)
    rw [heq]
    exact h.lands.generation_le

/-- **The worklet plays what the client thinks it plays**, over any number of connections. -/
theorem playing_of_along {t : Talk F} {s : Stage F V} (hanswering : t.answering = false)
    (hduplex : t.duplex = true)
    (h : Relation.ReflTransGen (Stage.Step P) (Stage.start P t) s) : Played s := by
  refine played_of_plays (P := P) ?_
  induction h with
  | refl => exact .start P hanswering hduplex
  | tail _ hstep ih => exact ih.step hstep

/-! ### One run -/

section Schedule

/-- There are samples in a frame of audio. -/
def filled : Frame F → Bool
  | .audio pcm => !pcm.isEmpty
  | _ => true

omit [Zero F] in
theorem sounding_of_filled {w w' : Link F V} {happening : Happening F}
    (hstep : Wire.Step P w happening w') (hfilled : w'.got.all filled = true)
    (hcued : happening.Cued) : Sounding w happening := by
  cases hstep with
  | @receive f down hdown e htells =>
    have hlast : filled f = true := List.all_eq_true.1 hfilled f (by simp)
    cases f with
    | audio pcm => exact fun hnil => by simp [filled, hnil] at hlast
    | _ => trivial
  | @host e he => cases e <;> first | exact hcued.elim | trivial
  | _ => trivial

/-- A run of a connection is one of the stage, in which nothing posted is handled. -/
theorem stage_of_along {s : Stage F V} {w : Link F V}
    (h : Along P (fun _ happening w' => w'.got.all filled = true ∧ happening.Cued) s.link w) :
    ∃ port, Relation.ReflTransGen (Stage.Step P) s { s with link := w, port := port } := by
  induction h with
  | refl => exact ⟨s.port, .refl⟩
  | tail _ hstep ih =>
    obtain ⟨port, hrun⟩ := ih
    obtain ⟨happening, hstep, hfilled, hcued⟩ := hstep
    exact ⟨_, hrun.tail (.link hstep (sounding_of_filled hstep hfilled hcued))⟩

end Schedule

/-- A client with a worklet. -/
def listener : Talk ℕ := { caller with duplex := true }

theorem listened_isSome : ((opening (plainSetup (ascii "loopback")) listener).play
    (plainSetup (ascii "loopback")) (fun w => w.got.all filled) takenOver).isSome = true := by
  decide +kernel

/-- The client has taken an answer of one sample. -/
def listened : Link ℕ Unit := ((opening (plainSetup (ascii "loopback")) listener).play
  (plainSetup (ascii "loopback")) (fun w => w.got.all filled) takenOver).get listened_isSome

/-- The sample is on its way to the worklet. -/
theorem playing_listened : ∃ s : Stage ℕ Unit, Played s ∧ s.link.client.answering = true ∧
    s.settled.played + s.settled.waiting.length = 1 := by
  have halong := along_cues (Option.some_get listened_isSome).symm
  obtain ⟨port, hrun⟩ := stage_of_along
    (s := Stage.start (plainSetup (ascii "loopback")) listener) halong
  have hplayed := playing_of_along rfl rfl hrun
  have hqueued : listened.client.answering = true ∧ listened.client.queuedSamples = 1 := by
    decide +kernel
  exact ⟨_, hplayed, hqueued.1, (hplayed.counted hqueued.1).2.1.trans hqueued.2⟩

end Wire
end S2S
