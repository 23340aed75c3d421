/-
# The account of an answer

What the counters of `src/tools/s2s-cli.cpp` say of the answer in flight: what was
queued of it was consumed, is in the hands of the callback or waits in the ring,
and what was played of it is the front of what was queued (`Accounts`).  Each
answer that was closed keeps the number of its samples that were played
(`Filed`).  No step of the callback changes that, whatever the others do.
-/

import S2S.Cli.Moves

namespace S2S
namespace Cli

open Json Agent Thread Conversation Client

variable {F : Type}

/-! ### Samples -/

/-- The samples of an answer. -/
def ofAnswer (a : ℕ) (xs : List (ℕ × F)) : List (ℕ × F) := xs.filter fun p => p.1 == a

@[simp] theorem ofAnswer_append (a : ℕ) (xs ys : List (ℕ × F)) :
    ofAnswer a (xs ++ ys) = ofAnswer a xs ++ ofAnswer a ys := List.filter_append ..

theorem ofAnswer_eq_self {a : ℕ} {xs : List (ℕ × F)} (h : ∀ p ∈ xs, p.1 = a) :
    ofAnswer a xs = xs :=
  List.filter_eq_self.2 fun p hp => by simp [h p hp]

theorem ofAnswer_eq_nil {a : ℕ} {xs : List (ℕ × F)} (h : ∀ p ∈ xs, p.1 ≠ a) :
    ofAnswer a xs = [] :=
  List.filter_eq_nil_iff.2 fun p hp => by simp [h p hp]

/-! ### The callback -/

namespace Air

/-- The samples off the queue and not counted as consumed. -/
def late : Air F → ℕ
  | .playing n | .chunk n _ | .told n | .dropped n => n
  | _ => 0

/-- The samples played and not counted as heard. -/
def unheard : Air F → ℕ
  | .playing n | .chunk n _ => n
  | _ => 0

/-- The callback drops the queue. -/
def Drops : Air F → Prop
  | .flushing | .counted _ | .dropped _ | .lowering => True
  | _ => False

end Air

/-- **Nothing sounds**: nothing waits in the ring, and all that was taken out of it is counted. -/
structure Quiet (s : Air F) (d : Desk F) : Prop where
  contents : d.playback.contents = []
  late : s.late = 0

/-- **What holds of the callback.** -/
structure Plays (s : Air F) (d : Desk F) : Prop where
  sound : d.playback.Sound
  heard : d.heard + s.unheard = d.air.length
  chunk : ∀ n xs, s = .chunk n xs →
    xs ≠ [] ∧ xs <+: d.playback.contents ∧ xs.length ≤ d.playback.readable
  drops : s.Drops → d.flush = true
  counted : ∀ n, s = .counted n → n = d.playback.contents.length
  dropped : (∃ n, s = .dropped n) ∨ s = .lowering → d.playback.contents = []

section Plays

variable {s s' : Air F} {d d' : Desk F}

theorem Air.unheard_le (s : Air F) : s.unheard ≤ s.late := by
  cases s <;> first | exact Nat.le_refl _ | exact Nat.zero_le _

/-- What was counted as heard is all that was played. -/
theorem Quiet.heard (h : Quiet s d) (hplays : Plays s d) : d.heard = d.air.length := by
  have hunheard := s.unheard_le
  rw [h.late] at hunheard
  have := hplays.heard
  omega

/-- A chunk is taken off the ring. -/
theorem Plays.taken {n : ℕ} {xs : List (ℕ × F)} (h : Plays (.chunk n xs) d) :
    ∃ rest, d.playback.contents = xs ++ rest ∧
      (d.playback.commitRead xs.length).contents = rest := by
  obtain ⟨-, ⟨rest, hrest⟩, hreadable⟩ := h.chunk n xs rfl
  refine ⟨rest, hrest.symm, ?_⟩
  rw [(Ring.commitRead_sound h.sound hreadable).2, ← hrest, List.drop_left]

/-- The queue is dropped. -/
theorem Plays.emptied {n : ℕ} (h : Plays (.counted n) d) :
    (d.playback.seekRead n).Sound ∧ (d.playback.seekRead n).contents = [] := by
  have hn := h.counted n rfl
  obtain ⟨hsound, hcontents⟩ := Ring.seekRead_sound h.sound (Nat.le_of_eq hn)
  refine ⟨hsound, ?_⟩
  rw [hcontents, hn, List.drop_length]

/-- **The callback goes on.** -/
theorem Plays.act (h : Plays s d) (hmove : s.Move d s' d') : Plays s' d' := by
  cases hmove with
  | aside capture periods => exact ⟨h.sound, h.heard, h.chunk, h.drops, h.counted, h.dropped⟩
  | flush hflush =>
    exact ⟨h.sound, h.heard, by simp, fun _ => hflush, by simp, by simp⟩
  | count =>
    refine ⟨h.sound, h.heard, by simp, fun _ => h.drops trivial, ?_, by simp⟩
    rintro n ⟨⟩
    exact (Ring.contents_length h.sound).symm
  | drops =>
    obtain ⟨hsound, hnil⟩ := h.emptied
    exact ⟨hsound, h.heard, by simp, fun _ => h.drops trivial, by simp, fun _ => hnil⟩
  | dropped =>
    exact ⟨h.sound, h.heard, by simp, fun _ => h.drops trivial, by simp,
      fun _ => h.dropped (.inl ⟨_, rfl⟩)⟩
  | lower => exact ⟨h.sound, h.heard, by simp, fun hdrops => hdrops.elim, by simp, by simp⟩
  | @acquire _ n k hsome =>
    refine ⟨h.sound, h.heard, ?_, fun hdrops => hdrops.elim, by simp, by simp⟩
    rintro n xs ⟨⟩
    refine ⟨hsome, Ring.acquireRead_prefix h.sound k, ?_⟩
    rw [Ring.acquireRead_eq h.sound, List.length_take]
    omega
  | @commit _ n xs periods =>
    obtain ⟨-, -, hreadable⟩ := h.chunk n xs rfl
    refine ⟨(Ring.commitRead_sound h.sound hreadable).1, ?_, by simp, fun hdrops => hdrops.elim,
      by simp, by simp⟩
    have hheard : d.heard + n = d.air.length := h.heard
    show d.heard + (n + xs.length) = (d.air ++ xs).length
    rw [List.length_append]
    omega
  | heard =>
    exact ⟨h.sound, h.heard, by simp, fun hdrops => hdrops.elim, by simp, by simp⟩
  | consumed =>
    exact ⟨h.sound, h.heard, by simp, fun hdrops => hdrops.elim, by simp, by simp⟩

/-- **Where nothing sounds, nothing sounds after a step of the callback**, and the counters stay. -/
theorem Quiet.act (h : Quiet s d) (hplays : Plays s d) (hmove : s.Move d s' d') :
    Quiet s' d' ∧ d'.heard = d.heard ∧ d'.consumed = d.consumed := by
  obtain ⟨hcontents, hlate⟩ := h
  cases hmove with
  | aside capture periods => exact ⟨⟨hcontents, hlate⟩, rfl, rfl⟩
  | flush hflush => exact ⟨⟨hcontents, rfl⟩, rfl, rfl⟩
  | count => exact ⟨⟨hcontents, rfl⟩, rfl, rfl⟩
  | @drops _ n =>
    have hn := hplays.counted n rfl
    rw [hcontents] at hn
    exact ⟨⟨hplays.emptied.2, hn⟩, rfl, rfl⟩
  | @dropped _ n =>
    have hn : n = 0 := hlate
    subst hn
    exact ⟨⟨hcontents, rfl⟩, rfl, rfl⟩
  | lower => exact ⟨⟨hcontents, rfl⟩, rfl, rfl⟩
  | @acquire _ n k hsome =>
    have hnil := Ring.acquireRead_prefix hplays.sound k
    rw [hcontents, List.prefix_nil] at hnil
    exact absurd hnil hsome
  | @commit _ n xs periods =>
    obtain ⟨hsome, hprefix, -⟩ := hplays.chunk n xs rfl
    rw [hcontents, List.prefix_nil] at hprefix
    exact absurd hprefix hsome
  | @heard _ n =>
    have hn : n = 0 := hlate
    subst hn
    exact ⟨⟨hcontents, rfl⟩, rfl, rfl⟩
  | @consumed _ n =>
    have hn : n = 0 := hlate
    subst hn
    exact ⟨⟨hcontents, rfl⟩, rfl, rfl⟩

end Plays

/-! ### The answer in flight -/

namespace Hand

/-- The samples of a frame that the ring took so far. -/
def filled : Hand F → ℕ
  | .filling _ n | .room _ n _ _ => n
  | _ => 0

/-- The writer ends what sounds. -/
def Ending : Hand F → Prop
  | .raised _ | .still _ | .closing _ | .told _ _ => True
  | _ => False

end Hand

/-- **The account**, `pending` samples in the ring that the context does not count yet, and `Ending`
while the writer ends what sounds. -/
structure Accounts (s : Air F) (w : Hand F) (d : Desk F) : Prop where
  base : d.context.answering = true → d.context.consumedBase ≤ d.consumed
  queue : d.context.answering = true → d.consumed + s.late + d.playback.contents.length =
    d.context.consumedBase + d.context.queued + w.filled
  heard : d.context.answering = true →
    d.context.heardBase + (ofAnswer d.answer d.air).length = d.air.length
  given : d.context.answering = true →
    (ofAnswer d.answer d.given).length = d.context.queued + w.filled
  quiet : d.context.answering = false → Quiet s d
  whole : d.playback.contents ≠ [] ∨ d.context.answering = true ∧ ¬w.Ending →
    ofAnswer d.answer d.air ++ d.playback.contents = ofAnswer d.answer d.given
  tags : ∀ p ∈ d.playback.contents, p.1 = d.answer
  upTo : ∀ p ∈ d.air ++ d.given, p.1 ≤ d.answer
  front : ∀ a, ofAnswer a d.air <+: ofAnswer a d.given

section Accounts

variable {s s' : Air F} {w : Hand F} {d d' : Desk F}

/-- Where something waits, an answer is open. -/
theorem Accounts.answering (h : Accounts s w d) (hsome : d.playback.contents ≠ []) :
    d.context.answering = true := by
  cases hanswering : d.context.answering with
  | true => rfl
  | false => exact absurd (h.quiet hanswering).contents hsome

/-- A step of the callback on what it took out already. -/
theorem Accounts.counts (h : Accounts s w d) (hcontext : d'.context = d.context)
    (hanswer : d'.answer = d.answer) (hcontents : d'.playback.contents = d.playback.contents)
    (hair : d'.air = d.air) (hgiven : d'.given = d.given) (hconsumed : d.consumed ≤ d'.consumed)
    (hpopped : d'.consumed + s'.late = d.consumed + s.late) (hquiet : Quiet s d → Quiet s' d') :
    Accounts s' w d' := by
  refine ⟨?_, ?_, ?_, ?_, ?_, ?_, ?_, ?_, ?_⟩
  · rw [hcontext]
    intro hanswering
    exact Nat.le_trans (h.base hanswering) hconsumed
  · rw [hcontext, hcontents, hpopped]
    exact h.queue
  · rw [hcontext, hanswer, hair]
    exact h.heard
  · rw [hcontext, hanswer, hgiven]
    exact h.given
  · rw [hcontext]
    intro hanswering
    exact hquiet (h.quiet hanswering)
  · rw [hcontext, hcontents, hanswer, hair, hgiven]
    exact h.whole
  · rw [hcontents, hanswer]
    exact h.tags
  · rw [hair, hgiven, hanswer]
    exact h.upTo
  · rw [hair, hgiven]
    exact h.front

/-- **A step of the callback keeps the account.** -/
theorem Accounts.air (h : Accounts s w d) (hplays : Plays s d) (hflush : d.flush = true → w.Ending)
    (hmove : s.Move d s' d') : Accounts s' w d' := by
  have hquiet : Quiet s d → Quiet s' d' := fun hq => (hq.act hplays hmove).1
  cases hmove with
  | aside capture periods => exact h.counts rfl rfl rfl rfl rfl (Nat.le_refl _) rfl hquiet
  | flush => exact h.counts rfl rfl rfl rfl rfl (Nat.le_refl _) rfl hquiet
  | count => exact h.counts rfl rfl rfl rfl rfl (Nat.le_refl _) rfl hquiet
  | @drops _ n =>
    obtain ⟨-, hnil⟩ := hplays.emptied
    have hn := hplays.counted n rfl
    have hending := hflush (hplays.drops trivial)
    refine ⟨h.base, fun hanswering => ?_, h.heard, h.given, fun hanswering =>
      hquiet (h.quiet hanswering), ?_, ?_, h.upTo, h.front⟩
    · have hqueue : d.consumed + 0 + d.playback.contents.length = _ := h.queue hanswering
      show d.consumed + n + (d.playback.seekRead n).contents.length =
        d.context.consumedBase + d.context.queued + w.filled
      rw [hnil, List.length_nil]
      omega
    · rintro (hsome | ⟨-, hnot⟩)
      · exact absurd hnil hsome
      · exact absurd hending hnot
    · intro p hp
      change p ∈ (d.playback.seekRead n).contents at hp
      rw [hnil] at hp
      cases hp
  | dropped =>
    exact h.counts rfl rfl rfl rfl rfl (Nat.le_add_right _ _) rfl hquiet
  | lower => exact h.counts rfl rfl rfl rfl rfl (Nat.le_refl _) rfl hquiet
  | acquire => exact h.counts rfl rfl rfl rfl rfl (Nat.le_refl _) rfl hquiet
  | @commit _ n xs periods =>
    obtain ⟨hsome, -, -⟩ := hplays.chunk n xs rfl
    obtain ⟨rest, hcontents, hrest⟩ := hplays.taken
    have hwaits : d.playback.contents ≠ [] := by
      rw [hcontents]
      simp [hsome]
    have hanswering := h.answering hwaits
    have htags := h.tags
    rw [hcontents] at htags
    have hxs : ∀ p ∈ xs, p.1 = d.answer := fun p hp => htags p (List.mem_append_left _ hp)
    have hwhole := h.whole (.inl hwaits)
    rw [hcontents, ← List.append_assoc] at hwhole
    have hmine : ofAnswer d.answer (d.air ++ xs) = ofAnswer d.answer d.air ++ xs := by
      rw [ofAnswer_append, ofAnswer_eq_self hxs]
    refine ⟨h.base, fun _ => ?_, fun _ => ?_, h.given, fun hnot => ?_, fun _ => ?_, ?_, ?_, ?_⟩
    · have hqueue : d.consumed + n + d.playback.contents.length = _ := h.queue hanswering
      rw [hcontents, List.length_append] at hqueue
      show d.consumed + (n + xs.length) + (d.playback.commitRead xs.length).contents.length =
        d.context.consumedBase + d.context.queued + w.filled
      rw [hrest]
      omega
    · have hheard := h.heard hanswering
      show d.context.heardBase + (ofAnswer d.answer (d.air ++ xs)).length = (d.air ++ xs).length
      rw [hmine, List.length_append, List.length_append]
      omega
    · exact absurd (hanswering.symm.trans hnot) (by simp)
    · show ofAnswer d.answer (d.air ++ xs) ++ (d.playback.commitRead xs.length).contents = _
      rw [hmine, hrest]
      exact hwhole
    · intro p hp
      change p ∈ (d.playback.commitRead xs.length).contents at hp
      rw [hrest] at hp
      exact htags p (List.mem_append_right _ hp)
    · intro p hp
      rcases List.mem_append.1 hp with hin | hin
      · rcases List.mem_append.1 hin with hin | hin
        · exact h.upTo p (List.mem_append_left _ hin)
        · exact Nat.le_of_eq (hxs p hin)
      · exact h.upTo p (List.mem_append_right _ hin)
    · intro a
      show ofAnswer a (d.air ++ xs) <+: ofAnswer a d.given
      by_cases ha : a = d.answer
      · subst ha
        rw [hmine, ← hwhole]
        exact List.prefix_append _ _
      · rw [ofAnswer_append, ofAnswer_eq_nil fun p hp heq => ha (heq.symm.trans (hxs p hp)),
          List.append_nil]
        exact h.front a
  | heard => exact h.counts rfl rfl rfl rfl rfl (Nat.le_refl _) rfl hquiet
  | consumed =>
    exact h.counts rfl rfl rfl rfl rfl (Nat.le_add_right _ _) rfl hquiet

end Accounts

end Cli
end S2S
