/-
# What holds of the voice loop

The threads of `src/tools/s2s-cli.cpp` together: where each of them stands, and
what it may rely on there (`Hand.Holds`, `Look.Holds`), who holds the mutex, and
the accounts (`Held`).  Every step of the callback, of the writer and of the
reader keeps it.
-/

import S2S.Cli.Filed

namespace S2S
namespace Cli

open Json Agent Thread Conversation Client

variable {F : Type}

/-! ### Where the threads stand -/

namespace Hand

/-- What the writer relies on. -/
def Holds (s : Air F) (d : Desk F) : Hand F → Prop
  | .raised _ => d.flush = false → Quiet s d
  | .still _ => Quiet s d
  | .closing _ => Quiet s d ∧ d.context.answering = true
  | .told _ heard => Quiet s d ∧ d.context.answering = true ∧ heard = d.heard
  | .shut _ => d.context.answering = false
  | .opening heard => d.context.answering = false ∧ heard = d.heard
  | .opened heard consumed =>
    d.context.answering = false ∧ heard = d.heard ∧ consumed = d.consumed
  | .filling _ _ => d.context.answering = true
  | .room _ _ k l => d.context.answering = true ∧ k ≤ l ∧ k ≤ d.playback.writable
  | _ => True

/-- The frame in hand. -/
def event : Hand F → Option (ServerEvent F)
  | .away => none
  | .took e | .holding e | .sure e | .raised e | .still e | .closing e | .told e _ | .shut e
  | .settled e => some e
  | .opening _ | .opened _ _ => some .created
  | .filling pcm _ | .room pcm _ _ _ => some (.audio pcm)

/-- The frames that the context has taken. -/
def seen (d : Desk F) : Hand F → List (Frame F)
  | .settled _ => d.taken ++ d.current.toList
  | _ => d.taken

/-- The writer has the mutex. -/
def Inside : Hand F → Prop
  | .away | .took _ => False
  | _ => True

end Hand

/-- What the reader relies on. -/
def Look.Holds (s : Air F) (d : Desk F) : Look → Prop
  | .ended => d.context.answering = true
  | .saw consumed => d.context.answering = true ∧ consumed ≤ d.consumed
  | .still => d.context.answering = true ∧ Quiet s d
  | .closing => d.context.answering = true ∧ Quiet s d
  | .told heard => d.context.answering = true ∧ Quiet s d ∧ heard = d.heard
  | _ => True

/-- A thread has the mutex. -/
def Stand.Inside : Stand F → Prop
  | .writer w => w.Inside
  | .reader l => l ≠ .away
  | _ => False

/-- The frame that is current is the one in hand. -/
def Desk.Takes (d : Desk F) : Option (ServerEvent F) → Prop
  | none => d.current = none
  | some e => ∃ f decoded, d.current = some f ∧ arrives f decoded = some e

/-- Where all of them stand. -/
def standing (s : Air F) (w : Hand F) (l : Look) : Role → Stand F
  | .callback => .callback s
  | .writer => .writer w
  | .reader => .reader l
  | .user => .user

/-- **What holds of the voice loop.** -/
structure Held (frames : List (Frame F)) (s : Air F) (w : Hand F) (l : Look) (d : Desk F) :
    Prop where
  mutex : Guards Stand.Inside d.mutex (standing s w l)
  plays : Plays s d
  accounts : Accounts s w d
  filed : Filed d
  flush : d.flush = true → ∃ e, w = .raised e
  hand : w.Holds s d
  look : l.Holds s d
  takes : d.Takes w.event
  frames : d.taken ++ d.current.toList ++ d.coming = frames
  near : Near (w.seen d) d.context

section Steps

variable {frames : List (Frame F)} {s s' : Air F} {w w' : Hand F} {l l' : Look} {d d' : Desk F}
  {e : ServerEvent F} {consumed : ℕ}

theorem update_callback : Function.update (standing s w l) .callback (.callback s') =
    standing s' w l := by
  funext role
  cases role <;> rfl

theorem update_writer : Function.update (standing s w l) .writer (.writer w') =
    standing s w' l := by
  funext role
  cases role <;> rfl

theorem update_reader : Function.update (standing s w l) .reader (.reader l') =
    standing s w l' := by
  funext role
  cases role <;> rfl

/-- While the writer is inside, the reader is not. -/
theorem Held.apart (h : Held frames s w l d) (hin : w.Inside) : l = .away := by
  by_cases hl : l = .away
  · exact hl
  · have hwriter : Stand.Inside (standing s w l .writer) := hin
    have hreader : Stand.Inside (standing s w l .reader) := hl
    cases h.mutex.eq hwriter hreader

theorem Held.outside (h : Held frames s w l d) (hin : l ≠ .away) : ¬w.Inside := fun hw =>
  hin (h.apart hw)

/-! ### The callback -/

/-- What a step of the callback leaves as it was. -/
structure Desk.Beside (d d' : Desk F) : Prop where
  context : d'.context = d.context
  current : d'.current = d.current
  taken : d'.taken = d.taken
  coming : d'.coming = d.coming
  mutex : d'.mutex = d.mutex

theorem Air.Move.beside (h : s.Move d s' d') : d.Beside d' := by
  cases h <;> exact ⟨rfl, rfl, rfl, rfl, rfl⟩

/-- A flush that is down was down, or nothing sounds. -/
theorem Air.Move.lowered (h : s.Move d s' d') (hplays : Plays s d) (hflush : d'.flush = false) :
    d.flush = false ∨ Quiet s' d' := by
  cases h with
  | lower => exact .inr ⟨hplays.dropped (.inr rfl), rfl⟩
  | _ => exact .inl hflush

theorem Air.Move.raised (h : s.Move d s' d') (hflush : d'.flush = true) : d.flush = true := by
  cases h with
  | lower => cases hflush
  | _ => exact hflush

theorem Air.Move.consumed_le (h : s.Move d s' d') : d.consumed ≤ d'.consumed := by
  cases h <;> first | exact Nat.le_refl _ | exact Nat.le_add_right _ _

theorem Air.Move.writable_le (h : s.Move d s' d') (hplays : Plays s d) :
    d.playback.writable ≤ d'.playback.writable := by
  cases h with
  | @drops _ n =>
    exact Ring.writable_seekRead hplays.sound (Nat.le_of_eq (hplays.counted n rfl))
  | @commit _ n xs periods =>
    obtain ⟨-, -, hreadable⟩ := hplays.chunk n xs rfl
    exact Ring.writable_commitRead hplays.sound hreadable
  | _ => exact Nat.le_refl _

theorem Hand.Holds.air (h : w.Holds s d) (hplays : Plays s d) (haccounts : Accounts s w d)
    (hmove : s.Move d s' d') : w.Holds s' d' := by
  have hcontext := hmove.beside.context
  cases w with
  | raised e =>
    intro hflush
    rcases hmove.lowered hplays hflush with hdown | hquiet
    · exact ((h hdown).act hplays hmove).1
    · exact hquiet
  | still e => exact (h.act hplays hmove).1
  | closing e =>
    obtain ⟨hquiet, hanswering⟩ := h
    exact ⟨(hquiet.act hplays hmove).1, by rw [hcontext]; exact hanswering⟩
  | told e heard =>
    obtain ⟨hquiet, hanswering, rfl⟩ := h
    obtain ⟨hquiet', hheard, -⟩ := hquiet.act hplays hmove
    exact ⟨hquiet', by rw [hcontext]; exact hanswering, hheard.symm⟩
  | shut e =>
    show d'.context.answering = false
    rw [hcontext]
    exact h
  | opening heard =>
    obtain ⟨hanswering, rfl⟩ := h
    obtain ⟨-, hheard, -⟩ := (haccounts.quiet hanswering).act hplays hmove
    exact ⟨by rw [hcontext]; exact hanswering, hheard.symm⟩
  | opened heard consumed =>
    obtain ⟨hanswering, rfl, rfl⟩ := h
    obtain ⟨-, hheard, hconsumed⟩ := (haccounts.quiet hanswering).act hplays hmove
    exact ⟨by rw [hcontext]; exact hanswering, hheard.symm, hconsumed.symm⟩
  | filling pcm n =>
    show d'.context.answering = true
    rw [hcontext]
    exact h
  | room pcm n k m =>
    obtain ⟨hanswering, hk, hroom⟩ := h
    exact ⟨by rw [hcontext]; exact hanswering, hk,
      Nat.le_trans hroom (hmove.writable_le hplays)⟩
  | _ => trivial

theorem Look.Holds.air (h : l.Holds s d) (hplays : Plays s d) (hmove : s.Move d s' d') :
    l.Holds s' d' := by
  have hcontext := hmove.beside.context
  cases l with
  | ended =>
    show d'.context.answering = true
    rw [hcontext]
    exact h
  | saw consumed =>
    exact ⟨by rw [hcontext]; exact h.1, Nat.le_trans h.2 hmove.consumed_le⟩
  | still => exact ⟨by rw [hcontext]; exact h.1, (h.2.act hplays hmove).1⟩
  | closing => exact ⟨by rw [hcontext]; exact h.1, (h.2.act hplays hmove).1⟩
  | told heard =>
    obtain ⟨hanswering, hquiet, rfl⟩ := h
    obtain ⟨hquiet', hheard, -⟩ := hquiet.act hplays hmove
    exact ⟨by rw [hcontext]; exact hanswering, hquiet', hheard.symm⟩
  | _ => trivial

/-- **A step of the callback keeps what holds.** -/
theorem Held.callback (h : Held frames s w l d) (hmove : s.Move d s' d') :
    Held frames s' w l d' := by
  have hbeside := hmove.beside
  have hending : d.flush = true → w.Ending := fun hflush => by
    obtain ⟨e, rfl⟩ := h.flush hflush
    trivial
  refine ⟨?_, h.plays.act hmove, h.accounts.air h.plays hending hmove,
    h.filed.air h.plays h.accounts hmove, fun hflush => h.flush (hmove.raised hflush),
    h.hand.air h.plays h.accounts hmove, h.look.air h.plays hmove, ?_, ?_, ?_⟩
  · rw [hbeside.mutex, ← update_callback (s := s)]
    exact h.mutex.keep (i := .callback) (s := .callback s') Iff.rfl
  · unfold Desk.Takes
    rw [hbeside.current]
    exact h.takes
  · rw [hbeside.taken, hbeside.current, hbeside.coming]
    exact h.frames
  · have hseen : w.seen d' = w.seen d := by
      unfold Hand.seen
      rw [hbeside.taken, hbeside.current]
    rw [hseen, hbeside.context]
    exact h.near

/-! ### The writer -/

/-- The account as the writer goes on, beside the ring. -/
theorem Accounts.passes (h : Accounts s w d) (hplayback : d'.playback = d.playback)
    (hconsumed : d'.consumed = d.consumed) (hanswer : d'.answer = d.answer)
    (hair : d'.air = d.air) (hgiven : d'.given = d.given)
    (hanswering : d'.context.answering = d.context.answering)
    (hbase : d'.context.consumedBase = d.context.consumedBase)
    (hheard : d'.context.heardBase = d.context.heardBase)
    (hqueued : d'.context.queued + w'.filled = d.context.queued + w.filled)
    (hending : d.context.answering = true → ¬w'.Ending → ¬w.Ending) : Accounts s w' d' := by
  refine ⟨?_, ?_, ?_, ?_, ?_, ?_, ?_, ?_, ?_⟩
  · rw [hanswering, hbase, hconsumed]
    exact h.base
  · rw [hanswering, hbase, hconsumed, hplayback, Nat.add_assoc d.context.consumedBase, hqueued,
      ← Nat.add_assoc d.context.consumedBase]
    exact h.queue
  · rw [hanswering, hheard, hanswer, hair]
    exact h.heard
  · rw [hanswering, hanswer, hgiven, hqueued]
    exact h.given
  · rw [hanswering]
    intro hshut
    obtain ⟨hcontents, hlate⟩ := h.quiet hshut
    exact ⟨hplayback ▸ hcontents, hlate⟩
  · rw [hanswering, hplayback, hanswer, hair, hgiven]
    rintro (hsome | ⟨hopen, hnot⟩)
    · exact h.whole (.inl hsome)
    · exact h.whole (.inr ⟨hopen, hending hopen hnot⟩)
  · rw [hplayback, hanswer]
    exact h.tags
  · rw [hair, hgiven, hanswer]
    exact h.upTo
  · rw [hair, hgiven]
    exact h.front

theorem Plays.same (h : Plays s d) (hplayback : d'.playback = d.playback)
    (hheard : d'.heard = d.heard) (hair : d'.air = d.air)
    (hflush : d.flush = true → d'.flush = true) : Plays s d' := by
  refine ⟨?_, ?_, ?_, fun hdrops => hflush (h.drops hdrops), ?_, ?_⟩
  · rw [hplayback]
    exact h.sound
  · rw [hheard, hair]
    exact h.heard
  · rw [hplayback]
    exact h.chunk
  · rw [hplayback]
    exact h.counted
  · rw [hplayback]
    exact h.dropped

/-- An answer is closed. -/
theorem Accounts.close (h : Accounts s w d) (hquiet : Quiet s d) {heard : ℕ} {ended : Bool} :
    Accounts s w' (d.close heard ended) := by
  have hshut : (d.close heard ended).context.answering ≠ true := by
    simp [Desk.close, Context.closed]
  refine ⟨(absurd · hshut), (absurd · hshut), (absurd · hshut), (absurd · hshut),
    fun _ => ⟨hquiet.contents, hquiet.late⟩, ?_, h.tags, h.upTo, h.front⟩
  rintro (hsome | ⟨hopen, -⟩)
  · exact absurd hquiet.contents hsome
  · exact absurd hopen hshut

/-- An answer is opened. -/
theorem Accounts.opens (h : Accounts s w d) (hplays : Plays s d)
    (hanswering : d.context.answering = false) (hfilled : w'.filled = 0) :
    Accounts s w' { d with
      context := d.context.opened d.heard d.consumed, answer := d.answer + 1 } := by
  obtain ⟨hcontents, hlate⟩ := h.quiet hanswering
  have hheard := Quiet.heard ⟨hcontents, hlate⟩ hplays
  have hair : ofAnswer (d.answer + 1) d.air = [] := ofAnswer_eq_nil fun p hp => by
    have := h.upTo p (List.mem_append_left _ hp)
    omega
  have hgiven : ofAnswer (d.answer + 1) d.given = [] := ofAnswer_eq_nil fun p hp => by
    have := h.upTo p (List.mem_append_right _ hp)
    omega
  refine ⟨fun _ => Nat.le_refl _, fun _ => ?_, fun _ => ?_, fun _ => ?_, by simp [Context.opened],
    fun _ => ?_, ?_, ?_, h.front⟩
  · show d.consumed + s.late + d.playback.contents.length = d.consumed + 0 + w'.filled
    rw [hlate, hcontents, hfilled]
    rfl
  · show d.heard + (ofAnswer (d.answer + 1) d.air).length = d.air.length
    rw [hair, hheard]
    rfl
  · show (ofAnswer (d.answer + 1) d.given).length = 0 + w'.filled
    rw [hgiven, hfilled]
    rfl
  · show ofAnswer (d.answer + 1) d.air ++ d.playback.contents = ofAnswer (d.answer + 1) d.given
    rw [hair, hgiven, hcontents]
    rfl
  · intro p hp
    change p ∈ d.playback.contents at hp
    rw [hcontents] at hp
    cases hp
  · intro p hp
    exact Nat.le_succ_of_le (h.upTo p hp)

/-- Samples go into the ring. -/
theorem Accounts.commit (h : Accounts s w d) (hplays : Plays s d)
    (hanswering : d.context.answering = true) (hending : ¬w.Ending) {xs : List (ℕ × F)}
    (hroom : xs.length ≤ d.playback.writable) (htags : ∀ p ∈ xs, p.1 = d.answer)
    (hfilled : w'.filled = w.filled + xs.length) :
    Accounts s w' { d with
      playback := (d.playback.fill xs).commitWrite xs.length, given := d.given ++ xs } := by
  obtain ⟨-, hcontents⟩ := Ring.commitWrite_sound hplays.sound hroom
  have hmine : ofAnswer d.answer (d.given ++ xs) = ofAnswer d.answer d.given ++ xs := by
    rw [ofAnswer_append, ofAnswer_eq_self htags]
  refine ⟨h.base, fun _ => ?_, h.heard, fun _ => ?_, fun hshut => ?_, fun _ => ?_, ?_, ?_, ?_⟩
  · have hqueue := h.queue hanswering
    show d.consumed + s.late + ((d.playback.fill xs).commitWrite xs.length).contents.length =
      d.context.consumedBase + d.context.queued + w'.filled
    rw [hcontents, List.length_append, hfilled]
    omega
  · have hgiven := h.given hanswering
    show (ofAnswer d.answer (d.given ++ xs)).length = d.context.queued + w'.filled
    rw [hmine, List.length_append, hfilled]
    omega
  · exact absurd (hanswering.symm.trans hshut) (by simp)
  · show ofAnswer d.answer d.air ++ ((d.playback.fill xs).commitWrite xs.length).contents =
      ofAnswer d.answer (d.given ++ xs)
    rw [hcontents, hmine, ← List.append_assoc, h.whole (.inr ⟨hanswering, hending⟩)]
  · intro p hp
    change p ∈ ((d.playback.fill xs).commitWrite xs.length).contents at hp
    rw [hcontents] at hp
    rcases List.mem_append.1 hp with hin | hin
    · exact h.tags p hin
    · exact htags p hin
  · intro p hp
    rcases List.mem_append.1 hp with hin | hin
    · exact h.upTo p (List.mem_append_left _ hin)
    · rcases List.mem_append.1 hin with hin | hin
      · exact h.upTo p (List.mem_append_right _ hin)
      · exact Nat.le_of_eq (htags p hin)
  · intro a
    show ofAnswer a d.air <+: ofAnswer a (d.given ++ xs)
    rw [ofAnswer_append]
    exact (h.front a).trans (List.prefix_append _ _)

theorem Plays.commit (h : Plays s d) (hflush : d.flush = false) {xs : List (ℕ × F)}
    (hroom : xs.length ≤ d.playback.writable) :
    Plays s { d with
      playback := (d.playback.fill xs).commitWrite xs.length, given := d.given ++ xs } := by
  obtain ⟨hsound, hcontents⟩ := Ring.commitWrite_sound h.sound hroom
  have hplaying : ¬s.Drops := fun hdrops => by
    simp [h.drops hdrops] at hflush
  refine ⟨hsound, h.heard, fun n ys hs => ?_, h.drops, ?_, ?_⟩
  · obtain ⟨hsome, hprefix, hreadable⟩ := h.chunk n ys hs
    refine ⟨hsome, ?_, Nat.le_trans hreadable (Ring.readable_commitWrite h.sound hroom)⟩
    show ys <+: ((d.playback.fill xs).commitWrite xs.length).contents
    rw [hcontents]
    exact hprefix.trans (List.prefix_append _ _)
  · rintro n rfl
    exact absurd trivial hplaying
  · rintro (⟨n, rfl⟩ | rfl)
    · exact absurd trivial hplaying
    · exact absurd trivial hplaying

theorem Quiet.same (h : Quiet s d) (hplayback : d'.playback = d.playback) : Quiet s d' :=
  ⟨hplayback ▸ h.contents, h.late⟩

theorem Look.Holds.same (h : l.Holds s d) (hplayback : d'.playback = d.playback)
    (hanswering : d'.context.answering = d.context.answering) (hheard : d'.heard = d.heard)
    (hconsumed : d'.consumed = d.consumed) : l.Holds s d' := by
  cases l with
  | ended => exact hanswering.trans h
  | saw consumed => exact ⟨hanswering.trans h.1, by rw [hconsumed]; exact h.2⟩
  | still => exact ⟨hanswering.trans h.1, h.2.same hplayback⟩
  | closing => exact ⟨hanswering.trans h.1, h.2.same hplayback⟩
  | told heard => exact ⟨hanswering.trans h.1, h.2.1.same hplayback, h.2.2.trans hheard.symm⟩
  | _ => trivial

/-- The writer goes on with its frame. -/
theorem Held.inside (h : Held frames s w l d) (hin : w.Inside) (hin' : w'.Inside)
    (hmutex : d'.mutex = d.mutex) (hplays : Plays s d') (haccounts : Accounts s w' d')
    (hfiled : Filed d') (hflush : d'.flush = true → ∃ e, w' = .raised e) (hhand : w'.Holds s d')
    (hcurrent : d'.current = d.current) (htaken : d'.taken = d.taken)
    (hcoming : d'.coming = d.coming) (hevent : w'.event = w.event)
    (hnear : Near (w'.seen d') d'.context) : Held frames s w' l d' := by
  obtain rfl := h.apart hin
  refine ⟨?_, hplays, haccounts, hfiled, hflush, hhand, trivial, ?_, ?_, hnear⟩
  · rw [hmutex, ← update_writer (w := w)]
    have hinside : Stand.Inside (.writer w') ↔ Stand.Inside (standing s w .away .writer) :=
      iff_of_true hin' hin
    exact h.mutex.keep hinside
  · unfold Desk.Takes
    rw [hevent, hcurrent]
    exact h.takes
  · rw [htaken, hcurrent, hcoming]
    exact h.frames

/-- The flush is down unless the writer waits for it. -/
theorem Held.down (h : Held frames s w l d) (hw : ∀ e, w ≠ .raised e) : d.flush = false := by
  cases hflush : d.flush with
  | false => rfl
  | true =>
    obtain ⟨e, he⟩ := h.flush hflush
    exact absurd he (hw e)

/-- The writer goes on, and the process stays as it is. -/
theorem Held.thinks (h : Held frames s w l d) (hin : w.Inside) (hin' : w'.Inside)
    (hfilled : w'.filled = w.filled)
    (hending : d.context.answering = true → ¬w'.Ending → ¬w.Ending)
    (hw : d.flush = false ∨ ∃ e, w' = .raised e) (hhand : w'.Holds s d)
    (hevent : w'.event = w.event) (hnear : Near (w'.seen d) d.context) :
    Held frames s w' l d :=
  h.inside hin hin' rfl h.plays
    (h.accounts.passes rfl rfl rfl rfl rfl rfl rfl rfl (by rw [hfilled]) hending) h.filed
    (fun hflush => hw.resolve_left (by simp [hflush])) hhand rfl rfl rfl hevent hnear

/-- The event in hand is written down, and nothing but the context changes. -/
theorem Held.settles (h : Held frames s w l d) {context : Context} (hin : w.Inside)
    (hw : ∀ e, w ≠ .raised e) (hevent : w.event = some e)
    (haccounts : Accounts s (.settled e) { d with context := context })
    (hfiled : Filed { d with context := context })
    (hnear : ∀ f decoded, arrives f decoded = some e → Near (d.taken ++ [f]) context) :
    Held frames s (.settled e) l { d with context := context } := by
  have hdown := h.down hw
  have htakes := h.takes
  rw [hevent] at htakes
  obtain ⟨f, decoded, hcurrent, harrives⟩ := htakes
  refine h.inside hin trivial rfl (h.plays.same rfl rfl rfl id) haccounts hfiled
    (fun hflush => absurd (hflush.symm.trans hdown) (by simp)) trivial rfl rfl rfl hevent.symm ?_
  show Near (d.taken ++ d.current.toList) _
  rw [hcurrent]
  exact hnear f decoded harrives

/-- **Where an answer is opened nothing sounds**: nothing was queued of the one before. -/
theorem Held.silent (h : Held frames s (.holding .created) l d) (hplayable : Playable frames)
    (hanswering : d.context.answering = true) : Quiet s d := by
  obtain ⟨f, decoded, hcurrent, harrives⟩ := h.takes
  have hcreated : f = .created := by
    cases f with
    | created => rfl
    | audio pcm =>
      simp only [arrives] at harrives
      split_ifs at harrives
      cases harrives
    | _ => cases harrives
  subst hcreated
  have hframes := h.frames
  rw [hcurrent, Option.toList_some, List.append_assoc, List.singleton_append] at hframes
  have hear := hplayable _ _ hframes.symm
  obtain ⟨sounding, hhearing, hqueued⟩ := h.near hanswering
  have hnone : d.context.queued = 0 := by
    by_contra hsome
    rw [hqueued hsome] at hhearing
    exact hear hhearing
  have hqueue := h.accounts.queue hanswering
  have hbase := h.accounts.base hanswering
  rw [hnone] at hqueue
  change d.consumed + s.late + d.playback.contents.length = d.context.consumedBase + 0 + 0 at hqueue
  constructor
  · exact List.length_eq_zero_iff.1 (by omega)
  · omega

/-- The answer is asked for. -/
theorem Held.asks (h : Held frames s (.holding e) l d) (hplayable : Playable frames)
    (hcancelled : e ≠ .cancelled) :
    Held frames s ((Hand.holding e).asked d.context.answering) l d := by
  have hdown := h.down (by simp)
  cases hanswering : d.context.answering with
  | false =>
    have hshut : Near d.taken d.context := near_of_shut hanswering
    have hshut' : Near (d.taken ++ d.current.toList) d.context := near_of_shut hanswering
    cases e with
    | created =>
      exact h.thinks trivial trivial rfl (fun _ => id) (.inl hdown) hanswering rfl hshut
    | cancelled => exact absurd rfl hcancelled
    | _ => exact h.thinks trivial trivial rfl (fun _ => id) (.inl hdown) trivial rfl hshut'
  | true =>
    cases e with
    | created =>
      exact h.thinks trivial trivial rfl (fun _ hnot => absurd trivial hnot) (.inl hdown)
        ⟨h.silent hplayable hanswering, hanswering⟩ rfl h.near
    | audio pcm =>
      exact h.thinks trivial trivial rfl (fun _ => id) (.inl hdown) hanswering rfl h.near
    | cancelled => exact absurd rfl hcancelled
    | _ => exact h.thinks trivial trivial rfl (fun _ => id) (.inl hdown) trivial rfl h.near

/-- Behind a frame the context has taken it. -/
theorem Held.after (h : Held frames s w l d) (hdone : w.Done) :
    Near (d.taken ++ d.current.toList) d.context := by
  have hcurrent := h.takes
  have hnear := h.near
  have hhand := h.hand
  cases w with
  | settled e => exact hnear
  | shut e => exact near_of_shut hhand
  | holding e =>
    obtain ⟨f, decoded, hcurrent, harrives⟩ := hcurrent
    rw [hcurrent]
    cases e with
    | speechStarted => exact hdone.elim
    | created => exact hdone.elim
    | cancelled => exact hdone.elim
    | _ => exact hnear.snoc harrives id (by simp)
  | _ => exact hdone.elim

/-- The writer is done with its frame. -/
theorem Held.unlock (h : Held frames s w l d) (hdone : w.Done) :
    Held frames s .away l
      { d with taken := d.taken ++ d.current.toList, current := none, mutex := none } := by
  have hplain : w.Inside ∧ w.filled = 0 ∧ ¬w.Ending ∧ ∀ e, w ≠ .raised e := by
    cases w <;> first | exact hdone.elim | exact ⟨trivial, rfl, id, by simp⟩
  obtain ⟨hin, hfilled, hending, hw⟩ := hplain
  have hdown := h.down hw
  obtain rfl := h.apart hin
  refine ⟨?_, h.plays.same rfl rfl rfl id,
    h.accounts.passes rfl rfl rfl rfl rfl rfl rfl rfl (by rw [hfilled]; rfl) fun _ _ => hending,
    h.filed.same rfl rfl rfl rfl rfl rfl,
    fun hflush => absurd (hflush.symm.trans hdown) (by simp), trivial, trivial, rfl, ?_,
    h.after hdone⟩
  · have hinside : Stand.Inside (standing s w .away .writer) := hin
    rw [← update_writer (w := w)]
    exact h.mutex.give hinside id
  · have hframes := h.frames
    simpa using hframes

/-- **A step of the writer keeps what holds.** -/
theorem Held.writer (h : Held frames s w l d) (hplayable : Playable frames)
    (hmove : w.Move d w' d') : Held frames s w' l d' := by
  cases hmove with
  | @event _ f coming decoded e hcoming harrives =>
    have hframes := h.frames
    have hnone : d.current = none := h.takes
    have hdown := h.down (by simp)
    refine ⟨?_, h.plays.same rfl rfl rfl id,
      h.accounts.passes rfl rfl rfl rfl rfl rfl rfl rfl rfl fun _ => id,
      h.filed.same rfl rfl rfl rfl rfl rfl, fun hflush => ?_, trivial,
      h.look.same rfl rfl rfl rfl, ⟨f, decoded, rfl, harrives⟩, ?_, h.near⟩
    · rw [← update_writer (w := .away)]
      exact h.mutex.keep (i := .writer) (s := .writer (.took e)) Iff.rfl
    · exact absurd (hflush.symm.trans hdown) (by simp)
    · rw [hnone, hcoming] at hframes
      simpa using hframes
  | @lock _ e hfree =>
    have hdown := h.down (by simp)
    have hmutex := h.mutex
    rw [hfree] at hmutex
    refine ⟨?_, h.plays.same rfl rfl rfl id,
      h.accounts.passes rfl rfl rfl rfl rfl rfl rfl rfl rfl fun _ => id,
      h.filed.same rfl rfl rfl rfl rfl rfl, fun hflush => ?_, trivial,
      h.look.same rfl rfl rfl rfl, h.takes, h.frames, h.near⟩
    · rw [← update_writer (w := .took e)]
      have hinside : Stand.Inside (.writer (.holding e)) := trivial
      exact hmutex.take hinside
    · exact absurd (hflush.symm.trans hdown) (by simp)
  | asks hbeside hcancelled => exact h.asks hplayable hcancelled
  | @asksStill _ e =>
    have hdown := h.down (by simp)
    cases hanswering : d.context.answering with
    | false =>
      exact h.thinks trivial trivial rfl
        (fun hopen => absurd (hopen.symm.trans hanswering) (by simp)) (.inl hdown) hanswering rfl
        (near_of_shut hanswering)
    | true =>
      exact h.thinks trivial trivial rfl (fun _ => id) (.inl hdown) ⟨h.hand, hanswering⟩ rfl h.near
  | @raise _ _ e hs =>
    have hin : w.Inside := by
      rcases hs with rfl | rfl <;> trivial
    refine h.inside hin trivial rfl (h.plays.same rfl rfl rfl fun _ => rfl)
      (h.accounts.passes rfl rfl rfl rfl rfl rfl rfl rfl ?_ fun _ hnot => absurd trivial hnot)
      (h.filed.same rfl rfl rfl rfl rfl rfl) (fun _ => ⟨e, rfl⟩)
      (fun hdown => Bool.noConfusion hdown) rfl rfl rfl ?_ ?_
    · rcases hs with rfl | rfl <;> rfl
    · rcases hs with rfl | rfl <;> rfl
    · rcases hs with rfl | rfl <;> exact h.near
  | await hflush =>
    exact h.thinks trivial trivial rfl (fun _ => id) (.inl hflush) (h.hand hflush) rfl h.near
  | hears =>
    have hdown := h.down (by simp)
    exact h.thinks trivial trivial rfl (fun _ => id) (.inl hdown) ⟨h.hand.1, h.hand.2, rfl⟩ rfl
      h.near
  | @close _ e heard =>
    have hdown := h.down (by simp)
    obtain ⟨hquiet, hanswering, rfl⟩ := h.hand
    exact h.inside trivial trivial rfl (h.plays.same rfl rfl rfl id) (h.accounts.close hquiet)
      (h.filed.close h.plays h.accounts hquiet hanswering rfl (by simp))
      (fun hflush => absurd (hflush.symm.trans hdown) (by simp)) rfl rfl rfl rfl rfl
      (near_of_shut rfl)
  | opening =>
    have hdown := h.down (by simp)
    exact h.thinks trivial trivial rfl (fun _ => id) (.inl hdown) ⟨h.hand, rfl⟩ rfl h.near
  | opened =>
    have hdown := h.down (by simp)
    exact h.thinks trivial trivial rfl (fun _ => id) (.inl hdown) ⟨h.hand.1, h.hand.2, rfl⟩ rfl
      h.near
  | opens =>
    have hdown := h.down (by simp)
    obtain ⟨hanswering, rfl, rfl⟩ := h.hand
    obtain ⟨f, decoded, hcurrent, harrives⟩ := h.takes
    refine h.inside trivial trivial rfl (h.plays.same rfl rfl rfl id)
      (h.accounts.opens h.plays hanswering rfl) h.filed.opens
      (fun hflush => absurd (hflush.symm.trans hdown) (by simp)) trivial rfl rfl rfl rfl ?_
    show Near (d.taken ++ d.current.toList) _
    rw [hcurrent]
    exact near_created harrives rfl
  | @unit _ delta textEnd u =>
    exact h.settles trivial (by simp) rfl
      (h.accounts.passes rfl rfl rfl rfl rfl rfl rfl rfl rfl fun _ => id)
      (h.filed.same rfl rfl rfl rfl rfl rfl)
      fun f decoded harrives => (h.near.same rfl rfl).snoc harrives id (by simp)
  | @acquire _ pcm n m =>
    have hdown := h.down (by simp)
    by_cases hzero : d.playback.acquireWrite m = 0
    · have hfull : (Hand.filling pcm n).offered m (d.playback.acquireWrite m) = .filling pcm n :=
        if_pos hzero
      rw [hfull]
      exact h
    · have hroom : (Hand.filling pcm n).offered m (d.playback.acquireWrite m) =
          .room pcm n (d.playback.acquireWrite m) m := if_neg hzero
      rw [hroom]
      exact h.thinks trivial trivial rfl (fun _ => id) (.inl hdown)
        ⟨h.hand, Nat.min_le_left _ _, Nat.min_le_right _ _⟩ rfl h.near
  | @commit _ pcm n k m xs hxs htags =>
    have hdown := h.down (by simp)
    obtain ⟨hanswering, hk, hroom⟩ := h.hand
    have hlength : xs.length = k := by omega
    exact h.inside trivial trivial rfl (h.plays.commit hdown (by omega))
      (h.accounts.commit h.plays hanswering id (by omega) htags (congrArg (n + ·) hlength.symm))
      (h.filed.more hanswering [] xs (by simp) htags (List.append_nil _).symm rfl rfl rfl rfl)
      (fun hflush => absurd (hflush.symm.trans hdown) (by simp)) hanswering rfl rfl rfl rfl h.near
  | @queued _ pcm n =>
    exact h.settles trivial (by simp) rfl
      (h.accounts.passes rfl rfl rfl rfl rfl rfl rfl rfl rfl fun _ => id)
      (h.filed.same rfl rfl rfl rfl rfl rfl)
      fun f decoded harrives => near_audio h.near harrives rfl
  | @user _ item text =>
    exact h.settles trivial (by simp) rfl
      (h.accounts.passes rfl rfl rfl rfl rfl rfl rfl rfl rfl fun _ => id)
      (h.filed.same rfl rfl rfl rfl rfl (assistants_user d.context item text))
      fun f decoded harrives => (h.near.same rfl rfl).snoc harrives id (by simp)
  | done =>
    exact h.settles trivial (by simp) rfl
      (h.accounts.passes rfl rfl rfl rfl rfl rfl rfl rfl rfl fun _ => id)
      (h.filed.same rfl rfl rfl rfl rfl rfl)
      fun f decoded harrives => (h.near.same rfl rfl).snoc harrives id (by simp)
  | unlock hdone => exact h.unlock hdone

/-! ### The reader -/

/-- The reader goes on. -/
theorem Held.reads (h : Held frames s w l d) (hin : l ≠ .away) (hin' : l' ≠ .away)
    (hlook : l'.Holds s d) : Held frames s w l' d := by
  refine ⟨?_, h.plays, h.accounts, h.filed, h.flush, h.hand, hlook, h.takes, h.frames, h.near⟩
  have hinside : Stand.Inside (.reader l' : Stand F) ↔ Stand.Inside (standing s w l .reader) :=
    iff_of_true hin' hin
  rw [← update_reader (l := l)]
  exact h.mutex.keep hinside

/-- The writer is not at its frame while the reader is inside. -/
theorem Hand.plain (h : ¬w.Inside) : w.filled = 0 ∧ ¬w.Ending ∧ w.Holds s d ∧
    w.seen d = d.taken ∧ ∀ e, w ≠ .raised e := by
  cases w <;> first | exact absurd trivial h | exact ⟨rfl, id, trivial, rfl, by simp⟩

/-- **An answer whose last sample was consumed is over**: nothing of it sounds any more. -/
theorem Held.ended (h : Held frames s w (.saw consumed) d)
    (hplayed : d.context.played consumed = true) : d.context.answering = true ∧ Quiet s d := by
  obtain ⟨hanswering, hconsumed⟩ := h.look
  obtain ⟨hfilled, -⟩ := Hand.plain (s := s) (d := d) (h.outside (by simp))
  have hbase := h.accounts.base hanswering
  have hqueue := h.accounts.queue hanswering
  rw [hfilled] at hqueue
  have hqueued : d.context.queued ≤ consumed - d.context.consumedBase := by
    simpa [Context.played] using hplayed
  refine ⟨hanswering, ?_, ?_⟩
  · exact List.length_eq_zero_iff.1 (by omega)
  · omega

/-- Two states that differ in nothing that is held. -/
structure Desk.Alike (d d' : Desk F) : Prop where
  playback : d'.playback = d.playback
  flush : d'.flush = d.flush
  heard : d'.heard = d.heard
  consumed : d'.consumed = d.consumed
  context : d'.context = d.context
  current : d'.current = d.current
  taken : d'.taken = d.taken
  coming : d'.coming = d.coming
  answer : d'.answer = d.answer
  given : d'.given = d.given
  air : d'.air = d.air
  closings : d'.closings = d.closings

theorem Hand.Holds.alike (h : w.Holds s d) (hd : d.Alike d') : w.Holds s d' := by
  have hanswering := congrArg Context.answering hd.context
  cases w with
  | raised e => exact fun hflush => (h (hd.flush.symm.trans hflush)).same hd.playback
  | still e => exact Quiet.same h hd.playback
  | closing e => exact ⟨h.1.same hd.playback, hanswering.trans h.2⟩
  | told e heard =>
    exact ⟨h.1.same hd.playback, hanswering.trans h.2.1, h.2.2.trans hd.heard.symm⟩
  | shut e => exact hanswering.trans h
  | opening heard => exact ⟨hanswering.trans h.1, h.2.trans hd.heard.symm⟩
  | opened heard consumed =>
    exact ⟨hanswering.trans h.1, h.2.1.trans hd.heard.symm, h.2.2.trans hd.consumed.symm⟩
  | filling pcm n => exact hanswering.trans h
  | room pcm n k m => exact ⟨hanswering.trans h.1, h.2.1, by rw [hd.playback]; exact h.2.2⟩
  | _ => trivial

/-- What holds does not rest on the rest of the process. -/
theorem Held.alike (h : Held frames s w l d) (hd : d.Alike d')
    (hmutex : Guards Stand.Inside d'.mutex (standing s w l')) (hlook : l'.Holds s d') :
    Held frames s w l' d' := by
  refine ⟨hmutex, h.plays.same hd.playback hd.heard hd.air hd.flush.trans,
    h.accounts.passes hd.playback hd.consumed hd.answer hd.air hd.given (by rw [hd.context])
      (by rw [hd.context]) (by rw [hd.context]) (by rw [hd.context]) fun _ => id,
    h.filed.same hd.closings hd.answer hd.air hd.given (by rw [hd.context]) (by rw [hd.context]),
    fun hflush => h.flush (hd.flush.symm.trans hflush), h.hand.alike hd, hlook, ?_, ?_, ?_⟩
  · unfold Desk.Takes
    rw [hd.current]
    exact h.takes
  · rw [hd.taken, hd.current, hd.coming]
    exact h.frames
  · have hseen : w.seen d' = w.seen d := by
      unfold Hand.seen
      rw [hd.taken, hd.current]
    rw [hseen, hd.context]
    exact h.near

/-- **A step of the reader keeps what holds.** -/
theorem Held.reader (h : Held frames s w l d) (hmove : l.Move d l' d') :
    Held frames s w l' d' := by
  cases hmove with
  | aside capture sent =>
    exact h.alike ⟨rfl, rfl, rfl, rfl, rfl, rfl, rfl, rfl, rfl, rfl, rfl, rfl⟩ h.mutex trivial
  | lock hfree =>
    have hmutex := h.mutex
    rw [hfree] at hmutex
    refine h.alike ⟨rfl, rfl, rfl, rfl, rfl, rfl, rfl, rfl, rfl, rfl, rfl, rfl⟩ ?_ trivial
    have hinside : Stand.Inside (.reader .holding : Stand F) := by simp [Stand.Inside]
    rw [← update_reader (l := .away)]
    exact hmutex.take hinside
  | ended =>
    cases hover : d.context.answering && d.context.answerDone with
    | false => exact h.reads (by simp) (by simp) trivial
    | true =>
      have hanswering : d.context.answering = true := by simp_all
      exact h.reads (by simp) (by simp) hanswering
  | consumed =>
    exact h.reads (by simp) (by simp) ⟨h.look, Nat.le_refl _⟩
  | @played _ consumed =>
    cases hplayed : d.context.played consumed with
    | false => exact h.reads (by simp) (by simp) trivial
    | true => exact h.reads (by simp) (by simp) (h.ended hplayed)
  | asks =>
    have hanswering := h.look.1
    rw [hanswering]
    exact h.reads (by simp) (by simp) h.look
  | hears => exact h.reads (by simp) (by simp) ⟨h.look.1, h.look.2, rfl⟩
  | @close _ heard =>
    obtain ⟨hanswering, hquiet, rfl⟩ := h.look
    have hout := h.outside (by simp)
    obtain ⟨hfilled, hending, -, -, hw⟩ := Hand.plain (s := s) (d := d) hout
    obtain ⟨-, -, hhand, hseen, -⟩ := Hand.plain (s := s) (d := d.close d.heard true) hout
    have hdown := h.down hw
    refine ⟨?_, h.plays.same rfl rfl rfl id, h.accounts.close hquiet,
      h.filed.close h.plays h.accounts hquiet hanswering hfilled fun _ => hending,
      fun hflush => absurd (hflush.symm.trans hdown) (by simp), hhand, trivial, h.takes, h.frames,
      near_of_shut rfl⟩
    have hinside : Stand.Inside (.reader .shut : Stand F) ↔
        Stand.Inside (standing s w (.told d.heard) .reader) := by
      simp [Stand.Inside, standing]
    rw [← update_reader (l := .told d.heard)]
    exact h.mutex.keep hinside
  | swap =>
    exact h.alike ⟨rfl, rfl, rfl, rfl, rfl, rfl, rfl, rfl, rfl, rfl, rfl, rfl⟩ h.mutex trivial
  | unlock =>
    refine h.alike ⟨rfl, rfl, rfl, rfl, rfl, rfl, rfl, rfl, rfl, rfl, rfl, rfl⟩ ?_ trivial
    have hinside : Stand.Inside (standing s w .shut .reader) := by
      simp [Stand.Inside, standing]
    have hout : ¬Stand.Inside (.reader .away : Stand F) := by simp [Stand.Inside]
    rw [← update_reader (l := .shut)]
    exact h.mutex.give hinside hout

end Steps

end Cli
end S2S
