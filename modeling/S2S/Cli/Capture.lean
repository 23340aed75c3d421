/-
# What the engine hears

The way of the microphone through `src/tools/s2s-cli.cpp`: in every period of the
device the callback pairs what the microphone heard with what the loudspeaker
played, sample by sample, and puts the pairs into a ring; the reader takes frames
of them out of it and hands them to the engine, which takes the echo out of the
one with the help of the other.

Whatever the order of the threads, the frames are the pairs that the ring took,
from the first on and each of them once, and a pair is of one instant
(`captured_of_reaches`).
-/

import S2S.Cli.Moves

namespace S2S
namespace Cli

open Json Agent Thread Conversation Client

variable {F : Type}

/-! ### Periods -/

section Periods

/-- What the microphone heard in a period, each sample with the one played at its instant. -/
def Period.pairs [Zero F] (p : Period F) : List (F × F) :=
  p.input.zip (p.out.map Prod.snd ++ List.replicate (p.input.length - p.out.length) 0)

/-- **What holds of a period**: no more is played than the device asked for, and what was kept are
its first pairs. -/
structure Period.Paired [Zero F] (p : Period F) : Prop where
  out : p.out.length ≤ p.input.length
  kept : p.kept <+: p.pairs

@[simp] theorem underWay_snoc (f : Period F → Period F) (ps : List (Period F)) (p : Period F) :
    underWay f (ps ++ [p]) = ps ++ [f p] := by
  simp [underWay]

/-- A frame of audio. -/
def Sent.isAppend : Sent F → Bool
  | .append _ _ => true
  | .history _ => false

end Periods

/-! ### Where the threads stand -/

/-- How far the callback is with a period: what it plays (`playing`), with a chunk acquired
(`chunk`), and what is left of the pairs (`pairing`), with room for `k` of them (`room`). -/
inductive Mic (F : Type)
  | idle
  | playing (input : List F) (out : List (ℕ × F))
  | chunk (input : List F) (out xs : List (ℕ × F))
  | pairing (rest : List (F × F))
  | room (rest : List (F × F)) (k : ℕ)

namespace Mic

/-- The pairs that are left. -/
def rest [Zero F] : Mic F → Option (List (F × F))
  | .playing input out => some (Period.pairs ⟨input, out, []⟩)
  | .pairing rest | .room rest _ => some rest
  | _ => none

/-- When the callback may act. -/
def ok [Zero F] : Mic F → Act F → Prop
  | _, .period | _, .loadFlush | _, .availableRead | _, .seekRead _ | _, .lowerFlush
  | _, .addHeard _ | _, .addConsumed _ => True
  | s, .acquireRead n => ∃ input out, s = .playing input out ∧ n = input.length - out.length
  | s, .commitRead xs => ∃ input out, s = .chunk input out xs
  | s, .acquireCapture n => ∃ rest, s.rest = some rest ∧ n = rest.length
  | s, .commitCapture pairs => ∃ rest k, s = .room rest k ∧ pairs = rest.take k
  | _, _ => False

/-- How far the callback is after an action. -/
def next [Zero F] (s : Mic F) : (a : Act F) → a.Result → Mic F
  | .period, input => .playing input []
  | .acquireRead _, xs =>
    match s with
    | .playing input out => if List.isEmpty xs then s else .chunk input out xs
    | s => s
  | .commitRead _, _ =>
    match s with
    | .chunk input out xs => .playing input (out ++ xs)
    | s => s
  | .acquireCapture _, k =>
    match s.rest with
    | some rest => .room rest k
    | none => s
  | .commitCapture _, _ =>
    match s with
    | .room rest k => .pairing (rest.drop k)
    | s => s
  | _, _ => s

end Mic

/-- How far the reader is with a frame of the microphone: `got` of it so far, with a chunk acquired;
`lost` if nothing came where something was waiting. -/
inductive Take (F : Type)
  | away
  | taking (got : List (F × F))
  | chunk (got xs : List (F × F))
  | lost

/-- An action off the way of the microphone. -/
def Act.Aside : Act F → Prop
  | .period | .acquireRead _ | .commitRead _ | .acquireCapture _ | .commitCapture _ | .connFrame _
  | .acquirePairs _ | .commitPairs _ => False
  | _ => True

namespace Take

/-- When the reader may act. -/
def ok [Zero F] [DecidableEq F] (aec : Bool) : Take F → Act F → Prop
  | .away, .connFrame (.history _) => True
  | .away, a => a.Aside
  | .taking got, .acquirePairs n => n = frameSamples - got.length ∧ got.length < frameSamples
  | .taking got, .connFrame frame => frameSamples ≤ got.length ∧ frame = appendOf aec got
  | .chunk _ xs, .commitPairs pairs => pairs = xs
  | .lost, _ => True
  | _, _ => False

/-- Behind the number of pairs that wait. -/
def counted (n : ℕ) : Take F := if n < frameSamples then .away else .taking []

/-- How far the reader is after an action. -/
def next : Take F → (a : Act F) → a.Result → Take F
  | .away, .pairsAvailable, n => counted n
  | .taking got, .acquirePairs _, xs => if List.isEmpty xs then .lost else .chunk got xs
  | .taking _, .connFrame _, _ => .away
  | .chunk got xs, .commitPairs _, _ => .taking (got ++ xs)
  | s, _, _ => s

end Take

/-- Where a thread stands. -/
inductive Ear (F : Type)
  | callback (s : Mic F)
  | reader (t : Take F)
  | other

/-- **What may come when**, of each thread. -/
def ears [Zero F] [DecidableEq F] (aec : Bool) : Monitor Role (Act F) Act.Result where
  State := Ear F
  ok
    | .callback, .callback s, a => s.ok a
    | .reader, .reader t, a => t.ok aec a
    | .writer, .other, a => a.Aside
    | .user, .other, a => a.Aside
    | _, _, _ => False
  next
    | .callback s, a, r => .callback (s.next a r)
    | .reader t, a, r => .reader (t.next a r)
    | .other, _, _ => .other

/-! ### The programs -/

section Programs

variable [Zero F] [DecidableEq F] {aec : Bool}

theorem heeded_audioDrop (s : Mic F) : Watched (ears aec) .callback (fun _ s' => s' = .callback s)
    (.callback s) (audioDrop : Program F Unit) := by
  refine .act trivial fun flush => .ite (fun _ => ?_) fun _ => .done rfl
  exact .act trivial fun _ => .act trivial fun _ => .act trivial fun _ => .act trivial fun _ =>
    .done rfl

/-- What is played is what the loop gives back. -/
theorem heeded_playLoop (input : List F) (fuel left : ℕ) (out : List (ℕ × F))
    (hleft : left = input.length - out.length) :
    Watched (ears aec) .callback (fun out' s => s = .callback (.playing input out'))
      (.callback (.playing input out)) (playLoop fuel left out) := by
  induction fuel generalizing left out with
  | zero => exact .done rfl
  | succ fuel ih =>
    refine .ite (fun _ => .done rfl) fun _ => .act ⟨input, out, rfl, hleft⟩ fun chunk => ?_
    cases chunk with
    | nil => exact .done rfl
    | cons x xs =>
      refine .act ⟨input, out, rfl⟩ fun _ => ih _ _ ?_
      rw [List.length_append]
      omega

theorem heeded_captureLoop (fuel : ℕ) (pairs : List (F × F)) {s : Mic F}
    (hrest : s.rest = some pairs) :
    Watched (ears aec) .callback (fun _ s => ∃ m, s = .callback m) (.callback s)
      (captureLoop fuel pairs) := by
  induction fuel generalizing pairs s with
  | zero => exact .done ⟨_, rfl⟩
  | succ fuel ih =>
    refine .ite (fun _ => .done ⟨_, rfl⟩) fun _ => .act ⟨pairs, hrest, rfl⟩ fun k => ?_
    have hroom : s.next (.acquireCapture pairs.length) k = .room pairs k := by
      simp only [Mic.next, hrest]
    change Watched (ears aec) .callback _ (.callback (s.next (.acquireCapture pairs.length) k)) _
    rw [hroom]
    exact .ite (fun _ => .done ⟨_, rfl⟩) fun _ => .act ⟨pairs, k, rfl, rfl⟩ fun _ => ih _ rfl

theorem heeded_onAudio (s : Mic F) : Watched (ears aec) .callback (fun _ s => ∃ m, s = .callback m)
    (.callback s) (onAudio : Program F Bool) := by
  refine .act trivial fun input => (heeded_audioDrop _).bind ?_
  rintro - s rfl
  refine (heeded_playLoop input _ _ [] rfl).bind ?_
  rintro out s rfl
  refine .act trivial fun _ => .act trivial fun _ => ?_
  exact (heeded_captureLoop _ _ rfl).bind fun _ s hs => .done hs

/-- The writer is off the way of the microphone. -/
theorem heeded_onEvent : Watched (ears aec) .writer (fun _ s => s = .other) .other
    (onEvent : Program F Bool) := by
  refine watched_onEvent.through (fun s t => (∃ w, s = Stand.writer w) ∧ t = Ear.other) ?_
    ⟨⟨_, rfl⟩, rfl⟩ fun _ _ _ _ ht => ht.2
  rintro - - a ⟨⟨w, rfl⟩, rfl⟩ hok
  refine ⟨?_, fun r => ⟨⟨_, rfl⟩, rfl⟩⟩
  cases a <;> trivial

theorem heeded_closePlayed : Watched (ears aec) .reader (fun _ s => s = .reader .away)
    (.reader .away) (closePlayed : Program F Unit) := by
  refine .act trivial fun ended => .ite (fun _ => ?_) fun _ => .done rfl
  refine .act trivial fun consumed => .act trivial fun played => ?_
  refine .ite (fun _ => ?_) fun _ => .done rfl
  refine .act trivial fun answering => .ite (fun _ => ?_) fun _ => .done rfl
  exact .act trivial fun _ => .act trivial fun _ => .done rfl

theorem heeded_connHistories (outbox : List (List HistoryMessage)) :
    Watched (ears aec) .reader (fun _ s => s = .reader .away) (.reader .away)
      (connHistories outbox : Program F Unit) := by
  induction outbox with
  | nil => exact .done rfl
  | cons messages outbox ih => exact .act trivial fun _ => ih

/-- Once something is lost, everything may come. -/
theorem heeded_lost {α : Type} (p : Program F α) :
    Watched (ears aec) .reader (fun _ s => s = .reader .lost) (.reader .lost) p := by
  induction p with
  | done value => exact .done rfl
  | act a next ih => exact .act trivial fun r => ih r

/-- A frame of the microphone is taken whole. -/
theorem heeded_takePairs (fuel : ℕ) (got : List (F × F))
    (hfuel : frameSamples ≤ fuel + got.length) :
    Watched (ears aec) .reader
      (fun got' s => s = .reader .lost ∨ s = .reader (.taking got') ∧ frameSamples ≤ got'.length)
      (.reader (.taking got)) (takePairs fuel got) := by
  induction fuel generalizing got with
  | zero => exact .done (.inr ⟨rfl, by omega⟩)
  | succ fuel ih =>
    refine .ite (fun hwhole => .done (.inr ⟨rfl, hwhole⟩)) fun hpart => ?_
    refine .act ⟨rfl, by omega⟩ fun chunk => ?_
    cases chunk with
    | nil => exact (heeded_lost _).mono fun _ _ hs => .inl hs
    | cons x xs =>
      refine .act rfl fun _ => ih _ ?_
      rw [List.length_append, List.length_cons]
      omega

theorem heeded_readLoop (aec : Bool) : Watched (ears aec) .reader
    (fun _ s => s = .reader .away ∨ s = .reader .lost) (.reader .away)
    (readLoop aec : Program F Bool) := by
  refine .act trivial fun stop => .act trivial fun stopped => ?_
  refine .ite (fun _ => .act trivial fun _ => .done (.inl rfl)) fun _ => .act trivial fun _ => ?_
  refine heeded_closePlayed.bind ?_
  rintro - s rfl
  refine .act trivial fun outbox => .act trivial fun _ => ?_
  refine (heeded_connHistories outbox).bind ?_
  rintro - s rfl
  refine .act trivial fun available => .ite (fun hfew => .done ?_) fun hmany => ?_
  · exact .inl (congrArg Ear.reader (if_pos hfew))
  · have htaking : Take.next .away .pairsAvailable available = .taking ([] : List (F × F)) :=
      if_neg hmany
    change Watched (ears aec) .reader _ (.reader (Take.next .away .pairsAvailable available)) _
    rw [htaking]
    refine (heeded_takePairs frameSamples [] (by simp)).bind ?_
    rintro pairs s (rfl | ⟨rfl, hwhole⟩)
    · exact (heeded_lost _).mono fun _ _ hs => .inr hs
    · exact .act ⟨hwhole, rfl⟩ fun _ => .done (.inl rfl)

/-- **Every program keeps to what may come when.** -/
def hearing (aec : Bool) (captureSize playbackSize : ℕ) (frames : List (Frame F)) :
    Fit (cli aec captureSize playbackSize frames) (ears (F := F) aec) where
  start
    | .callback => .callback .idle
    | .reader => .reader .away
    | _ => .other
  begins
    | .callback, s => ∃ m, s = .callback m
    | .reader, s => s = .reader .away ∨ s = .reader .lost
    | _, s => s = .other
  starts role := by
    cases role
    · exact ⟨_, rfl⟩
    · rfl
    · exact .inl rfl
    · rfl
  bodies role s hs := by
    cases role with
    | callback =>
      obtain ⟨m, rfl⟩ := hs
      exact (heeded_onAudio m).mono fun _ _ hs _ => hs
    | writer =>
      obtain rfl := hs
      exact heeded_onEvent.mono fun _ _ hs _ => hs
    | reader =>
      rcases hs with rfl | rfl
      · exact (heeded_readLoop aec).mono fun _ _ hs _ => hs
      · exact (heeded_lost _).mono fun _ _ hs _ => .inr hs
    | user =>
      obtain rfl := hs
      exact .act trivial fun _ => .done fun _ => rfl

end Programs

/-! ### The pairs -/

section Pairs

variable [Zero F]

/-- What the callback relies on. -/
def Mic.Holds (d : Desk F) : Mic F → Prop
  | .idle => d.periods = []
  | .playing input out => ∃ ps, d.periods = ps ++ [⟨input, out, []⟩] ∧ out.length ≤ input.length
  | .chunk input out xs =>
    ∃ ps, d.periods = ps ++ [⟨input, out, []⟩] ∧ out.length + xs.length ≤ input.length
  | .pairing rest => ∃ ps p, d.periods = ps ++ [p] ∧ p.kept ++ rest = p.pairs
  | .room rest k => ∃ ps p, d.periods = ps ++ [p] ∧ p.kept ++ rest = p.pairs ∧
      k ≤ rest.length ∧ k ≤ d.capture.writable

omit [Zero F] in
/-- The pairs of a frame that are out of the ring. -/
def Take.got : Take F → List (F × F)
  | .taking got | .chunk got _ => got
  | _ => []

omit [Zero F] in
/-- What the reader relies on. -/
def Take.Holds (d : Desk F) : Take F → Prop
  | .away => True
  | .taking got =>
    got.length ≤ frameSamples ∧ frameSamples ≤ got.length + d.capture.contents.length
  | .chunk got xs => got.length + xs.length ≤ frameSamples ∧
      frameSamples ≤ got.length + d.capture.contents.length ∧
      xs <+: d.capture.contents ∧ xs.length ≤ d.capture.readable
  | .lost => False

/-- **What holds of the way of the microphone.** -/
structure Hears [DecidableEq F] (aec : Bool) (s : Mic F) (t : Take F) (d : Desk F) : Prop where
  sound : d.capture.Sound
  mic : s.Holds d
  take : t.Holds d
  sent : ∃ fs : List (List (F × F)), d.sent.filter Sent.isAppend = fs.map (appendOf aec) ∧
    (∀ f ∈ fs, f.length = frameSamples) ∧
    fs.flatten ++ t.got ++ d.capture.contents = d.periods.flatMap Period.kept
  paired : ∀ p ∈ d.periods, p.Paired
  air : d.air = d.periods.flatMap Period.out

variable [DecidableEq F] {aec : Bool} {s : Mic F} {t : Take F} {d d' : Desk F}

omit [DecidableEq F] in
/-- What is left of the pairs of the period under way. -/
theorem Mic.Holds.left {rest : List (F × F)} (h : s.Holds d) (hrest : s.rest = some rest) :
    ∃ ps p, d.periods = ps ++ [p] ∧ p.kept ++ rest = p.pairs := by
  cases s with
  | playing input out =>
    obtain ⟨ps, hperiods, -⟩ := h
    cases hrest
    exact ⟨ps, _, hperiods, rfl⟩
  | pairing left =>
    cases hrest
    exact h
  | room left k =>
    obtain ⟨ps, p, hperiods, hsplit, -⟩ := h
    cases hrest
    exact ⟨ps, p, hperiods, hsplit⟩
  | _ => cases hrest

omit [Zero F] [DecidableEq F] in
/-- What the reader relies on stays where more is put behind the queue. -/
theorem Take.Holds.more {xs : List (F × F)} (h : t.Holds d)
    (hcontents : d'.capture.contents = d.capture.contents ++ xs)
    (hreadable : d.capture.readable ≤ d'.capture.readable) : t.Holds d' := by
  cases t with
  | away => trivial
  | taking got =>
    obtain ⟨hgot, hwaits⟩ := h
    refine ⟨hgot, ?_⟩
    rw [hcontents, List.length_append]
    omega
  | chunk got ys =>
    obtain ⟨hgot, hwaits, hprefix, hfirst⟩ := h
    refine ⟨hgot, ?_, ?_, Nat.le_trans hfirst hreadable⟩
    · rw [hcontents, List.length_append]
      omega
    · rw [hcontents]
      exact hprefix.trans (List.prefix_append _ _)
  | lost => exact h

/-- A step beside the microphone. -/
theorem Hears.same (h : Hears aec s t d) (hcapture : d'.capture = d.capture)
    (hperiods : d'.periods = d.periods) (hsent : d'.sent = d.sent) (hair : d'.air = d.air) :
    Hears aec s t d' := by
  have hmic : s.Holds d' := by
    have hmic := h.mic
    cases s <;> simpa only [Mic.Holds, hcapture, hperiods] using hmic
  have htake : t.Holds d' := by
    have htake := h.take
    cases t with
    | away => trivial
    | lost => exact htake.elim
    | _ => simpa only [Take.Holds, hcapture] using htake
  refine ⟨?_, hmic, htake, ?_, ?_, ?_⟩
  · rw [hcapture]
    exact h.sound
  · rw [hsent, hcapture, hperiods]
    exact h.sent
  · rw [hperiods]
    exact h.paired
  · rw [hair, hperiods]
    exact h.air

/-- An action off the way of the microphone. -/
theorem Hears.aside {role : Role} {a : Act F} {x : a.Input} {r : a.Result} (h : Hears aec s t d)
    (hexec : exec role a x d = some (r, d')) (haside : a.Aside) : Hears aec s t d' := by
  cases a with
  | event =>
    simp only [exec] at hexec
    split at hexec
    · cases hexec
    · obtain ⟨e, -, he⟩ := Option.map_eq_some_iff.1 hexec
      cases he
      exact h.same rfl rfl rfl rfl
  | lock =>
    simp only [exec] at hexec
    split_ifs at hexec
    cases hexec
    exact h.same rfl rfl rfl rfl
  | unlock =>
    obtain ⟨-, rfl⟩ := exec_inj hexec
    cases role <;> exact h.same rfl rfl rfl rfl
  | awaitFlush =>
    simp only [exec] at hexec
    split_ifs at hexec
    cases hexec
    exact h
  | period => exact haside.elim
  | acquireRead => exact haside.elim
  | commitRead => exact haside.elim
  | acquireCapture => exact haside.elim
  | commitCapture => exact haside.elim
  | connFrame => exact haside.elim
  | acquirePairs => exact haside.elim
  | commitPairs => exact haside.elim
  | _ =>
    obtain ⟨-, rfl⟩ := exec_inj hexec
    exact h.same rfl rfl rfl rfl

/-- A new period begins. -/
theorem Hears.period (h : Hears aec s t d) (input : List F) :
    Hears aec (.playing input []) t { d with periods := d.periods ++ [⟨input, [], []⟩] } := by
  obtain ⟨fs, hfs, hlengths, hkept⟩ := h.sent
  refine ⟨h.sound, ⟨d.periods, rfl, Nat.zero_le _⟩, ?_, ⟨fs, hfs, hlengths, ?_⟩, ?_, ?_⟩
  · have htake := h.take
    cases t <;> exact htake
  · rw [List.flatMap_append]
    simpa using hkept
  · intro p hp
    rcases List.mem_append.1 hp with hin | hin
    · exact h.paired p hin
    · obtain rfl := List.mem_singleton.1 hin
      exact ⟨Nat.zero_le _, List.nil_prefix⟩
  · show d.air = _
    rw [List.flatMap_append, h.air]
    simp

/-- Samples are played. -/
theorem Hears.plays {input : List F} {out xs : List (ℕ × F)}
    (h : Hears aec (.chunk input out xs) t d) (playback : Ring (ℕ × F)) :
    Hears aec (.playing input (out ++ xs)) t { d with
      playback := playback, air := d.air ++ xs,
      periods := underWay (fun p => { p with out := p.out ++ xs }) d.periods } := by
  obtain ⟨ps, hperiods, hlength⟩ := h.mic
  obtain ⟨fs, hfs, hlengths, hkept⟩ := h.sent
  have hpaired := h.paired
  have hair := h.air
  rw [hperiods] at hkept hpaired hair
  rw [hperiods, underWay_snoc]
  have hfits : (out ++ xs).length ≤ input.length := by
    rw [List.length_append]
    exact hlength
  refine ⟨h.sound, ⟨ps, rfl, hfits⟩, ?_, ⟨fs, hfs, hlengths, ?_⟩, ?_, ?_⟩
  · have htake := h.take
    cases t <;> exact htake
  · rw [List.flatMap_append] at hkept ⊢
    exact hkept
  · intro p hp
    rcases List.mem_append.1 hp with hin | hin
    · exact hpaired p (List.mem_append_left _ hin)
    · obtain rfl := List.mem_singleton.1 hin
      exact ⟨hfits, List.nil_prefix⟩
  · show d.air ++ xs = _
    rw [hair, List.flatMap_append, List.flatMap_append]
    simp

/-- Pairs go into the ring. -/
theorem Hears.keeps {rest : List (F × F)} {k : ℕ} (h : Hears aec (.room rest k) t d) :
    Hears aec (.pairing (rest.drop k)) t { d with
      capture := (d.capture.fill (rest.take k)).commitWrite (rest.take k).length,
      periods := underWay (fun p => { p with kept := p.kept ++ rest.take k }) d.periods } := by
  obtain ⟨ps, p, hperiods, hsplit, hk, hroom⟩ := h.mic
  obtain ⟨fs, hfs, hlengths, hkept⟩ := h.sent
  have hpaired := h.paired
  have hair := h.air
  have hlength : (rest.take k).length = k := List.length_take_of_le hk
  have hfits : (rest.take k).length ≤ d.capture.writable := by omega
  obtain ⟨hsound, hcontents⟩ := Ring.commitWrite_sound h.sound hfits
  have hreadable := Ring.readable_commitWrite h.sound hfits
  rw [hperiods] at hkept hpaired hair
  rw [hperiods, underWay_snoc]
  have hwhole : p.kept ++ rest.take k ++ rest.drop k = p.pairs := by
    rw [List.append_assoc, List.take_append_drop]
    exact hsplit
  refine ⟨hsound, ⟨ps, _, rfl, hwhole⟩, h.take.more hcontents hreadable,
    ⟨fs, hfs, hlengths, ?_⟩, ?_, ?_⟩
  · show fs.flatten ++ t.got ++ ((d.capture.fill _).commitWrite _).contents = _
    rw [hcontents, ← List.append_assoc, hkept, List.flatMap_append, List.flatMap_append]
    simp
  · intro q hq
    rcases List.mem_append.1 hq with hin | hin
    · exact hpaired q (List.mem_append_left _ hin)
    · obtain rfl := List.mem_singleton.1 hin
      exact ⟨(hpaired p (by simp)).out, ⟨rest.drop k, hwhole⟩⟩
  · show d.air = _
    rw [hair, List.flatMap_append, List.flatMap_append]
    simp

/-- Pairs are acquired: as long as the frame is not whole, some wait. -/
theorem Hears.acquires {got : List (F × F)} (h : Hears aec s (.taking got) d)
    (hpart : got.length < frameSamples) :
    Hears aec s (Take.next (.taking got) (.acquirePairs (frameSamples - got.length))
      (d.capture.acquireRead (frameSamples - got.length))) d := by
  obtain ⟨hgot, hwaits⟩ := h.take
  have hsome : d.capture.acquireRead (frameSamples - got.length) ≠ [] := by
    rw [Ne, Ring.acquireRead_eq_nil h.sound (by omega), ← List.length_eq_zero_iff]
    omega
  have hchunk : Take.next (.taking got) (.acquirePairs (frameSamples - got.length))
      (d.capture.acquireRead (frameSamples - got.length)) =
        .chunk got (d.capture.acquireRead (frameSamples - got.length)) := by
    cases hxs : d.capture.acquireRead (frameSamples - got.length) with
    | nil => exact absurd hxs hsome
    | cons => rfl
  have hle := Ring.length_acquireRead_le d.capture (frameSamples - got.length)
  have hfirst := Ring.acquireRead_le d.capture (frameSamples - got.length)
  rw [hchunk]
  exact ⟨h.sound, h.mic, ⟨by omega, hwaits, Ring.acquireRead_prefix h.sound _, hfirst⟩,
    h.sent, h.paired, h.air⟩

/-- Pairs are taken out of it. -/
theorem Hears.takes {got xs : List (F × F)} (h : Hears aec s (.chunk got xs) d) :
    Hears aec s (.taking (got ++ xs)) { d with
      capture := d.capture.commitRead xs.length } := by
  obtain ⟨hgot, hwaits, ⟨rest, hrest⟩, hfirst⟩ := h.take
  obtain ⟨fs, hfs, hlengths, hkept⟩ := h.sent
  obtain ⟨hsound, hcontents⟩ := Ring.commitRead_sound h.sound hfirst
  have hroom := Ring.writable_commitRead h.sound hfirst
  rw [← hrest, List.drop_left] at hcontents
  rw [← hrest, List.length_append] at hwaits
  have htaken : Take.Holds { d with capture := d.capture.commitRead xs.length }
      (.taking (got ++ xs)) := by
    show (got ++ xs).length ≤ frameSamples ∧
      frameSamples ≤ (got ++ xs).length + (d.capture.commitRead xs.length).contents.length
    rw [hcontents, List.length_append]
    exact ⟨hgot, by omega⟩
  refine ⟨hsound, ?_, htaken, ⟨fs, hfs, hlengths, ?_⟩, h.paired, h.air⟩
  · have hmic := h.mic
    cases s with
    | room left k =>
      obtain ⟨ps, p, hperiods, hsplit, hk, hfree⟩ := hmic
      exact ⟨ps, p, hperiods, hsplit, hk, Nat.le_trans hfree hroom⟩
    | _ => exact hmic
  · show fs.flatten ++ (got ++ xs) ++ (d.capture.commitRead xs.length).contents = _
    have hwhole : fs.flatten ++ got ++ d.capture.contents = d.periods.flatMap Period.kept := hkept
    rw [← hrest] at hwhole
    rw [hcontents, ← hwhole]
    simp only [List.append_assoc]

/-- A frame goes to the engine. -/
theorem Hears.sends {got : List (F × F)} (h : Hears aec s (.taking got) d)
    (hwhole : frameSamples ≤ got.length) :
    Hears aec s .away { d with sent := d.sent ++ [appendOf aec got] } := by
  obtain ⟨hgot, -⟩ := h.take
  obtain ⟨fs, hfs, hlengths, hkept⟩ := h.sent
  refine ⟨h.sound, ?_, trivial, ⟨fs ++ [got], ?_, ?_, ?_⟩, h.paired, h.air⟩
  · have hmic := h.mic
    cases s <;> exact hmic
  · rw [List.filter_append, hfs, List.map_append]
    rfl
  · intro f hf
    rcases List.mem_append.1 hf with hin | hin
    · exact hlengths f hin
    · obtain rfl := List.mem_singleton.1 hin
      omega
  · have hwhole : fs.flatten ++ got ++ d.capture.contents = d.periods.flatMap Period.kept := hkept
    rw [← hwhole]
    simp [Take.got]

/-- **A step of the callback.** -/
theorem Hears.callback {a : Act F} {x : a.Input} {r : a.Result} (h : Hears aec s t d)
    (hok : s.ok a) (hexec : exec .callback a x d = some (r, d')) : Hears aec (s.next a r) t d' := by
  cases a with
  | period =>
    obtain ⟨-, rfl⟩ := exec_inj hexec
    obtain ⟨rfl, -⟩ := exec_inj hexec
    exact h.period _
  | acquireRead n =>
    obtain ⟨rfl, rfl⟩ := exec_inj hexec
    obtain ⟨input, out, rfl, rfl⟩ := hok
    cases hxs : d.playback.acquireRead (input.length - out.length) with
    | nil => exact h
    | cons y ys =>
      obtain ⟨ps, hperiods, hlength⟩ := h.mic
      have hle := Ring.length_acquireRead_le d.playback (input.length - out.length)
      rw [hxs] at hle
      exact ⟨h.sound, ⟨ps, hperiods, by omega⟩, h.take, h.sent, h.paired, h.air⟩
  | commitRead xs =>
    obtain ⟨-, rfl⟩ := exec_inj hexec
    obtain ⟨input, out, rfl⟩ := hok
    exact h.plays _
  | acquireCapture n =>
    obtain ⟨rfl, rfl⟩ := exec_inj hexec
    obtain ⟨rest, hrest, rfl⟩ := hok
    obtain ⟨ps, p, hperiods, hsplit⟩ := h.mic.left hrest
    have hroom : s.next (.acquireCapture rest.length) (d.capture.acquireWrite rest.length) =
        .room rest (d.capture.acquireWrite rest.length) := by
      simp only [Mic.next, hrest]
    rw [hroom]
    exact ⟨h.sound, ⟨ps, p, hperiods, hsplit, Nat.min_le_left _ _, Nat.min_le_right _ _⟩, h.take,
      h.sent, h.paired, h.air⟩
  | commitCapture pairs =>
    obtain ⟨-, rfl⟩ := exec_inj hexec
    obtain ⟨rest, k, rfl, rfl⟩ := hok
    exact h.keeps
  | loadFlush => exact h.aside hexec trivial
  | availableRead => exact h.aside hexec trivial
  | seekRead => exact h.aside hexec trivial
  | lowerFlush => exact h.aside hexec trivial
  | addHeard => exact h.aside hexec trivial
  | addConsumed => exact h.aside hexec trivial
  | _ => exact hok.elim

/-- **A step of the reader.** -/
theorem Hears.reader {a : Act F} {x : a.Input} {r : a.Result} (h : Hears aec s t d)
    (hok : t.ok aec a) (hexec : exec .reader a x d = some (r, d')) :
    Hears aec s (t.next a r) d' := by
  cases t with
  | away =>
    cases a with
    | connFrame frame =>
      cases frame with
      | append audio reference => exact hok.elim
      | history messages =>
        obtain ⟨-, rfl⟩ := exec_inj hexec
        obtain ⟨fs, hfs, hlengths, hkept⟩ := h.sent
        have hsame : (d.sent ++ [Sent.history messages]).filter Sent.isAppend =
            d.sent.filter Sent.isAppend := by
          simp [List.filter_append, Sent.isAppend]
        refine ⟨h.sound, ?_, trivial, ⟨fs, hsame.trans hfs, hlengths, hkept⟩, h.paired, h.air⟩
        have hmic := h.mic
        cases s <;> exact hmic
    | pairsAvailable =>
      obtain ⟨rfl, rfl⟩ := exec_inj hexec
      have hlength := Ring.contents_length h.sound
      show Hears aec s (Take.counted d.capture.availableRead) d
      unfold Take.counted
      split_ifs with hfew
      · exact h
      · refine ⟨h.sound, h.mic, ⟨Nat.zero_le _, ?_⟩, h.sent, h.paired, h.air⟩
        rw [List.length_nil, hlength]
        omega
    | period => exact hok.elim
    | acquireRead => exact hok.elim
    | commitRead => exact hok.elim
    | acquireCapture => exact hok.elim
    | commitCapture => exact hok.elim
    | acquirePairs => exact hok.elim
    | commitPairs => exact hok.elim
    | _ => exact h.aside hexec trivial
  | taking got =>
    cases a with
    | acquirePairs n =>
      obtain ⟨rfl, rfl⟩ := exec_inj hexec
      obtain ⟨rfl, hpart⟩ := hok
      exact h.acquires hpart
    | connFrame frame =>
      obtain ⟨-, rfl⟩ := exec_inj hexec
      obtain ⟨hwhole, rfl⟩ := hok
      exact h.sends hwhole
    | _ => exact hok.elim
  | chunk got xs =>
    cases a with
    | commitPairs pairs =>
      obtain ⟨-, rfl⟩ := exec_inj hexec
      obtain rfl := hok
      exact h.takes
    | _ => exact hok.elim
  | lost => exact h.take.elim

end Pairs

/-! ### Runs -/

section Runs

variable [Zero F] [DecidableEq F] {aec : Bool} {captureSize playbackSize : ℕ}
  {frames : List (Frame F)} {c : Config Role (Act F) Act.Result (Desk F)}

/-- Where all of them stand. -/
def listening (s : Mic F) (t : Take F) : Role → Ear F
  | .callback => .callback s
  | .reader => .reader t
  | _ => .other

theorem hears_init (hsize : 0 < captureSize) :
    Hears aec .idle .away (.init aec captureSize playbackSize frames) :=
  ⟨Ring.sound_init hsize _, rfl, trivial, ⟨[], rfl, by simp,
    Ring.contents_init captureSize (0, 0)⟩,
    by simp [Desk.init], rfl⟩

/-- **The way of the microphone, in every order of the threads.** -/
theorem hears_of_reaches (hsize : 0 < captureSize)
    (h : Reaches (cli aec captureSize playbackSize frames) c) : ∃ s t, Hears aec s t c.mem := by
  let tie : (Role → Ear F) → Desk F → Prop := fun states d =>
    ∃ s t, states = listening s t ∧ Hears aec s t d
  have htied : Tied (hearing aec captureSize playbackSize frames) tie := by
    refine ⟨⟨.idle, .away, funext fun role => by cases role <;> rfl, hears_init hsize⟩, ?_⟩
    rintro c - states role a x r d next - hok ⟨s, t, rfl, hhears⟩ hexec
    cases role with
    | callback =>
      exact ⟨_, t, funext fun role => by cases role <;> rfl, hhears.callback hok hexec⟩
    | reader =>
      exact ⟨s, _, funext fun role => by cases role <;> rfl, hhears.reader hok hexec⟩
    | writer =>
      exact ⟨s, t, funext fun role => by cases role <;> rfl, hhears.aside hexec hok⟩
    | user =>
      exact ⟨s, t, funext fun role => by cases role <;> rfl, hhears.aside hexec hok⟩
  obtain ⟨-, ⟨s, t, -, hhears⟩, -⟩ := htied.holds h
  exact ⟨s, t, hhears⟩

end Runs

/-- **What the engine hears**: the frames of the microphone it is handed are of so many samples, and
one after the other they are the pairs that the ring took, from the first on; the ring took of every
period its first pairs, each sample of the microphone with the one played at its instant; and what
was played is what the loudspeaker played in those periods, never more than one has room for. -/
theorem captured_of_reaches [Zero F] [DecidableEq F] {aec : Bool} {captureSize playbackSize : ℕ}
    {frames : List (Frame F)} {c : Config Role (Act F) Act.Result (Desk F)}
    (h : Reaches (cli aec captureSize playbackSize frames) c) (hsize : 0 < captureSize) :
    (∃ fs : List (List (F × F)), c.mem.sent.filter Sent.isAppend = fs.map (appendOf aec) ∧
      (∀ f ∈ fs, f.length = frameSamples) ∧
      fs.flatten <+: c.mem.periods.flatMap Period.kept) ∧
    (∀ p ∈ c.mem.periods, p.Paired) ∧ c.mem.air = c.mem.periods.flatMap Period.out := by
  obtain ⟨s, t, hhears⟩ := hears_of_reaches hsize h
  obtain ⟨fs, hfs, hlengths, hkept⟩ := hhears.sent
  refine ⟨⟨fs, hfs, hlengths, ?_⟩, hhears.paired, hhears.air⟩
  rw [← hkept, List.append_assoc]
  exact List.prefix_append _ _

end Cli
end S2S
