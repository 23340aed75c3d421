/-
# The echo canceller behind the voice loop

The voice loop of `src/tools/s2s-cli.cpp` with echo cancellation on, and the
connection of `src/src/s2s-conversation.cpp` that takes its frames: the update
that asks for a canceller, and then the frames of the microphone, with a reference
or, where nothing was played, without one.

The hops that the canceller is handed are those of two streams, and what stands
at one place of them are a sample of the microphone and the one played at its
instant (`cancelled_of_reaches`).
-/

import S2S.Cli.Capture
import S2S.Cli.Heard
import S2S.Echo.Aligned

namespace S2S
namespace Cli

open Json Agent Thread Conversation Client

variable {F A : Type}

/-- What a frame of the process is to the canceller; `q` is what becomes of a sample on its way, as
`PCM16`. -/
def toCanceller (q : F → F) : Sent F → Option (Echo.Event F A)
  | .append audio reference => some (.append (audio.map q) ((reference.getD []).map q))
  | .history _ => none

section Frames

variable [Zero F] [Add F] [Mul F] (tap : ℕ → ℕ → ℕ → ℕ → F) (canceller : Echo.Canceller F A)

/-- The frames that a connection takes, one after the other, with what its canceller was given. -/
def takeFrames : Echo.Connection F A → Echo.Heard F → List (Echo.Event F A) →
    Except Resample.Fault (Echo.Connection F A × Echo.Heard F)
  | conn, heard, [] => .ok (conn, heard)
  | conn, heard, event :: rest => do
    let (conn', report) ← Echo.connFrame tap canceller conn event
    takeFrames conn' (heard.next conn event report) rest

/-- One computation after another. -/
theorem of_bind {ε α β : Type} {m : Except ε α} {f : α → Except ε β} {b : β}
    (h : m >>= f = .ok b) : ∃ a, m = .ok a ∧ f a = .ok b := by
  cases m with
  | error e => cases h
  | ok a => exact ⟨a, rfl, h⟩

/-- A canceller stays on. -/
theorem isSome_connAppend {conn conn' : Echo.Connection F A} {audio reference : List F}
    {report : Echo.Report F}
    (h : Echo.connAppend canceller audio reference conn = .ok (conn', report)) :
    conn'.aec.isSome = conn.aec.isSome := by
  obtain ⟨⟨mic, resampled⟩, -, hrest⟩ := of_bind h
  cases haec : conn.aec with
  | none =>
    simp only [haec] at hrest
    cases hrest
    rfl
  | some aec =>
    simp only [haec] at hrest
    obtain ⟨⟨ref, played⟩, -, hcancel⟩ := of_bind hrest
    obtain ⟨p, -, hp⟩ := of_bind hcancel
    cases hp
    rfl

variable {tap canceller} {conn : Echo.Connection F A} {heard : Echo.Heard F}

/-- **Frames of audio keep a canceller in step**, and it is given all of them. -/
theorem takeFrames_appends (haligned : Echo.Aligned tap canceller conn heard)
    (frames : List (List F × List F)) :
    ∃ conn' heard', takeFrames tap canceller conn heard
        (frames.map fun f => .append f.1 f.2) = .ok (conn', heard') ∧
      Echo.Aligned tap canceller conn' heard' ∧ conn'.aec.isSome = conn.aec.isSome ∧
      heard'.audio = heard.audio ++ frames.flatMap Prod.fst ∧
      heard'.played = heard.played ++ frames.flatMap fun f => Echo.playedPcm f.1 f.2 := by
  induction frames generalizing conn heard with
  | nil => exact ⟨conn, heard, rfl, haligned, rfl, by simp, by simp⟩
  | cons f frames ih =>
    obtain ⟨conn', report, hrun, hnext, -⟩ := Echo.connAppend_aligned haligned f.1 f.2
    obtain ⟨conn'', heard'', hrest, hend, hon, haudio, hplayed⟩ := ih hnext
    refine ⟨conn'', heard'', ?_, hend, hon.trans (isSome_connAppend canceller hrun), ?_, ?_⟩
    · rw [List.map_cons, takeFrames, Echo.connFrame, hrun]
      exact hrest
    · rw [haudio, List.flatMap_cons, ← List.append_assoc]
      rfl
    · rw [hplayed, List.flatMap_cons, ← List.append_assoc]
      rfl

end Frames

/-! ### A frame of the microphone -/

section Reference

variable [Zero F] [DecidableEq F] {q : F → F}

/-- The microphone and the reference of a frame as they arrive. -/
def arriving (q : F → F) (pairs : List (F × F)) : List F × List F :=
  (pairs.map (q ∘ Prod.fst),
    if pairs.any fun p => decide (p.2 ≠ 0) then pairs.map (q ∘ Prod.snd) else [])

theorem toCanceller_appendOf (pairs : List (F × F)) :
    toCanceller (A := A) q (appendOf true pairs) =
      some (.append (arriving q pairs).1 (arriving q pairs).2) := by
  unfold appendOf arriving toCanceller
  rw [Bool.true_and]
  split_ifs <;> simp

/-- **A reference that is not there is silence.** -/
theorem playedPcm_arriving (hq : q 0 = 0) (pairs : List (F × F)) :
    Echo.playedPcm (arriving q pairs).1 (arriving q pairs).2 = pairs.map (q ∘ Prod.snd) := by
  unfold arriving Echo.playedPcm
  by_cases hplayed : (pairs.any fun p => decide (p.2 ≠ 0)) = true
  · rw [if_pos hplayed]
    simp
  · have hsilent : ∀ p ∈ pairs, p.2 = 0 := by simpa using hplayed
    have hzeros : pairs.map (q ∘ Prod.snd) = List.replicate pairs.length 0 := by
      rw [List.eq_replicate_iff]
      refine ⟨List.length_map .., fun x hx => ?_⟩
      obtain ⟨p, hp, rfl⟩ := List.mem_map.1 hx
      rw [Function.comp_apply, hsilent p hp, hq]
    rw [if_neg hplayed]
    split_ifs with hlength
    · have hnil : pairs = [] := by simpa using hlength.symm
      rw [hnil]
      rfl
    · rw [hzeros]
      simp

/-- The lists of the conversation are nothing to the canceller. -/
theorem filterMap_toCanceller {sent : List (Sent F)} {fs : List (List (F × F))}
    (h : sent.filter Sent.isAppend = fs.map (appendOf true)) :
    sent.filterMap (toCanceller (A := A) q) =
      (fs.map (arriving q)).map fun f => .append f.1 f.2 := by
  have happends : sent.filterMap (toCanceller (A := A) q) =
      (sent.filter Sent.isAppend).filterMap (toCanceller q) := by
    rw [List.filterMap_filter]
    congr 1
    funext frame
    cases frame <;> rfl
  rw [happends, h, List.filterMap_map, List.map_map, ← List.filterMap_eq_map]
  congr 1
  funext pairs
  exact toCanceller_appendOf pairs

end Reference

/-- **The canceller hears both at one instant.**  With echo cancellation on, whatever the order of
the threads: the connection takes the frames it is handed, and what its canceller was given are the
pairs that the callback made, from the first on and each of them once, a sample of the microphone
and the one played at its instant; the hops it handed over are those of the two streams. -/
theorem cancelled_of_reaches [Zero F] [Add F] [Mul F] [DecidableEq F] {tap : ℕ → ℕ → ℕ → ℕ → F}
    {canceller : Echo.Canceller F A} {captureSize playbackSize : ℕ} {frames : List (Frame F)}
    {c : Config Role (Act F) Act.Result (Desk F)} {q : F → F} {patch : Echo.Patch}
    (h : Reaches (cli true captureSize playbackSize frames) c) (hsize : 0 < captureSize)
    (hq : q 0 = 0) (hpatch : patch.echo = ascii "server") (started : A) :
    ∃ opened conn heard pairs, Echo.connOpen tap = .ok opened ∧
      takeFrames tap canceller opened {}
        (.update (some started) patch :: c.mem.sent.filterMap (toCanceller q)) =
          .ok (conn, heard) ∧
      pairs <+: c.mem.periods.flatMap Period.kept ∧ (∀ p ∈ c.mem.periods, p.Paired) ∧
      c.mem.air = c.mem.periods.flatMap Period.out ∧
      heard.audio = pairs.map (q ∘ Prod.fst) ∧ heard.played = pairs.map (q ∘ Prod.snd) ∧
      heard.hops = Echo.hopsOf canceller.hop
        (Echo.resampledBy (Echo.fresh tap) heard.audio)
        (Echo.resampledBy (Echo.fresh tap) heard.played) := by
  obtain ⟨⟨fs, hfs, -, hkept⟩, hpaired, hair⟩ := captured_of_reaches h hsize
  let opened : Echo.Connection F A :=
    { micResample := Echo.fresh tap, refResample := Echo.fresh tap }
  have hchanges : Echo.Changes patch opened := by
    unfold Echo.Changes
    rw [hpatch]
    refine ⟨by decide, ?_⟩
    change ascii "server" ≠ ascii "client"
    decide
  have hon : (Echo.restarted tap (some started) patch).aec.isSome := by
    simp [Echo.restarted, hpatch]
  have hupdate : Echo.connFrame tap canceller opened (.update (some started) patch) =
      .ok (Echo.restarted tap (some started) patch, none) := by
    rw [Echo.connFrame, Echo.connApplyEcho_eq hchanges]
    rfl
  have hstart : Echo.Heard.next {} opened (.update (some started) patch) none = {} :=
    if_pos hchanges
  obtain ⟨conn, heard, htaken, haligned, hstays, haudio, hplayed⟩ :=
    takeFrames_appends (Echo.aligned_start (c := canceller) rfl rfl rfl rfl :
      Echo.Aligned tap canceller (Echo.restarted tap (some started) patch) {})
      (fs.map (arriving q))
  refine ⟨opened, conn, heard, fs.flatten, Echo.connOpen_eq, ?_, hkept, hpaired, hair, ?_, ?_,
    haligned.hops (hstays.symm ▸ hon)⟩
  · rw [takeFrames, hupdate, filterMap_toCanceller hfs]
    change takeFrames tap canceller _ (Echo.Heard.next {} opened _ none) _ = _
    rw [hstart]
    exact htaken
  · rw [haudio, List.flatMap_map, List.map_flatten, List.nil_append, List.flatMap_def]
    rfl
  · rw [hplayed, List.flatMap_map, List.map_flatten, List.nil_append, List.flatMap_def]
    simp only [playedPcm_arriving hq]

/-! ### A frame on its way -/

/-- The voice loop with echo cancellation, and nothing to say. -/
abbrev silent : System Role (Act ℕ) Act.Input Act.Result (Desk ℕ) := cli true 500 4 []

/-- The microphone hears something, and the reader takes it. -/
def oneFrame : List (Role × ((a : Act ℕ) → a.Input)) :=
  turns (List.replicate frameSamples 1) .callback 7 ++ turns [] .reader 12

theorem oneFrame_isSome : (play silent silent.start oneFrame).isSome = true := by
  decide +kernel

/-- The process once it sent it. -/
def spoken : Config Role (Act ℕ) Act.Result (Desk ℕ) :=
  (play silent silent.start oneFrame).get oneFrame_isSome

/-- A canceller that hands the microphone back. -/
def passes : Echo.Canceller ℕ Unit := ⟨1, Nat.one_pos, fun _ mic _ => ((), .ok mic)⟩

/-- A frame of the microphone while nothing plays. -/
theorem cancelled_silent : ∃ opened conn heard pairs,
    Echo.connOpen (fun _ _ _ k => k) = .ok opened ∧
      takeFrames (fun _ _ _ k => k) passes opened {}
        (.update (some ()) Echo.asks :: spoken.mem.sent.filterMap (toCanceller id)) =
          .ok (conn, heard) ∧
      pairs <+: spoken.mem.periods.flatMap Period.kept ∧
      (∀ p ∈ spoken.mem.periods, p.Paired) ∧
      spoken.mem.air = spoken.mem.periods.flatMap Period.out ∧
      heard.audio = pairs.map (id ∘ Prod.fst) ∧ heard.played = pairs.map (id ∘ Prod.snd) ∧
      heard.hops = Echo.hopsOf passes.hop
        (Echo.resampledBy (Echo.fresh fun _ _ _ k => k) heard.audio)
        (Echo.resampledBy (Echo.fresh fun _ _ _ k => k) heard.played) := by
  have hspoken : Reaches silent spoken := Reaches.start.play (Option.some_get _).symm
  exact cancelled_of_reaches hspoken (by decide) rfl rfl ()

/-- It was sent. -/
example : (spoken.mem.sent.filter Sent.isAppend).length = 1 := by decide +kernel

end Cli
end S2S
