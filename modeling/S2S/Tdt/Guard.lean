/-
# The guard of the greedy loop

`max_symbols_per_step` is to bound the emissions at a single frame, but the
counter of `parakeet_tdt_decode` is not of the frame: a blank and a forced
advance reset it, a token with a duration moves on and leaves it.  So a frame
that a row of tokens reaches is left early.

Which answers do that can be read off the answers alone (`Row`): behind a token
with a duration the counter is never reset but by a blank, so the guard is the
one of the frame exactly when every token of duration zero that comes there
comes before the counter is full (`perFrame_iff`).
-/

import S2S.Prefixes
import S2S.Tdt.Decode

namespace S2S
namespace Tdt

open Json

variable {w : DecoderWeights} {sp : SpDetok} {o : Oracle w}

/-- A token of duration zero, at which the loop may be forced on. -/
def Move.Still (m : Move) : Prop := m.token.isSome ∧ m.duration = 0

/-- The loop was forced on: a token of duration zero, and one frame of advance. -/
def Move.Forced (m : Move) : Prop := m.Still ∧ m.next = m.frame + 1

instance (m : Move) : Decidable m.Still := inferInstanceAs (Decidable (_ ∧ _))

instance (m : Move) : Decidable m.Forced := inferInstanceAs (Decidable (_ ∧ _))

/-- All the tokens at a frame. -/
def tokensOf (moves : List Move) (frame : ℕ) : ℕ :=
  moves.countP fun m => m.frame = frame && m.token.isSome

/-- The loop is forced on at a token exactly when it is the last one its frame may have. -/
def Due (w : DecoderWeights) (before : List Move) (m : Move) : Prop :=
  m.Still → (m.Forced ↔ tokensAt before m.frame + 1 = w.perFrame)

/-- **The guard of a frame.**  The loop is forced on exactly at the token that is the last one the
frame may have (`skips`); so where every frame has fewer tokens than that, every token moves as the
model said (`unaltered`). -/
structure PerFrame (w : DecoderWeights) (moves : List Move) : Prop where
  skips : Each (Due w) moves
  unaltered : (∀ frame, (tokensOf moves frame : ℤ) ≤ w.maxSymbols - 1) →
    ∀ m ∈ moves, m.token.isSome → m.next = m.frame + m.duration

/-! ### The answers -/

/-- What a joint step names: a token or the blank, and a duration. -/
structure Answer where
  token : Bool
  duration : ℕ
  deriving DecidableEq

/-- What a joint step of the oracle names. -/
def Oracle.answer (o : Oracle w) (step : ℕ) : Option Answer :=
  (o.joint step).map fun (token, id) => ⟨token ≠ w.blankId, w.durations.get id⟩

/-- What its first steps name. -/
def Oracle.answers (o : Oracle w) (steps : ℕ) : List Answer := (List.range steps).filterMap o.answer

/-- The tokens since the last blank: those of duration zero before the first one with a duration, and
that one with all behind it. -/
structure Row where
  still : ℕ
  moved : ℕ
  deriving DecidableEq

/-- One answer more. -/
def Row.next (row : Row) (a : Answer) : Row :=
  if !a.token then ⟨0, 0⟩
  else if row.moved = 0 ∧ a.duration = 0 then ⟨row.still + 1, 0⟩
  else ⟨row.still, row.moved + 1⟩

/-- The tokens since the last blank of some answers. -/
def rowOf (answers : List Answer) : Row := answers.foldl Row.next ⟨0, 0⟩

/-- Behind a token with a duration, a token of duration zero comes before `max_symbols` of them came
since the last blank.  Of those before that duration, each `max_symbols` are forced on and no longer
count. -/
def Early (w : DecoderWeights) (before : List Answer) (a : Answer) : Prop :=
  a.token → a.duration = 0 → 0 < (rowOf before).moved → 1 < w.perFrame →
    (rowOf before).still % w.perFrame + (rowOf before).moved + 1 < w.perFrame

/-- **No row of tokens fills the counter across frames.** -/
def Sparse (w : DecoderWeights) (answers : List Answer) : Prop := Each (Early w) answers

theorem rowOf_snoc (answers : List Answer) (a : Answer) :
    rowOf (answers ++ [a]) = (rowOf answers).next a := by
  rw [rowOf, List.foldl_append]
  rfl

theorem answers_succ (o : Oracle w) {steps : ℕ} {a : Answer} (h : o.answer steps = some a) :
    o.answers (steps + 1) = o.answers steps ++ [a] := by
  rw [Oracle.answers, List.range_succ, List.filterMap_append, List.filterMap_cons_some h]
  rfl

/-- What a step was answered. -/
def Move.answer (m : Move) : Answer := ⟨m.token.isSome, m.duration⟩

theorem rowOf_move (moves : List Move) (m : Move) : rowOf ((moves ++ [m]).map Move.answer) =
    (rowOf (moves.map Move.answer)).next m.answer := by
  rw [List.map_append, List.map_singleton, rowOf_snoc]

/-! ### The counter and the answers -/

/-- **The counter by the answers**, as long as the guard was the one of the frame: it covers the row,
which is all on the frame until a duration moves it. -/
structure Counted (w : DecoderWeights) (s : Greedy) (row : Row) : Prop where
  symbols : s.symbols = row.still % w.perFrame + row.moved
  same : row.moved = 0 → tokensAt s.moves s.frame = s.symbols
  fewer : 0 < row.moved → tokensAt s.moves s.frame < s.symbols

/-- What a run of the loop shows of the guard. -/
structure Judged (w : DecoderWeights) (o : Oracle w) (moves : List Move) : Prop where
  answers : moves.map Move.answer = o.answers moves.length
  moved : ∀ m ∈ moves, m.token.isSome → ¬m.Forced → m.next = m.frame + m.duration
  guard : Each (Due w) moves ↔ Sparse w (moves.map Move.answer)

/-- What the loop keeps. -/
structure Tracked (w : DecoderWeights) (o : Oracle w) (s : Greedy) : Prop extends
    Judged w o s.moves where
  steps : s.moves.length = s.nSteps
  counted : 1 < w.perFrame → Each (Due w) s.moves → Counted w s (rowOf (s.moves.map Move.answer))

theorem tracked_start : Tracked w o {} where
  answers := rfl
  moved := by simp
  guard := iff_of_true each_nil each_nil
  steps := rfl
  counted _ _ := ⟨by simp [rowOf], fun _ => rfl, fun h => absurd h (lt_irrefl 0)⟩

/-- One step more, for which the frame's rule is the answers' rule. -/
theorem Judged.snoc {moves : List Move} (h : Judged w o moves) {m : Move}
    (hanswer : o.answer moves.length = some m.answer)
    (hmoved : m.token.isSome → ¬m.Forced → m.next = m.frame + m.duration)
    (hrule : Each (Due w) moves → (Due w moves m ↔ Early w (moves.map Move.answer) m.answer)) :
    Judged w o (moves ++ [m]) where
  answers := by
    rw [List.map_append, h.answers, List.length_append, List.length_singleton,
      answers_succ o hanswer]
    rfl
  moved m' hm' := by
    rcases List.mem_append.1 hm' with hm' | hm'
    · exact h.moved m' hm'
    · rw [List.mem_singleton.1 hm']
      exact hmoved
  guard := by
    rw [List.map_append, List.map_singleton, Sparse, each_snoc, each_snoc, h.guard]
    exact and_congr_right fun hsparse => hrule (h.guard.2 hsparse)

/-- A full counter, by the tokens that a frame may have. -/
theorem filled_iff {s : Greedy} {duration : ℕ} :
    Filled w s duration ↔ duration = 0 ∧ w.perFrame ≤ s.symbols + 1 := by
  unfold Filled DecoderWeights.perFrame
  omega

section Steps

variable {n : ℕ} {s s' : Greedy} {text : Bytes} {token : ℤ} {duration : ℕ}

/-- A blank ends the row. -/
theorem Tracked.skip (h : Tracked w o s) (hanswer : o.answer s.nSteps = some ⟨false, duration⟩)
    (hskip : (s.reading text).skip duration = some s') : Tracked w o s' := by
  obtain ⟨-, rfl⟩ := skip_eq_some.1 hskip
  have hblank : ∀ next, Judged w o (s.moves ++ [⟨s.frame, none, duration, next⟩]) := by
    intro next
    refine h.toJudged.snoc (h.steps ▸ hanswer) (fun htoken => ?_) fun _ => iff_of_true ?_ ?_
    · exact absurd htoken Bool.false_ne_true
    · exact fun hstill => absurd hstill.1 Bool.false_ne_true
    · exact fun htoken => absurd htoken Bool.false_ne_true
  refine { hblank _ with steps := ?_, counted := fun _ _ => ?_ }
  · simpa [Greedy.nSteps, Greedy.reading] using h.steps
  · have hnone : ∀ (next frame : ℕ),
        tokensAt (s.moves ++ [⟨s.frame, none, duration, next⟩]) frame = 0 := fun next frame => by
      rw [tokensAt_snoc, if_neg (by simp)]
    show Counted w _ (rowOf ((s.moves ++ [_]).map Move.answer))
    rw [rowOf_move]
    exact { symbols := (Nat.zero_mod w.perFrame).symm, same := fun _ => hnone _ _
            fewer := fun hpos => absurd hpos (lt_irrefl 0) }

/-- The move of a token that was counted. -/
def moveOf (w : DecoderWeights) (s : Greedy) (token : ℤ) (duration : ℕ) : Move :=
  ⟨s.frame, some token, duration, s.frame + duration + if Filled w s duration then 1 else 0⟩

theorem still_moveOf : (moveOf w s token duration).Still ↔ duration = 0 := by
  simp [Move.Still, moveOf]

theorem forced_moveOf : (moveOf w s token duration).Forced ↔ Filled w s duration := by
  rw [Move.Forced, still_moveOf]
  show duration = 0 ∧ s.frame + duration + _ = s.frame + 1 ↔ _
  split_ifs with hfilled
  · exact ⟨fun _ => hfilled, fun _ => ⟨hfilled.1, by rw [hfilled.1]⟩⟩
  · exact ⟨fun ⟨hzero, hnext⟩ => by omega, fun h => absurd h hfilled⟩

/-- **The frame's rule is the answers' rule**, as long as it was kept. -/
theorem Tracked.due_iff_early (hgoing : Going w n s) (h : Tracked w o s)
    (hdue : Each (Due w) s.moves) :
    Due w s.moves (moveOf w s token duration) ↔
      Early w (s.moves.map Move.answer) ⟨true, duration⟩ := by
  have hcovers := hgoing.counted
  have hroom : 0 < tokensAt s.moves s.frame → s.symbols < w.perFrame := fun hpos => by
    have := hgoing.room hpos
    unfold DecoderWeights.perFrame
    omega
  unfold Due Early
  rw [still_moveOf, forced_moveOf, filled_iff, forall_prop_of_true rfl]
  refine imp_congr_right fun hzero => ?_
  rw [and_iff_right hzero]
  show (_ ↔ tokensAt s.moves s.frame + 1 = w.perFrame) ↔ _
  rcases Nat.lt_or_ge 1 w.perFrame with hmany | hone
  · obtain ⟨hsymbols, hsame, hfewer⟩ := h.counted hmany hdue
    have hmod := Nat.mod_lt (rowOf (s.moves.map Move.answer)).still (by omega : 0 < w.perFrame)
    omega
  · have hperFrame : w.perFrame = 1 := le_antisymm hone (le_max_left _ _)
    have hnone : tokensAt s.moves s.frame = 0 := by omega
    simp [hperFrame, hnone]

/-- A token joins the row. -/
theorem Counted.joined (hmany : 1 < w.perFrame) {row : Row} (h : Counted w s row)
    (hearly : duration = 0 → 0 < row.moved →
      row.still % w.perFrame + row.moved + 1 < w.perFrame)
    (hmoves : s'.moves = s.moves ++ [moveOf w s token duration])
    (hframe : s'.frame = s.frame + duration + if Filled w s duration then 1 else 0)
    (hsymbols : s'.symbols = if Filled w s duration then 0 else s.symbols + 1) :
    Counted w s' (row.next ⟨true, duration⟩) := by
  obtain ⟨hcount, hsame, hfewer⟩ := h
  have hmod : row.still % w.perFrame < w.perFrame := Nat.mod_lt _ (by omega)
  have hleft : s'.frame ≠ s.frame → tokensAt s'.moves s'.frame = 0 := fun hne => by
    rw [hmoves, tokensAt_snoc, if_neg fun hstay => hne hstay.1.symm]
  have hstayed : s'.frame = s.frame →
      tokensAt s'.moves s'.frame = tokensAt s.moves s.frame + 1 := fun heq => by
    rw [hmoves, tokensAt_snoc, heq, if_pos ⟨rfl, rfl⟩]
  simp only [filled_iff] at hframe hsymbols
  unfold Row.next
  rw [if_neg (by simp)]
  by_cases hstill : row.moved = 0 ∧ duration = 0
  · -- still on the frame: the counter is full with every so many of them
    have hnext : (row.still + 1) % w.perFrame =
        if w.perFrame ≤ row.still % w.perFrame + 1 then 0 else row.still % w.perFrame + 1 := by
      rw [Nat.add_mod_eq_ite, Nat.mod_eq_of_lt hmany]
      split_ifs <;> omega
    rw [if_pos hstill]
    constructor
    · show s'.symbols = (row.still + 1) % w.perFrame + 0
      rw [hnext, hsymbols]
      split_ifs <;> omega
    · intro _
      split_ifs at hframe hsymbols <;> omega
    · exact fun hpos => absurd hpos (lt_irrefl 0)
  · -- behind a duration: the counter goes on, and is not full
    have hroom : ¬(duration = 0 ∧ w.perFrame ≤ s.symbols + 1) := by omega
    rw [if_neg hroom] at hframe hsymbols
    rw [if_neg hstill]
    constructor
    · show s'.symbols = row.still % w.perFrame + (row.moved + 1)
      omega
    · exact fun hzero => absurd hzero (Nat.succ_ne_zero _)
    · intro _
      omega

/-- A token goes on with the row. -/
theorem Tracked.advance (hgoing : Going w n s) (h : Tracked w o s)
    (hanswer : o.answer s.nSteps = some ⟨true, duration⟩)
    (hadvance : (s.reading text).advance w token duration = some s') : Tracked w o s' := by
  obtain ⟨-, rfl⟩ := advance_eq_some.1 hadvance
  have hjudged : Judged w o (s.moves ++ [moveOf w s token duration]) := by
    refine h.toJudged.snoc (h.steps ▸ hanswer) (fun _ hforced => ?_) (h.due_iff_early hgoing)
    exact congrArg _ (if_neg (mt forced_moveOf.2 hforced))
  refine { hjudged with steps := ?_, counted := fun hmany hdue => ?_ }
  · simpa [Greedy.nSteps, Greedy.reading] using h.steps
  · obtain ⟨hbefore, hlast⟩ := each_snoc.1 hdue
    have hearly := (h.due_iff_early hgoing hbefore).1 hlast
    show Counted w _ (rowOf ((s.moves ++ [moveOf w s token duration]).map Move.answer))
    rw [rowOf_move]
    exact (h.counted hmany hbefore).joined hmany (fun hzero hpos => hearly rfl hzero hpos hmany)
      rfl rfl rfl

/-- **One round** keeps what is shown of the guard. -/
theorem Tracked.body (hgoing : Going w n s) (h : Tracked w o s) :
    Judged w o (body w sp o s).1.moves ∧
      ((body w sp o s).2 = none → Tracked w o (body w sp o s).1) := by
  rcases body_cases w sp o s with
    ⟨-, heq⟩ | ⟨text, status, -, heq⟩ | ⟨id, hjoint, heq⟩ | ⟨token, id, text, hjoint, hne, heq⟩ <;>
    rw [heq]
  · exact ⟨h.toJudged, nofun⟩
  · exact ⟨h.toJudged, nofun⟩
  · have hanswer : o.answer s.nSteps = some ⟨false, w.durations.get id⟩ := by
      simp [Oracle.answer, hjoint]
    cases hskip : (s.reading s.text).skip (w.durations.get id) with
    | none => exact ⟨h.toJudged, nofun⟩
    | some s' =>
      have hnext := h.skip hanswer hskip
      exact ⟨hnext.toJudged, fun _ => hnext⟩
  · have hanswer : o.answer s.nSteps = some ⟨true, w.durations.get id⟩ := by
      simp [Oracle.answer, hjoint, hne]
    cases hadvance : (s.reading text).advance w token (w.durations.get id) with
    | none => exact ⟨h.toJudged, nofun⟩
    | some s' =>
      have hnext := h.advance hgoing hanswer hadvance
      exact ⟨hnext.toJudged, fun _ => hnext⟩

/-- **The whole loop** shows it. -/
theorem Tracked.loop {nFrames : ℤ} (hgoing : Going w nFrames.toNat s) (h : Tracked w o s)
    (rounds : ℕ) : Judged w o (loop w sp o nFrames rounds s).1.moves := by
  induction rounds generalizing s with
  | zero => exact h.toJudged
  | succ rounds ih =>
    rw [Tdt.loop]
    by_cases hend : nFrames ≤ s.frame
    · rw [if_pos hend]
      exact h.toJudged
    · have hlt : s.frame < nFrames.toNat := by omega
      obtain ⟨hjudged, htracked⟩ := @Tracked.body w sp o _ s hgoing h
      obtain ⟨-, -, hgoes⟩ := @Going.body w sp o _ s hgoing hlt
      rw [if_neg hend]
      rcases heq : Tdt.body w sp o s with ⟨s', _ | status⟩
      · rw [heq] at htracked hgoes
        exact ih (hgoes rfl).1 (htracked rfl)
      · rw [heq] at hjudged
        exact hjudged

end Steps

/-! ### The guard -/

theorem tokensAt_le (moves : List Move) (frame : ℕ) : tokensAt moves frame ≤ tokensOf moves frame := by
  rw [tokensAt, tokensOf, ← List.countP_reverse]
  generalize moves.reverse = l
  induction l with
  | nil => exact le_rfl
  | cons m l ih =>
    rw [List.takeWhile_cons, List.countP_cons]
    split_ifs with hm
    · rw [List.length_cons]
      omega
    · simp

/-- A token counts on its frame. -/
theorem tokensAt_lt {before after : List Move} {m : Move} (hm : m.token.isSome) :
    tokensAt before m.frame < tokensOf (before ++ m :: after) m.frame := by
  have hle := tokensAt_le before m.frame
  rw [tokensOf, List.countP_append, List.countP_cons, if_pos (by simpa using hm)]
  rw [tokensOf] at hle
  omega

theorem judged_decode (w : DecoderWeights) (sp : SpDetok) (o : Oracle w) (nFrames : ℤ)
    (rounds : ℕ) : Judged w o (parakeetTdtDecode w sp o nFrames rounds).1.moves := by
  unfold parakeetTdtDecode
  split
  · exact tracked_start.loop going_start rounds
  · exact tracked_start.toJudged

/-- **The guard is the one of the frame exactly when no row of tokens fills the counter across
frames**, by what the joint steps named. -/
theorem perFrame_iff (sp : SpDetok) (o : Oracle w) (nFrames : ℤ) (rounds : ℕ) :
    PerFrame w (parakeetTdtDecode w sp o nFrames rounds).1.moves ↔
      Sparse w (o.answers (parakeetTdtDecode w sp o nFrames rounds).1.moves.length) := by
  have hjudged := judged_decode w sp o nFrames rounds
  generalize (parakeetTdtDecode w sp o nFrames rounds).1.moves = moves at hjudged ⊢
  rw [← hjudged.answers, ← hjudged.guard]
  refine ⟨PerFrame.skips, fun hskips => ⟨hskips, fun hfew m hm htoken => ?_⟩⟩
  refine hjudged.moved m hm htoken fun hforced => ?_
  obtain ⟨before, after, rfl⟩ := List.append_of_mem hm
  have hlt := @tokensAt_lt before after m htoken
  have hlast := (hskips before m after rfl hforced.1).1 hforced
  have hfew := hfew m.frame
  unfold DecoderWeights.perFrame at hlast
  omega

/-- So is the one that moves on. -/
theorem moves_lt : 1 < twoTokens.durations.length := by decide

/-- Networks that name a token which moves on, then one that stays. -/
def dense : Oracle twoTokens where
  predict _ := true
  joint step := some (1, if step = 0 then ⟨1, moves_lt⟩ else ⟨0, stays_lt⟩)
  onToken _ _ := true

/-- **A frame left early.**  The second frame has its first token, and two are allowed; the loop is
forced on, since the token of the frame before counts. -/
theorem forced_at_first_token :
    ¬PerFrame twoTokens (parakeetTdtDecode twoTokens ⟨[([0x61], false), ([0x62], false)]⟩ dense
      3 2).1.moves := by
  intro h
  have hskip := h.skips [⟨0, some 1, 1, 1⟩] ⟨1, some 1, 0, 2⟩ [] (by decide) (by decide)
  exact absurd (hskip.1 (by decide)) (by decide)

end Tdt
end S2S
