/-
# A transcript piece by piece

`sp_detok_append` of `src/sp-detok.h` builds a transcript from one piece at a
time, and whether a word marker becomes a space depends on the text built so
far.  What comes out is the pieces one behind the other, each marker of a piece
a space, less the markers in front of the first other byte, wherever the pieces
begin and end (`transcript_eq`).  A marker is found within one piece: three
bytes that come together only at the border of two pieces are text, so the
transcript is that of all the bytes at once exactly when there are none
(`render_glyphs_iff`).

Each call of `on_token` is handed what its piece added, so the calls hold the
whole transcript between them, in any run of the decoder (`transcript_told`).
-/

import S2S.Tdt.Decode

namespace S2S
namespace Tdt

open Json

/-! ### Markers and bytes -/

/-- What a piece is made of. -/
inductive Glyph
  | marker
  | byte (b : UInt8)
  deriving DecidableEq

/-- The bytes of it. -/
def Glyph.bytes : Glyph → Bytes
  | marker => [0xE2, 0x96, 0x81]
  | byte b => [b]

/-- What it is in a text. -/
def Glyph.text : Glyph → UInt8
  | marker => 0x20
  | byte b => b

/-- The markers of a text and its other bytes. -/
def glyphs : Bytes → List Glyph
  | 0xE2 :: 0x96 :: 0x81 :: piece => .marker :: glyphs piece
  | b :: piece => .byte b :: glyphs piece
  | [] => []

/-- **What pieces read as**: no space in front of the first byte that is not a marker's. -/
def render (gs : List Glyph) : Bytes := (gs.dropWhile (· = .marker)).map Glyph.text

@[simp] theorem render_marker (gs : List Glyph) : render (.marker :: gs) = render gs := rfl

@[simp] theorem render_byte (b : UInt8) (gs : List Glyph) :
    render (.byte b :: gs) = b :: gs.map Glyph.text := rfl

theorem appendPiece_eq (text piece : Bytes) : appendPiece text piece =
    if text = [] then render (glyphs piece) else text ++ (glyphs piece).map Glyph.text := by
  induction text, piece using appendPiece.induct with
  | case1 text piece ih =>
    rw [appendPiece, ih, glyphs]
    by_cases htext : text = []
    · subst htext
      rfl
    · simp [htext, Glyph.text]
  | case2 text b piece hmarker ih =>
    rw [appendPiece, ih, glyphs]
    · by_cases htext : text = []
      · subst htext
        simp [render, Glyph.text]
      · simp [htext, Glyph.text]
    · exact hmarker
    · exact hmarker
  | case3 text =>
    by_cases htext : text = [] <;> simp [appendPiece, glyphs, render, htext]

/-! ### Ids -/

/-- The piece of an id, unless it is a special one. -/
def spoken (sp : SpDetok) (id : ℤ) : Option Bytes :=
  (sp.pieces[id.toNat]?).bind fun piece => if piece.2 then none else some piece.1

/-- An id of the table. -/
def Valid (sp : SpDetok) (id : ℤ) : Prop := 0 ≤ id ∧ id.toNat < sp.pieces.length

/-- The text behind `ids`, one append after the other. -/
def transcript (sp : SpDetok) (ids : List ℤ) : Option Bytes :=
  ids.foldlM (fun text id => spDetokAppend sp id text) []

variable {sp : SpDetok}

theorem spDetokAppend_eq {id : ℤ} (h : Valid sp id) (text : Bytes) : spDetokAppend sp id text =
    some (((spoken sp id).map (appendPiece text)).getD text) := by
  rw [spDetokAppend, if_neg (not_lt.2 h.1), spoken, List.getElem?_eq_getElem h.2, Option.map_some,
    Option.bind_some]
  split_ifs <;> rfl

theorem render_append (gs more : List Glyph) : render (gs ++ more) =
    if render gs = [] then render more else render gs ++ more.map Glyph.text := by
  induction gs with
  | nil => rfl
  | cons g gs ih =>
    cases g with
    | marker => exact ih
    | byte b => simp

/-- **The transcript of any valid ids**: their pieces but the special ones, each marker a space, less
the markers before the first other byte. -/
theorem transcript_eq {ids : List ℤ} (h : ∀ id ∈ ids, Valid sp id) :
    transcript sp ids = some (render ((ids.filterMap (spoken sp)).flatMap glyphs)) := by
  have hfold : ∀ gs : List Glyph, ids.foldlM (fun text id => spDetokAppend sp id text) (render gs)
      = some (render (gs ++ (ids.filterMap (spoken sp)).flatMap glyphs)) := by
    induction ids with
    | nil => exact fun gs => by simp
    | cons id ids ih =>
      intro gs
      have hrest := ih fun id' hid => h id' (List.mem_cons_of_mem _ hid)
      rw [List.foldlM_cons, spDetokAppend_eq (h id (List.mem_cons_self ..))]
      cases hpiece : spoken sp id with
      | none =>
        rw [List.filterMap_cons_none hpiece]
        exact hrest gs
      | some piece =>
        have happend : appendPiece (render gs) piece = render (gs ++ glyphs piece) := by
          rw [appendPiece_eq, render_append]
        rw [List.filterMap_cons_some hpiece, List.flatMap_cons, ← List.append_assoc]
        rw [Option.map_some, Option.getD_some, happend]
        exact hrest _
  exact hfold []

/-! ### Borders -/

/-- The same bytes with three of them, which make a marker, seen as one. -/
inductive Glued : List Glyph → List Glyph → Prop
  | nil : Glued [] []
  | cons (g : Glyph) {gs more : List Glyph} : Glued gs more → Glued (g :: gs) (g :: more)
  | glue {gs more : List Glyph} : Glued gs more →
    Glued (.byte 0xE2 :: .byte 0x96 :: .byte 0x81 :: gs) (.marker :: more)

theorem second_third {gs : List Glyph} {tail : Bytes}
    (h : gs.flatMap Glyph.bytes = 0x96 :: 0x81 :: tail) :
    ∃ gs', gs = .byte 0x96 :: .byte 0x81 :: gs' ∧ gs'.flatMap Glyph.bytes = tail := by
  have hhead : ∀ {b : UInt8} {gs : List Glyph} {tail : Bytes}, b ≠ 0xE2 →
      gs.flatMap Glyph.bytes = b :: tail →
      ∃ gs', gs = .byte b :: gs' ∧ gs'.flatMap Glyph.bytes = tail := by
    intro b gs tail hb h
    cases gs with
    | nil => simp at h
    | cons g gs =>
      cases g with
      | marker => exact absurd (List.cons.inj h).1.symm hb
      | byte c =>
        obtain ⟨rfl, htail⟩ := List.cons.inj h
        exact ⟨gs, rfl, htail⟩
  obtain ⟨gs', rfl, hsecond⟩ := hhead (by decide) h
  obtain ⟨gs, rfl, hthird⟩ := hhead (by decide) hsecond
  exact ⟨gs, rfl, hthird⟩

/-- **All the bytes at once glue what lies between two glyphs**, and nothing else. -/
theorem glued_glyphs (gs : List Glyph) : Glued gs (glyphs (gs.flatMap Glyph.bytes)) := by
  induction hn : gs.length using Nat.strong_induction_on generalizing gs with
  | _ n ih =>
    subst hn
    cases gs with
    | nil => exact .nil
    | cons g gs =>
      have hrest := ih gs.length (by simp) gs rfl
      cases g with
      | marker => exact .cons .marker hrest
      | byte b =>
        by_cases hmarker : ∃ tail, b = 0xE2 ∧ gs.flatMap Glyph.bytes = 0x96 :: 0x81 :: tail
        · obtain ⟨tail, rfl, htail⟩ := hmarker
          obtain ⟨gs', rfl, hbytes⟩ := second_third htail
          have hmore := ih gs'.length (by simp only [List.length_cons]; omega) gs' rfl
          rw [List.flatMap_cons, Glyph.bytes, htail, ← hbytes]
          exact .glue hmore
        · have hbyte : glyphs (b :: gs.flatMap Glyph.bytes)
              = .byte b :: glyphs (gs.flatMap Glyph.bytes) := by
            rw [glyphs]
            rintro tail rfl htail
            exact hmarker ⟨tail, rfl, htail⟩
          rw [List.flatMap_cons, Glyph.bytes, List.singleton_append, hbyte]
          exact .cons _ hrest

theorem Glued.length_le {gs more : List Glyph} (h : Glued gs more) : more.length ≤ gs.length := by
  induction h with
  | nil => exact le_rfl
  | cons _ _ ih => exact Nat.succ_le_succ ih
  | glue _ ih =>
    simp only [List.length_cons]
    omega

/-- What is glued is shorter, read as a text too. -/
theorem Glued.eq_or_shorter {gs more : List Glyph} (h : Glued gs more) :
    more = gs ∨ more.length < gs.length ∧ (render more).length < (render gs).length := by
  induction h with
  | nil => exact .inl rfl
  | @cons g gs more h ih =>
    rcases ih with rfl | ⟨hless, hrender⟩
    · exact .inl rfl
    · refine .inr ⟨Nat.succ_lt_succ hless, ?_⟩
      cases g with
      | marker => exact hrender
      | byte b => simpa using hless
  | @glue gs more h ih =>
    have hle := h.length_le
    have hrender : (render more).length ≤ more.length := by
      rw [render, List.length_map]
      exact (List.dropWhile_suffix _).length_le
    refine .inr ⟨?_, ?_⟩
    · simp only [List.length_cons]
      omega
    · simp only [render_marker, render_byte, List.length_cons, List.length_map]
      omega

/-- **When the pieces read as all their bytes at once**: no three bytes of a marker come together at a
border. -/
theorem render_glyphs_iff (pieces : List Bytes) :
    render (pieces.flatMap glyphs) = render (glyphs pieces.flatten) ↔
      glyphs pieces.flatten = pieces.flatMap glyphs := by
  have hbytes : ∀ piece : Bytes, (glyphs piece).flatMap Glyph.bytes = piece := by
    intro piece
    induction piece using glyphs.induct with
    | case1 piece ih => simp [glyphs, Glyph.bytes, ih]
    | case2 b piece hmarker ih =>
      rw [glyphs]
      · simp [Glyph.bytes, ih]
      · exact hmarker
    | case3 => rfl
  have hall : (pieces.flatMap glyphs).flatMap Glyph.bytes = pieces.flatten := by
    rw [List.flatMap_assoc]
    simp only [hbytes]
    exact List.flatMap_id'
  have hglued := glued_glyphs (pieces.flatMap glyphs)
  rw [hall] at hglued
  constructor
  · intro hrender
    rcases hglued.eq_or_shorter with heq | ⟨-, hless⟩
    · exact heq
    · rw [hrender] at hless
      exact absurd hless (lt_irrefl _)
  · intro heq
    rw [heq]

/-! ### What the calls are handed -/

/-- The C string that `on_token` is handed behind each append. -/
def told (sp : SpDetok) : Bytes → List ℤ → List Bytes
  | _, [] => []
  | text, id :: ids =>
    match spDetokAppend sp id text with
    | none => []
    | some text' => cstr (text'.drop text.length) :: told sp text' ids

theorem zero_not_mem_glyphs {piece : Bytes} (h : (0 : UInt8) ∉ piece) :
    (0 : UInt8) ∉ (glyphs piece).map Glyph.text := by
  induction piece using glyphs.induct with
  | case1 piece ih =>
    rw [glyphs, List.map_cons, List.mem_cons, not_or]
    exact ⟨by decide, ih fun hmem => h (by simp [hmem])⟩
  | case2 b piece hmarker ih =>
    rw [glyphs, List.map_cons, List.mem_cons, not_or]
    · exact ⟨fun hb => h (by simp [show b = 0 from hb.symm]),
        ih fun hmem => h (List.mem_cons_of_mem _ hmem)⟩
    · exact hmarker
  | case3 => exact List.not_mem_nil

/-- A piece adds to the text, and no zero byte unless it holds one. -/
theorem exists_added (text piece : Bytes) : ∃ added, appendPiece text piece = text ++ added ∧
    ((0 : UInt8) ∉ piece → (0 : UInt8) ∉ added) := by
  rw [appendPiece_eq]
  split_ifs with htext
  · refine ⟨render (glyphs piece), by rw [htext, List.nil_append], fun hpiece hmem => ?_⟩
    exact zero_not_mem_glyphs hpiece
      (((List.dropWhile_suffix _).map Glyph.text).subset hmem)
  · exact ⟨_, rfl, zero_not_mem_glyphs⟩

/-- **The calls hold the whole transcript between them**, when no piece holds a zero byte. -/
theorem flatten_told {ids : List ℤ} (h : ∀ id ∈ ids, Valid sp id)
    (hzero : ∀ piece ∈ ids.filterMap (spoken sp), (0 : UInt8) ∉ piece) :
    transcript sp ids = some (told sp [] ids).flatten := by
  have hfold : ∀ text : Bytes, ids.foldlM (fun text id => spDetokAppend sp id text) text
      = some (text ++ (told sp text ids).flatten) := by
    induction ids with
    | nil => exact fun text => by simp [told]
    | cons id ids ih =>
      intro text
      have happend := spDetokAppend_eq (h id (List.mem_cons_self ..)) text
      have hrest : (∀ piece ∈ ids.filterMap (spoken sp), (0 : UInt8) ∉ piece) →
          ∀ text : Bytes, ids.foldlM (fun text id => spDetokAppend sp id text) text
            = some (text ++ (told sp text ids).flatten) :=
        ih fun id' hid => h id' (List.mem_cons_of_mem _ hid)
      rw [List.foldlM_cons, told, happend]
      cases hpiece : spoken sp id with
      | none =>
        rw [List.filterMap_cons_none hpiece] at hzero
        refine (hrest hzero text).trans ?_
        simp [cstr]
      | some piece =>
        rw [List.filterMap_cons_some hpiece] at hzero
        obtain ⟨added, hadded, hkeeps⟩ := exists_added text piece
        have hcall : cstr ((appendPiece text piece).drop text.length) = added := by
          rw [hadded, List.drop_left]
          exact cstr_eq_self_iff.2 (hkeeps (hzero piece (List.mem_cons_self ..)))
        simp only [Option.map_some, Option.getD_some, List.flatten_cons, hcall]
        refine (hrest (fun p hp => hzero p (List.mem_cons_of_mem _ hp)) _).trans ?_
        rw [hadded, List.append_assoc]
  exact hfold []

/-! ### The decoder -/

section Decoder

variable {w : DecoderWeights} (sp) (o : Oracle w)

/-- The ids that a round appends, and what it hands `on_token`. -/
def emitted (s : Greedy) : List (ℤ × Bytes) :=
  if asInt (s.nSteps + 1) = none then []
  else match o.joint s.nSteps with
    | none => []
    | some (token, _) =>
      if token = w.blankId then []
      else match spDetokAppend sp token s.text with
        | none => []
        | some text => [(token, cstr (text.drop s.text.length))]

/-- Those of the loop, for as many rounds. -/
def loopEmitted (nFrames : ℤ) : ℕ → Greedy → List (ℤ × Bytes)
  | 0, _ => []
  | rounds + 1, s =>
    if nFrames ≤ s.frame then []
    else emitted sp o s ++ match body w sp o s with
      | (_, some _) => []
      | (s, none) => loopEmitted nFrames rounds s

/-- Those of a decoding. -/
def decodeEmitted (nFrames : ℤ) (rounds : ℕ) : List (ℤ × Bytes) :=
  if o.predict 0 then loopEmitted sp o nFrames rounds {} else []

/-- A text grows by the appends of some ids, each of which is told. -/
structure Emits (text : Bytes) (calls : List (ℤ × Bytes)) (text' : Bytes) : Prop where
  valid : ∀ call ∈ calls, Valid sp call.1
  appended : (calls.map Prod.fst).foldlM (fun text id => spDetokAppend sp id text) text = some text'
  told : told sp text (calls.map Prod.fst) = calls.map Prod.snd

variable {sp} {o}

theorem Emits.nil (text : Bytes) : Emits sp text [] text :=
  ⟨fun _ h => absurd h List.not_mem_nil, rfl, rfl⟩

theorem told_append {text mid : Bytes} {ids more : List ℤ}
    (h : ids.foldlM (fun text id => spDetokAppend sp id text) text = some mid) :
    Tdt.told sp text (ids ++ more) = Tdt.told sp text ids ++ Tdt.told sp mid more := by
  induction ids generalizing text with
  | nil =>
    obtain rfl := Option.some.inj h
    rfl
  | cons id ids ih =>
    rw [List.foldlM_cons] at h
    obtain ⟨text', hone, hrest⟩ := Option.bind_eq_some_iff.1 h
    rw [List.cons_append, Tdt.told, Tdt.told, hone]
    exact congrArg (_ :: ·) (ih hrest)

theorem Emits.append {text mid last : Bytes} {calls more : List (ℤ × Bytes)}
    (h : Emits sp text calls mid) (hmore : Emits sp mid more last) :
    Emits sp text (calls ++ more) last where
  valid call hcall := (List.mem_append.1 hcall).elim (h.valid call) (hmore.valid call)
  appended := by
    rw [List.map_append, List.foldlM_append, h.appended]
    exact hmore.appended
  told := by
    rw [List.map_append, List.map_append, told_append h.appended, h.told, hmore.told]

theorem valid_of_append {id : ℤ} {text text' : Bytes} (h : spDetokAppend sp id text = some text') :
    Valid sp id := by
  unfold spDetokAppend at h
  split_ifs at h with hid
  obtain ⟨piece, hpiece, -⟩ := Option.map_eq_some_iff.1 h
  exact ⟨not_lt.1 hid, (List.getElem?_eq_some_iff.1 hpiece).1⟩

/-- The text of a step is the one it read, whatever the frame. -/
theorem orOverflow_skip_text (s : Greedy) (duration : ℕ) :
    (orOverflow s (s.skip duration)).1.text = s.text := by
  cases hskip : s.skip duration with
  | none => rfl
  | some s' =>
    obtain ⟨-, rfl⟩ := skip_eq_some.1 hskip
    rfl

theorem orOverflow_advance_text (s : Greedy) (token : ℤ) (duration : ℕ) :
    (orOverflow s (s.advance w token duration)).1.text = s.text := by
  cases hadvance : s.advance w token duration with
  | none => rfl
  | some s' =>
    obtain ⟨-, rfl⟩ := advance_eq_some.1 hadvance
    rfl

/-- **A round** appends what it tells. -/
theorem emits_body (s : Greedy) : Emits sp s.text (emitted sp o s) (body w sp o s).1.text := by
  unfold emitted body
  by_cases hcount : asInt (s.nSteps + 1) = none
  · rw [if_pos hcount, if_pos hcount]
    exact .nil _
  rw [if_neg hcount, if_neg hcount]
  dsimp only
  cases o.joint s.nSteps with
  | none => exact .nil _
  | some move =>
    obtain ⟨token, id⟩ := move
    dsimp only
    by_cases hblank : token = w.blankId
    · rw [if_pos hblank, if_pos hblank, orOverflow_skip_text]
      exact .nil _
    rw [if_neg hblank, if_neg hblank]
    cases happend : spDetokAppend sp token s.text with
    | none => exact .nil _
    | some text =>
      have htext : ∀ out : Greedy × Option Status, out.1.text = text →
          Emits sp s.text [(token, cstr (text.drop s.text.length))] out.1.text := by
        intro out hout
        rw [hout]
        refine ⟨fun call hcall => ?_, ?_, ?_⟩
        · rw [List.mem_singleton.1 hcall]
          exact valid_of_append happend
        · simp [happend]
        · simp [Tdt.told, happend]
      refine htext _ ?_
      dsimp only
      split_ifs
      · rfl
      · rfl
      · exact orOverflow_advance_text _ token _

theorem emits_loop (nFrames : ℤ) (rounds : ℕ) (s : Greedy) :
    Emits sp s.text (loopEmitted sp o nFrames rounds s) (loop w sp o nFrames rounds s).1.text := by
  induction rounds generalizing s with
  | zero => exact .nil _
  | succ rounds ih =>
    rw [loopEmitted, loop]
    by_cases hend : nFrames ≤ s.frame
    · rw [if_pos hend, if_pos hend]
      exact .nil _
    · rw [if_neg hend, if_neg hend]
      have hbody : Emits sp s.text (emitted sp o s) (body w sp o s).1.text := emits_body s
      cases hstep : body w sp o s with
      | mk s' status =>
        rw [hstep] at hbody
        cases status with
        | some status =>
          rw [List.append_nil]
          exact hbody
        | none => exact hbody.append (ih s')

/-- **A decoding** tells what it writes, from any point of its run. -/
theorem emits_decode (nFrames : ℤ) (rounds : ℕ) :
    Emits sp [] (decodeEmitted sp o nFrames rounds)
      (parakeetTdtDecode w sp o nFrames rounds).1.text := by
  unfold decodeEmitted parakeetTdtDecode
  by_cases hstart : o.predict 0 = true
  · rw [if_pos hstart, if_pos hstart]
    exact emits_loop nFrames rounds {}
  · rw [if_neg hstart, if_neg hstart]
    exact .nil _

end Decoder

/-- **The transcript and what is told of it**, for any valid ids of any table: the pieces as they read,
which is how all their bytes read unless a marker goes across a border, and what the calls are
handed, when no piece holds a zero byte.  Every decoding is such a run, told call by call. -/
theorem transcript_told {ids : List ℤ} (h : ∀ id ∈ ids, Valid sp id) :
    transcript sp ids = some (render ((ids.filterMap (spoken sp)).flatMap glyphs)) ∧
      (transcript sp ids = some (render (glyphs (ids.filterMap (spoken sp)).flatten)) ↔
        glyphs (ids.filterMap (spoken sp)).flatten = (ids.filterMap (spoken sp)).flatMap glyphs) ∧
      ((∀ piece ∈ ids.filterMap (spoken sp), (0 : UInt8) ∉ piece) →
        transcript sp ids = some (told sp [] ids).flatten) ∧
      ∀ (w : DecoderWeights) (o : Oracle w) (nFrames : ℤ) (rounds : ℕ),
        Emits sp [] (decodeEmitted sp o nFrames rounds)
          (parakeetTdtDecode w sp o nFrames rounds).1.text := by
  refine ⟨transcript_eq h, ?_, flatten_told h, fun w o => emits_decode⟩
  rw [transcript_eq h, Option.some_inj]
  exact render_glyphs_iff _

/-- Two words with a special piece between them. -/
theorem transcript_told_words :
    transcript ⟨[(ascii "<unk>", true), ([0xE2, 0x96, 0x81, 0x48, 0x69], false),
        ([0xE2, 0x96, 0x81, 0x61], false)]⟩ [0, 1, 0, 2] = some (ascii "Hi a") ∧
      transcript ⟨[(ascii "<unk>", true), ([0xE2, 0x96, 0x81, 0x48, 0x69], false),
        ([0xE2, 0x96, 0x81, 0x61], false)]⟩ [0, 1, 0, 2] =
      some (told ⟨[(ascii "<unk>", true), ([0xE2, 0x96, 0x81, 0x48, 0x69], false),
        ([0xE2, 0x96, 0x81, 0x61], false)]⟩ [] [0, 1, 0, 2]).flatten :=
  have htold := @transcript_told ⟨[(ascii "<unk>", true), ([0xE2, 0x96, 0x81, 0x48, 0x69], false),
    ([0xE2, 0x96, 0x81, 0x61], false)]⟩ [0, 1, 0, 2] (by simp [Valid])
  ⟨htold.1.trans (by decide), htold.2.2.1 (by decide)⟩

/-- The first byte of a marker in one piece and the other two in the next. -/
theorem marker_across_pieces : ¬∀ (sp : SpDetok) (ids : List ℤ), (∀ id ∈ ids, Valid sp id) →
    transcript sp ids = some (render (glyphs (ids.filterMap (spoken sp)).flatten)) := by
  intro h
  have hids := h ⟨[([0xE2], false), ([0x96, 0x81], false)]⟩ [0, 1] (by simp [Valid])
  exact absurd hids (by decide)

end Tdt
end S2S
