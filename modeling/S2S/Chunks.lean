/-
# A text that arrives in chunks

A stream hands its text over in chunks that are cut anywhere.  Who reads it
keeps what it could not use yet, appends every chunk to that, and takes pieces
off the front for as long as there is a whole one (`Cutter.drain`).

A cutter finds the first piece, and finds the same one whatever is appended
later.  That is all the order of things needs: what a reader did after all the
chunks is what it does with the whole text at once, however the text was cut,
also when a piece makes it stop (`Cutter.feeds_flatten`).  A reader that nothing
stops goes through the pieces of the text (`Cutter.drain_eq_pieces`).
-/

import Mathlib.Data.List.Basic

namespace S2S

/-- **What a text is cut by**: `cut` takes the first piece off a text, none while it holds no whole
one.  A piece that was found stays the first whatever follows. -/
structure Cutter (α : Type) where
  cut : List α → Option (List α × List α)
  cut_append : ∀ {x piece rest : List α}, cut x = some (piece, rest) →
    ∀ y, cut (x ++ y) = some (piece, rest ++ y)
  cut_length : ∀ {x piece rest : List α}, cut x = some (piece, rest) → rest.length < x.length

namespace Cutter

variable {α σ : Type} (C : Cutter α) (handle : σ → List α → σ × Bool)

/-- Takes the pieces off a text one by one, until none is left or `handle` wants no more.  Gives
back the state, the text that is left and whether it went on to the end. -/
def drain (s : σ) (x : List α) : σ × List α × Bool :=
  match _h : C.cut x with
  | none => (s, x, true)
  | some (piece, rest) =>
    if (handle s piece).2 then drain (handle s piece).1 rest else ((handle s piece).1, rest, false)
termination_by x.length
decreasing_by exact C.cut_length _h

theorem drain_none {s : σ} {x : List α} (h : C.cut x = none) : C.drain handle s x = (s, x, true) := by
  rw [drain]
  split
  · rfl
  · rename_i hx
    simp [h] at hx

theorem drain_some {s : σ} {x piece rest : List α} (h : C.cut x = some (piece, rest)) :
    C.drain handle s x =
      if (handle s piece).2 then C.drain handle (handle s piece).1 rest
      else ((handle s piece).1, rest, false) := by
  rw [drain]
  split
  · rename_i hx
    simp [h] at hx
  · rename_i hx
    obtain ⟨rfl, rfl⟩ := Prod.mk.inj (Option.some.inj (h.symm.trans hx))
    rfl

/-- A rule for `drain`: what holds at the start and is kept by every piece holds of what is left. -/
theorem drain_induction {motive : σ → List α → Prop} {s : σ} {x : List α} (h : motive s x)
    (hstep : ∀ s x piece rest, C.cut x = some (piece, rest) → motive s x →
      motive (handle s piece).1 rest) :
    motive (C.drain handle s x).1 (C.drain handle s x).2.1 := by
  induction s, x using drain.induct C handle with
  | case1 s x hcut => rwa [C.drain_none handle hcut]
  | case2 s x piece rest hcut hon ih =>
    rw [C.drain_some handle hcut, if_pos hon]
    exact ih (hstep s x piece rest hcut h)
  | case3 s x piece rest hcut hon =>
    rw [C.drain_some handle hcut, if_neg hon]
    exact hstep s x piece rest hcut h

/-- What is left has no whole piece, unless the reader stopped. -/
theorem cut_drain {s : σ} {x : List α} (h : (C.drain handle s x).2.2 = true) :
    C.cut (C.drain handle s x).2.1 = none := by
  induction s, x using drain.induct C handle with
  | case1 s x hcut => rwa [C.drain_none handle hcut]
  | case2 s x piece rest hcut hon ih =>
    rw [C.drain_some handle hcut, if_pos hon] at h ⊢
    exact ih h
  | case3 s x piece rest hcut hon =>
    rw [C.drain_some handle hcut, if_neg hon] at h
    simp at h

/-- **A text in two halves**: the first is drained, and what it left goes in front of the second. -/
theorem drain_append (s : σ) (x y : List α) :
    C.drain handle s (x ++ y) =
      if (C.drain handle s x).2.2 then
        C.drain handle (C.drain handle s x).1 ((C.drain handle s x).2.1 ++ y)
      else ((C.drain handle s x).1, (C.drain handle s x).2.1 ++ y, false) := by
  induction s, x using drain.induct C handle with
  | case1 s x hcut => simp [C.drain_none handle hcut]
  | case2 s x piece rest hcut hon ih =>
    rw [C.drain_some handle hcut, C.drain_some handle (C.cut_append hcut y), if_pos hon, if_pos hon]
    exact ih
  | case3 s x piece rest hcut hon =>
    rw [C.drain_some handle hcut, C.drain_some handle (C.cut_append hcut y), if_neg hon, if_neg hon]
    simp

/-- One chunk: appended to what is left and drained, unless the reader has stopped. -/
def feed (t : σ × List α × Bool) (chunk : List α) : σ × List α × Bool :=
  if t.2.2 then C.drain handle t.1 (t.2.1 ++ chunk) else t

theorem foldl_feed_stopped {t : σ × List α × Bool} (h : t.2.2 = false) (chunks : List (List α)) :
    chunks.foldl (C.feed handle) t = t := by
  induction chunks with
  | nil => rfl
  | cons chunk chunks ih => rw [List.foldl_cons, feed, if_neg (by simp [h]), ih]

/-- **However a text is cut into chunks**, the reader ends in the state the whole text brings it to,
and has stopped or not. -/
theorem feeds_flatten {s : σ} {x : List α} (hx : C.cut x = none) (chunks : List (List α)) :
    (chunks.foldl (C.feed handle) (s, x, true)).1 = (C.drain handle s (x ++ chunks.flatten)).1 ∧
      (chunks.foldl (C.feed handle) (s, x, true)).2.2 =
        (C.drain handle s (x ++ chunks.flatten)).2.2 := by
  induction chunks generalizing s x with
  | nil => simp [C.drain_none handle hx]
  | cons chunk chunks ih =>
    rw [List.foldl_cons, feed, if_pos rfl, List.flatten_cons, ← List.append_assoc,
      C.drain_append handle s (x ++ chunk)]
    rcases hd : C.drain handle s (x ++ chunk) with ⟨s', rest, _ | _⟩
    · rw [C.foldl_feed_stopped handle rfl]
      simp
    · have hrest := C.cut_drain handle (s := s) (x := x ++ chunk) (by rw [hd])
      rw [hd] at hrest
      simpa using ih hrest

/-! ### The pieces -/

/-- The pieces of a text, and what is left of it. -/
def pieces (x : List α) : List (List α) × List α :=
  match _h : C.cut x with
  | none => ([], x)
  | some (piece, rest) => (piece :: (pieces rest).1, (pieces rest).2)
termination_by x.length
decreasing_by exact C.cut_length _h

theorem pieces_none {x : List α} (h : C.cut x = none) : C.pieces x = ([], x) := by
  rw [pieces]
  split
  · rfl
  · rename_i hx
    simp [h] at hx

theorem pieces_some {x piece rest : List α} (h : C.cut x = some (piece, rest)) :
    C.pieces x = (piece :: (C.pieces rest).1, (C.pieces rest).2) := by
  rw [pieces]
  split
  · rename_i hx
    simp [h] at hx
  · rename_i hx
    obtain ⟨rfl, rfl⟩ := Prod.mk.inj (Option.some.inj (h.symm.trans hx))
    rfl

/-- What is left holds no whole piece. -/
theorem cut_pieces (x : List α) : C.cut (C.pieces x).2 = none := by
  induction x using pieces.induct C with
  | case1 x hcut => rwa [C.pieces_none hcut]
  | case2 x piece rest hcut ih => rwa [C.pieces_some hcut]

/-- The pieces of a text whose first half came before. -/
theorem pieces_append (x y : List α) :
    C.pieces (x ++ y) = ((C.pieces x).1 ++ (C.pieces ((C.pieces x).2 ++ y)).1,
      (C.pieces ((C.pieces x).2 ++ y)).2) := by
  induction x using pieces.induct C with
  | case1 x hcut => rw [C.pieces_none hcut, List.nil_append]
  | case2 x piece rest hcut ih =>
    rw [C.pieces_some hcut, C.pieces_some (C.cut_append hcut y), ih]
    rfl

/-- **A reader that never stops** goes through the pieces, one after the other. -/
theorem drain_eq_pieces (hon : ∀ s piece, (handle s piece).2 = true) (s : σ) (x : List α) :
    C.drain handle s x =
      ((C.pieces x).1.foldl (fun s piece => (handle s piece).1) s, (C.pieces x).2, true) := by
  induction x using pieces.induct C generalizing s with
  | case1 x hcut => rw [C.drain_none handle hcut, C.pieces_none hcut, List.foldl_nil]
  | case2 x piece rest hcut ih =>
    rw [C.drain_some handle hcut, if_pos (hon s piece), ih, C.pieces_some hcut, List.foldl_cons]

/-- Where a cut loses nothing, the pieces and what is left are the text. -/
theorem pieces_flatten (hwhole : ∀ {x piece rest}, C.cut x = some (piece, rest) → piece ++ rest = x)
    (x : List α) : (C.pieces x).1.flatten ++ (C.pieces x).2 = x := by
  induction x using pieces.induct C with
  | case1 x hcut => rw [C.pieces_none hcut, List.flatten_nil, List.nil_append]
  | case2 x piece rest hcut ih =>
    rw [C.pieces_some hcut, List.flatten_cons, List.append_assoc, ih, hwhole hcut]

/-- What a reader leaves that did not stop. -/
theorem drain_rest {s : σ} {x : List α} (h : (C.drain handle s x).2.2 = true) :
    (C.drain handle s x).2.1 = (C.pieces x).2 := by
  induction x using pieces.induct C generalizing s with
  | case1 x hcut => rw [C.drain_none handle hcut, C.pieces_none hcut]
  | case2 x piece rest hcut ih =>
    rw [C.drain_some handle hcut] at h ⊢
    rw [C.pieces_some hcut]
    split_ifs at h ⊢ with hon
    exact ih h

/-- **Texts whose pieces are handled alike** bring the reader to the same state, and stop it or
not. -/
theorem drain_forall₂ {x y : List α} (h : List.Forall₂ (fun p q => ∀ s, handle s p = handle s q)
    (C.pieces x).1 (C.pieces y).1) (s : σ) :
    (C.drain handle s x).1 = (C.drain handle s y).1 ∧
      (C.drain handle s x).2.2 = (C.drain handle s y).2.2 := by
  induction x using pieces.induct C generalizing s y with
  | case1 x hcut =>
    rw [C.pieces_none hcut] at h
    have hy : C.cut y = none := by
      cases hy : C.cut y with
      | none => rfl
      | some p =>
        rw [C.pieces_some hy] at h
        cases h
    rw [C.drain_none handle hcut, C.drain_none handle hy]
    exact ⟨rfl, rfl⟩
  | case2 x piece rest hcut ih =>
    rw [C.pieces_some hcut] at h
    cases hy : C.cut y with
    | none =>
      rw [C.pieces_none hy] at h
      cases h
    | some p =>
      obtain ⟨piece', rest'⟩ := p
      rw [C.pieces_some hy] at h
      obtain ⟨hpiece, hrest⟩ := List.forall₂_cons.1 h
      rw [C.drain_some handle hcut, C.drain_some handle hy, hpiece s]
      split_ifs
      · exact ih hrest _
      · exact ⟨rfl, rfl⟩

end Cutter
end S2S
