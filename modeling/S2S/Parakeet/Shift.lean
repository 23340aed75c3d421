/-
# The relative shift of the encoder

The attention of the encoder scores a query against every relative position, row
by row, and `parakeet_rel_shift` of `src/fastconformer-forward.h` moves each row
so that a key stands where its position does: one zero in front of every row,
and the rows read with a stride one element short.  `parakeet_positions` writes
the table of the positions, the furthest ahead first.

The two belong together: what the shift reads for a query and a key is the score
of the row of the table that holds their distance (`relShift_positions`), never
the zero in front and never a score of another query.

The tensors are those of ggml, which comes from outside (`Ggml`): what is used of
it is what it says of itself (`Ggml.Documented`).  Sizes and offsets are those of
a buffer that fits in memory, and do not wrap.
-/

import Mathlib.Data.Fin.VecNotation
import Mathlib.Tactic.Ring
import S2S.Writes

namespace S2S
namespace Parakeet

/-! ### Tensors -/

/-- What the shift uses of ggml: the elements of a tensor of floats by its four indices, and the
floats of its data by their byte. -/
structure Ggml (F : Type) where
  Tensor : Type
  ne : Tensor → Fin 4 → ℕ
  get : Tensor → (Fin 4 → ℕ) → F
  mem : Tensor → ℕ → F
  padExt : Tensor → (lp0 rp0 lp1 rp1 lp2 rp2 lp3 rp3 : ℕ) → Tensor
  view3d : Tensor → (ne0 ne1 ne2 nb1 nb2 offset : ℕ) → Tensor
  cont : Tensor → Tensor

/-- `sizeof(float)`. -/
def floatSize : ℕ := 4

/-- The byte of an element of a contiguous tensor. -/
def byteOf (ne i : Fin 4 → ℕ) : ℕ := (i 0 + ne 0 * (i 1 + ne 1 * (i 2 + ne 2 * i 3))) * floatSize

/-- What ggml says of these: a pad puts zeros around a tensor and is contiguous, a view reads the
data of another at strides of its own, and making a tensor contiguous keeps its elements. -/
structure Ggml.Documented {F : Type} [Zero F] (g : Ggml F) : Prop where
  pad_ne : ∀ t lp0 rp0 lp1 rp1 lp2 rp2 lp3 rp3, g.ne (g.padExt t lp0 rp0 lp1 rp1 lp2 rp2 lp3 rp3) =
    ![lp0 + g.ne t 0 + rp0, lp1 + g.ne t 1 + rp1, lp2 + g.ne t 2 + rp2, lp3 + g.ne t 3 + rp3]
  pad_get : ∀ t lp0 rp0 lp1 rp1 lp2 rp2 lp3 rp3 i,
    (∀ k, i k < g.ne (g.padExt t lp0 rp0 lp1 rp1 lp2 rp2 lp3 rp3) k) →
      g.get (g.padExt t lp0 rp0 lp1 rp1 lp2 rp2 lp3 rp3) i =
        if (lp0 ≤ i 0 ∧ i 0 < lp0 + g.ne t 0) ∧ (lp1 ≤ i 1 ∧ i 1 < lp1 + g.ne t 1) ∧
            (lp2 ≤ i 2 ∧ i 2 < lp2 + g.ne t 2) ∧ (lp3 ≤ i 3 ∧ i 3 < lp3 + g.ne t 3) then
          g.get t ![i 0 - lp0, i 1 - lp1, i 2 - lp2, i 3 - lp3]
        else 0
  pad_mem : ∀ t lp0 rp0 lp1 rp1 lp2 rp2 lp3 rp3 i,
    (∀ k, i k < g.ne (g.padExt t lp0 rp0 lp1 rp1 lp2 rp2 lp3 rp3) k) →
      g.mem (g.padExt t lp0 rp0 lp1 rp1 lp2 rp2 lp3 rp3)
          (byteOf (g.ne (g.padExt t lp0 rp0 lp1 rp1 lp2 rp2 lp3 rp3)) i) =
        g.get (g.padExt t lp0 rp0 lp1 rp1 lp2 rp2 lp3 rp3) i
  view_get : ∀ t ne0 ne1 ne2 nb1 nb2 offset i,
    (∀ k, i k < ![ne0, ne1, ne2, 1] k) → g.get (g.view3d t ne0 ne1 ne2 nb1 nb2 offset) i =
      g.mem t (offset + i 0 * floatSize + i 1 * nb1 + i 2 * nb2)
  view_ne : ∀ t ne0 ne1 ne2 nb1 nb2 offset,
    g.ne (g.view3d t ne0 ne1 ne2 nb1 nb2 offset) = ![ne0, ne1, ne2, 1]
  cont_get : ∀ t i, g.get (g.cont t) i = g.get t i
  cont_ne : ∀ t, g.ne (g.cont t) = g.ne t

/-! ### The code -/

/-- The strides and the offset of the view of `parakeet_rel_shift`, in bytes. -/
structure ViewBytes where
  nb1 : ℕ
  nb2 : ℕ
  offset : ℕ

/-- What the view of `parakeet_rel_shift` is made with. -/
def shiftView (nTokens nPos : ℕ) : ViewBytes where
  nb1 := nPos * floatSize
  nb2 := nTokens * (nPos + 1) * floatSize
  offset := nTokens * floatSize

/-- `parakeet_rel_shift`. -/
def parakeetRelShift {F : Type} (g : Ggml F) (bd : g.Tensor) (nTokens : ℕ) : g.Tensor :=
  let nPos := g.ne bd 0
  let nHeads := g.ne bd 2
  let padded := g.padExt bd 1 0 0 0 0 0 0 0
  let view := shiftView nTokens nPos
  g.cont (g.view3d padded nTokens nTokens nHeads view.nb1 view.nb2 view.offset)

/-- What `parakeet_positions` uses of `double` and of `float`. -/
structure Trig (D F : Type) where
  ofInt : ℤ → D
  mul : D → D → D
  div : D → D → D
  neg : D → D
  pow : D → D → D
  sin : D → D
  cos : D → D
  toFloat : D → F

/-- The angle of a position in a pair of columns. -/
def Trig.angle {D F : Type} (t : Trig D F) (dModel : ℕ) (position : ℤ) (i : ℕ) : D :=
  let invFreq := t.pow (t.ofInt 10000) (t.div (t.neg (t.ofInt (2 * i))) (t.ofInt dModel))
  t.mul (t.ofInt position) invFreq

/-- The two writes of the inner loop of `parakeet_positions`. -/
def positionWrites {D F : Type} (t : Trig D F) (nTokens dModel p i : ℕ) : List (ℕ × F) :=
  let angle := t.angle dModel (nTokens - 1 - p) i
  [(p * dModel + 2 * i, t.toFloat (t.sin angle)), (p * dModel + (2 * i + 1), t.toFloat (t.cos angle))]

/-- `parakeet_positions`, for one token or more. -/
def parakeetPositions {D F : Type} [Zero F] (t : Trig D F) (nTokens dModel : ℕ) : List F :=
  let nPos := 2 * nTokens - 1
  (List.range nPos).foldl (fun out p =>
      (List.range (dModel / 2)).foldl (fun out i => fill out (positionWrites t nTokens dModel p i)) out)
    (List.replicate (nPos * dModel) 0)

/-! ### The table -/

section Table

variable {D F : Type} [Zero F] (t : Trig D F) (nTokens dModel : ℕ)

/-- All the writes of the table. -/
def tableWrites : List (ℕ × F) :=
  (List.range (2 * nTokens - 1)).flatMap fun p =>
    (List.range (dModel / 2)).flatMap fun i => positionWrites t nTokens dModel p i

theorem parakeetPositions_eq : parakeetPositions t nTokens dModel =
    fill (List.replicate ((2 * nTokens - 1) * dModel) 0) (tableWrites t nTokens dModel) := by
  unfold parakeetPositions tableWrites
  dsimp only
  simp only [foldl_fill]

/-- Where two rows and columns name one place, they are the same. -/
theorem place_inj {d p c p' c' : ℕ} (hc : c < d) (hc' : c' < d) (h : p * d + c = p' * d + c') :
    p = p' ∧ c = c' := by
  have hd : 0 < d := by omega
  have hrow : ∀ p c : ℕ, c < d → (p * d + c) / d = p := fun p c hc => by
    rw [Nat.mul_comm, Nat.mul_add_div hd, Nat.div_eq_of_lt hc, Nat.add_zero]
  have hp : p = p' := by rw [← hrow p c hc, h, hrow p' c' hc']
  subst hp
  exact ⟨rfl, by omega⟩

/-- **The rows of the table**: row `p` holds the relative position `T - 1 - p`, its sine and its cosine
at every frequency. -/
theorem getElem?_parakeetPositions {p i : ℕ} (hp : p < 2 * nTokens - 1) (hi : i < dModel / 2) :
    (parakeetPositions t nTokens dModel)[p * dModel + 2 * i]?
        = some (t.toFloat (t.sin (t.angle dModel (nTokens - 1 - p) i))) ∧
      (parakeetPositions t nTokens dModel)[p * dModel + (2 * i + 1)]?
        = some (t.toFloat (t.cos (t.angle dModel (nTokens - 1 - p) i))) := by
  have hmem : ∀ write ∈ positionWrites t nTokens dModel p i,
      write ∈ tableWrites t nTokens dModel := fun write hwrite =>
    List.mem_flatMap.2 ⟨p, List.mem_range.2 hp, List.mem_flatMap.2 ⟨i, List.mem_range.2 hi, hwrite⟩⟩
  have hroom : ∀ c < dModel, p * dModel + c <
      (List.replicate ((2 * nTokens - 1) * dModel) (0 : F)).length := by
    intro c hc
    have hrow : (p + 1) * dModel ≤ (2 * nTokens - 1) * dModel := Nat.mul_le_mul_right _ hp
    rw [List.length_replicate]
    rw [Nat.add_mul, Nat.one_mul] at hrow
    omega
  have hagree : ∀ write ∈ tableWrites t nTokens dModel,
      (write.1 = p * dModel + 2 * i →
        write.2 = t.toFloat (t.sin (t.angle dModel (nTokens - 1 - p) i))) ∧
      (write.1 = p * dModel + (2 * i + 1) →
        write.2 = t.toFloat (t.cos (t.angle dModel (nTokens - 1 - p) i))) := by
    intro write hwrite
    obtain ⟨p', hp', hwrite⟩ := List.mem_flatMap.1 hwrite
    obtain ⟨i', hi', hwrite⟩ := List.mem_flatMap.1 hwrite
    rw [List.mem_range] at hi'
    rcases List.mem_cons.1 hwrite with rfl | hwrite
    · refine ⟨fun heq => ?_, fun heq => ?_⟩
      · obtain ⟨rfl, hcol⟩ := place_inj (by omega) (by omega) heq
        obtain rfl : i' = i := by omega
        rfl
      · have := (place_inj (by omega) (by omega) heq).2
        omega
    · obtain rfl := List.mem_singleton.1 hwrite
      refine ⟨fun heq => ?_, fun heq => ?_⟩
      · have := (place_inj (by omega) (by omega) heq).2
        omega
      · obtain ⟨rfl, hcol⟩ := place_inj (by omega) (by omega) heq
        obtain rfl : i' = i := by omega
        rfl
  rw [parakeetPositions_eq]
  exact ⟨getElem?_fill (hroom _ (by omega)) (hmem _ (List.mem_cons_self ..))
      fun write hwrite => (hagree write hwrite).1,
    getElem?_fill (hroom _ (by omega))
      (hmem _ (List.mem_cons_of_mem _ (List.mem_singleton.2 rfl)))
      fun write hwrite => (hagree write hwrite).2⟩

end Table

/-! ### The shift -/

/-- **The byte that is read** for query `i` and key `j`: one of the row of query `i` in the padded
scores, `T - i + j` elements into it. -/
theorem byte_relShift {nTokens i j : ℕ} (head : ℕ) (hi : i < nTokens) :
    (shiftView nTokens (2 * nTokens - 1)).offset + j * floatSize
        + i * (shiftView nTokens (2 * nTokens - 1)).nb1
        + head * (shiftView nTokens (2 * nTokens - 1)).nb2 =
      byteOf ![2 * nTokens, nTokens, 0, 0] ![nTokens - i + j, i, head, 0] := by
  obtain ⟨k, rfl⟩ := Nat.exists_eq_add_of_lt hi
  have hpos : 2 * (i + k + 1) - 1 = 2 * (i + k) + 1 := by omega
  have hcol : i + k + 1 - i + j = k + 1 + j := by omega
  simp only [shiftView, byteOf, floatSize, hpos, hcol, Matrix.cons_val]
  ring

theorem index_lt {i₀ i₁ i₂ i₃ n₀ n₁ n₂ n₃ : ℕ} (h₀ : i₀ < n₀) (h₁ : i₁ < n₁) (h₂ : i₂ < n₂)
    (h₃ : i₃ < n₃) : ∀ k : Fin 4, ![i₀, i₁, i₂, i₃] k < ![n₀, n₁, n₂, n₃] k := by
  simp only [Fin.forall_fin_succ]
  exact ⟨h₀, h₁, h₂, h₃, fun k => k.elim0⟩

section Shift

variable {F : Type} [Zero F] {g : Ggml F} {bd : g.Tensor} {nTokens nHeads : ℕ}

/-- The shape of the padded scores. -/
theorem ne_padded (hg : g.Documented) (hne : g.ne bd = ![2 * nTokens - 1, nTokens, nHeads, 1])
    (hpos : 0 < nTokens) :
    g.ne (g.padExt bd 1 0 0 0 0 0 0 0) = ![2 * nTokens, nTokens, nHeads, 1] := by
  have hfirst : 1 + (2 * nTokens - 1) + 0 = 2 * nTokens := by omega
  rw [hg.pad_ne, hne]
  simp [hfirst]

/-- The padded scores at the byte of a score. -/
theorem mem_padded (hg : g.Documented) (hne : g.ne bd = ![2 * nTokens - 1, nTokens, nHeads, 1])
    {column i head : ℕ} (hlo : 0 < column) (hhi : column < 2 * nTokens) (hi : i < nTokens)
    (hhead : head < nHeads) :
    g.mem (g.padExt bd 1 0 0 0 0 0 0 0)
        (byteOf ![2 * nTokens, nTokens, nHeads, 1] ![column, i, head, 0]) =
      g.get bd ![column - 1, i, head, 0] := by
  have hshape := ne_padded hg hne (by omega)
  have hrange : ∀ k, ![column, i, head, 0] k < g.ne (g.padExt bd 1 0 0 0 0 0 0 0) k := by
    rw [hshape]
    exact index_lt hhi hi hhead Nat.one_pos
  rw [← hshape, hg.pad_mem _ _ _ _ _ _ _ _ _ _ hrange, hg.pad_get _ _ _ _ _ _ _ _ _ _ hrange,
    if_pos]
  · simp
  · rw [hne]
    simp only [Matrix.cons_val]
    omega

/-- **What the shift reads**, for every query, key and head: the score of the query at position
`T - 1 - i + j`, from its own place in the padded scores, which is neither the zero in front nor in
the row of another query; and that position is the row of the table which holds the distance of the
two. -/
theorem relShift_positions {D : Type} (t : Trig D F) (hg : g.Documented)
    (hne : g.ne bd = ![2 * nTokens - 1, nTokens, nHeads, 1]) (dModel : ℕ) {i j head : ℕ}
    (hi : i < nTokens) (hj : j < nTokens) (hhead : head < nHeads) :
    g.get (parakeetRelShift g bd nTokens) ![j, i, head, 0]
        = g.get bd ![nTokens - 1 - i + j, i, head, 0] ∧
      (shiftView nTokens (g.ne bd 0)).offset + j * floatSize
          + i * (shiftView nTokens (g.ne bd 0)).nb1 + head * (shiftView nTokens (g.ne bd 0)).nb2 =
        byteOf (g.ne (g.padExt bd 1 0 0 0 0 0 0 0)) ![nTokens - 1 - i + j + 1, i, head, 0] ∧
      nTokens - 1 - i + j < g.ne bd 0 ∧
      ∀ c < dModel / 2,
        (parakeetPositions t nTokens dModel)[(nTokens - 1 - i + j) * dModel + 2 * c]?
            = some (t.toFloat (t.sin (t.angle dModel (i - j) c))) ∧
          (parakeetPositions t nTokens dModel)[(nTokens - 1 - i + j) * dModel + (2 * c + 1)]?
            = some (t.toFloat (t.cos (t.angle dModel (i - j) c))) := by
  have hcolumn : nTokens - 1 - i + j + 1 = nTokens - i + j := by omega
  have hshape := ne_padded hg hne (by omega)
  have hpositions : g.ne bd 0 = 2 * nTokens - 1 := by rw [hne]; rfl
  have hheads : g.ne bd 2 = nHeads := by rw [hne]; rfl
  have hbyte : (shiftView nTokens (2 * nTokens - 1)).offset + j * floatSize
        + i * (shiftView nTokens (2 * nTokens - 1)).nb1
        + head * (shiftView nTokens (2 * nTokens - 1)).nb2 =
      byteOf ![2 * nTokens, nTokens, nHeads, 1] ![nTokens - i + j, i, head, 0] :=
    byte_relShift head hi
  refine ⟨?_, ?_, ?_, fun c hc => ?_⟩
  · have hrange := index_lt hj hi hhead Nat.one_pos
    unfold parakeetRelShift
    dsimp only
    rw [hg.cont_get, hpositions, hheads, hg.view_get _ _ _ _ _ _ _ _ hrange]
    simp only [Matrix.cons_val]
    rw [hbyte, mem_padded hg hne (by omega) (by omega) hi hhead]
    congr 2
    omega
  · rw [hpositions, hshape, hbyte, hcolumn]
  · rw [hpositions]
    omega
  · have hlast : nTokens - 1 - i + j < 2 * nTokens - 1 := by omega
    have hrow := getElem?_parakeetPositions t nTokens dModel hlast hc
    have hdistance : (nTokens : ℤ) - 1 - (nTokens - 1 - i + j : ℕ) = i - j := by omega
    rwa [hdistance] at hrow

end Shift

/-! ### A ggml that does what it says -/

/-- A tensor by its elements and its data. -/
structure Dense (F : Type) where
  ne : Fin 4 → ℕ
  get : (Fin 4 → ℕ) → F
  mem : ℕ → F

/-- The element at a byte of a contiguous tensor. -/
def elementAt (ne : Fin 4 → ℕ) (byte : ℕ) : Fin 4 → ℕ :=
  let n := byte / floatSize
  ![n % ne 0, n / ne 0 % ne 1, n / ne 0 / ne 1 % ne 2, n / ne 0 / ne 1 / ne 2]

/-- A contiguous tensor of these elements. -/
def Dense.contiguous {F : Type} (ne : Fin 4 → ℕ) (get : (Fin 4 → ℕ) → F) : Dense F :=
  ⟨ne, get, fun byte => get (elementAt ne byte)⟩

theorem elementAt_byteOf {ne i : Fin 4 → ℕ} (h : ∀ k, i k < ne k) : elementAt ne (byteOf ne i) = i := by
  have hdiv : ∀ {n x : ℕ} (y : ℕ), x < n → (x + n * y) / n = y := fun y hx => by
    rw [Nat.add_mul_div_left _ _ (by omega), Nat.div_eq_of_lt hx, Nat.zero_add]
  have hmod : ∀ {n x : ℕ} (y : ℕ), x < n → (x + n * y) % n = x := fun y hx => by
    rw [Nat.add_mul_mod_self_left, Nat.mod_eq_of_lt hx]
  unfold elementAt byteOf
  rw [Nat.mul_div_cancel _ (show 0 < floatSize by decide)]
  simp only [hdiv _ (h 0), hmod _ (h 0), hdiv _ (h 1), hmod _ (h 1), hdiv _ (h 2), hmod _ (h 2)]
  funext k
  revert k
  simp [Fin.forall_fin_succ]

theorem Dense.mem_contiguous {F : Type} {ne i : Fin 4 → ℕ} (get : (Fin 4 → ℕ) → F)
    (h : ∀ k, i k < ne k) : (Dense.contiguous ne get).mem (byteOf ne i) = get i :=
  congrArg get (elementAt_byteOf h)

/-- Tensors that are what ggml says. -/
def dense (F : Type) [Zero F] : Ggml F where
  Tensor := Dense F
  ne := Dense.ne
  get := Dense.get
  mem := Dense.mem
  padExt t lp0 rp0 lp1 rp1 lp2 rp2 lp3 rp3 := .contiguous
    ![lp0 + t.ne 0 + rp0, lp1 + t.ne 1 + rp1, lp2 + t.ne 2 + rp2, lp3 + t.ne 3 + rp3]
    fun i =>
      if (lp0 ≤ i 0 ∧ i 0 < lp0 + t.ne 0) ∧ (lp1 ≤ i 1 ∧ i 1 < lp1 + t.ne 1) ∧
          (lp2 ≤ i 2 ∧ i 2 < lp2 + t.ne 2) ∧ (lp3 ≤ i 3 ∧ i 3 < lp3 + t.ne 3) then
        t.get ![i 0 - lp0, i 1 - lp1, i 2 - lp2, i 3 - lp3]
      else 0
  view3d t ne0 ne1 ne2 nb1 nb2 offset :=
    ⟨![ne0, ne1, ne2, 1], fun i => t.mem (offset + i 0 * floatSize + i 1 * nb1 + i 2 * nb2),
      fun byte => t.mem (offset + byte)⟩
  cont t := .contiguous t.ne t.get

theorem dense_documented (F : Type) [Zero F] : (dense F).Documented where
  pad_ne _ _ _ _ _ _ _ _ _ := rfl
  pad_get _ _ _ _ _ _ _ _ _ _ _ := rfl
  pad_mem t lp0 rp0 lp1 rp1 lp2 rp2 lp3 rp3 _ h :=
    Dense.mem_contiguous ((dense F).get ((dense F).padExt t lp0 rp0 lp1 rp1 lp2 rp2 lp3 rp3)) h
  view_get _ _ _ _ _ _ _ _ _ := rfl
  view_ne _ _ _ _ _ _ _ := rfl
  cont_get _ _ := rfl
  cont_ne _ := rfl

/-- Two tokens and one head, each score ten for its query and one for its position. -/
def twoTokens : Dense ℤ := .contiguous ![3, 2, 1, 1] fun i => 10 * i 1 + i 0

/-- The second query against the first key, at the position one behind. -/
theorem relShift_positions_two :
    (dense ℤ).get (parakeetRelShift (dense ℤ) twoTokens 2) ![0, 1, 0, 0] = 10 :=
  have hread := (@relShift_positions ℤ _ (dense ℤ) twoTokens 2 1 ℤ
    ⟨id, (· * ·), (· / ·), (- ·), fun x _ => x, id, id, id⟩ (dense_documented ℤ) rfl 2 1 0 0
    (by decide) (by decide) (by decide)).1
  hread.trans rfl

end Parakeet
end S2S
