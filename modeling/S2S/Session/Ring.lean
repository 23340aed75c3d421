/-
# The ring of recent samples

`SampleRing` of `src/s2s-session.cpp`: the most recent samples of a stream in an
array that wraps around, so that nothing moves on a push.  What it is for is a
list that is cut at the front: a push appends and keeps the last samples that
fit (`read_push`), a new capacity keeps the last ones that still do
(`read_resize`).

`slots` is the array from its oldest slot on, the view in which both are read
off.
-/

import Mathlib.Data.List.DropRight
import Mathlib.Data.List.Rotate

namespace S2S
namespace Session

variable {α : Type}

/-- `SampleRing`: `head` is where the next sample goes, `size` how many are
held. -/
structure SampleRing (α : Type) where
  data : List α
  head : ℕ
  size : ℕ
  head_lt : data ≠ [] → head < data.length
  size_le : size ≤ data.length

namespace SampleRing

/-- A ring without room. -/
def empty : SampleRing α := ⟨[], 0, 0, fun h => absurd rfl h, le_rfl⟩

/-- The slot after `i`. -/
def next (capacity i : ℕ) : ℕ := if i + 1 = capacity then 0 else i + 1

/-- One sample into its slot. -/
def put (r : SampleRing α) (x : α) : SampleRing α where
  data := r.data.set r.head x
  head := if r.data = [] then r.head else next r.data.length r.head
  size := r.size
  head_lt := by
    intro h
    have hne : r.data ≠ [] := fun h' => h (by simp [h'])
    have := r.head_lt hne
    rw [if_neg hne, next, List.length_set]
    split_ifs <;> omega
  size_le := by simpa using r.size_le

@[simp] theorem length_data_put (r : SampleRing α) (x : α) :
    (r.put x).data.length = r.data.length := by
  simp [put]

theorem length_data_foldl_put (xs : List α) (r : SampleRing α) :
    (xs.foldl put r).data.length = r.data.length := by
  induction xs generalizing r with
  | nil => rfl
  | cons x xs ih => rw [List.foldl_cons, ih, length_data_put]

/-- `SampleRing::push`. -/
def push (r : SampleRing α) (xs : List α) : SampleRing α :=
  { xs.foldl put r with
    size := min (r.size + xs.length) r.data.length
    size_le := by rw [length_data_foldl_put]; exact min_le_right _ _ }

@[simp] theorem length_data_push (r : SampleRing α) (xs : List α) :
    (r.push xs).data.length = r.data.length :=
  length_data_foldl_put xs r

/-- `n` slots from `i` on. -/
def readFrom (data : List α) : ℕ → ℕ → List α
  | _, 0 => []
  | i, n + 1 => (data[i]?).toList ++ readFrom data (next data.length i) n

/-- `SampleRing::read`: what is held, oldest first. -/
def read (r : SampleRing α) : List α :=
  readFrom r.data
    ((r.head + r.data.length - r.size) % (if r.data.length = 0 then 1 else r.data.length)) r.size

/-- `SampleRing::resize`. -/
def resize (zero : α) (r : SampleRing α) (capacity : ℕ) : SampleRing α :=
  let held := r.read
  let fresh : SampleRing α :=
    ⟨List.replicate capacity zero, 0, 0, fun h => by
      simpa [Nat.pos_iff_ne_zero] using h, Nat.zero_le _⟩
  fresh.push (held.drop (held.length - min held.length capacity))

/-! ### The slots in order -/

/-- The array from its oldest slot on. -/
def slots (r : SampleRing α) : List α := r.data.rotate r.head

@[simp] theorem length_slots (r : SampleRing α) : r.slots.length = r.data.length := by
  simp [slots]

theorem slots_put (r : SampleRing α) (x : α) :
    (r.put x).slots = (r.slots ++ [x]).drop 1 := by
  by_cases hne : r.data = []
  · simp [slots, put, hne]
  · have hlt := r.head_lt hne
    have hset : r.data.set r.head x = r.data.take r.head ++ x :: r.data.drop (r.head + 1) := by
      rw [List.set_eq_take_append_cons_drop, if_pos hlt]
    have hnew : (r.put x).slots = r.data.drop (r.head + 1) ++ r.data.take r.head ++ [x] := by
      unfold slots put
      dsimp only
      rw [if_neg hne, hset, next]
      split_ifs with hlast
      · have hdrop : r.data.drop (r.head + 1) = [] := by simp [hlast]
        simp [hdrop]
      · have hlen : (r.data.take r.head ++ [x]).length = r.head + 1 := by simp; omega
        have := List.rotate_append_length_eq (r.data.take r.head ++ [x]) (r.data.drop (r.head + 1))
        rw [hlen] at this
        simpa using this
    have hold : r.slots = r.data[r.head] :: (r.data.drop (r.head + 1) ++ r.data.take r.head) := by
      rw [slots, List.rotate_eq_drop_append_take hlt.le, List.drop_eq_getElem_cons hlt,
        List.cons_append]
    rw [hnew, hold]
    simp

theorem slots_push (r : SampleRing α) (xs : List α) :
    (r.push xs).slots = (r.slots ++ xs).drop xs.length := by
  have hfold : (xs.foldl put r).slots = (r.slots ++ xs).drop xs.length := by
    induction xs generalizing r with
    | nil => simp
    | cons x xs ih =>
      rw [List.foldl_cons, ih, slots_put]
      by_cases hs : r.slots = []
      · simp [hs]
      · obtain ⟨y, ys, hy⟩ := List.exists_cons_of_ne_nil hs
        simp [hy]
  exact hfold

theorem readFrom_eq (data : List α) {i n : ℕ} (hi : i < data.length) (hn : n ≤ data.length) :
    readFrom data i n = (data.rotate i).take n := by
  induction n generalizing i with
  | zero => simp [readFrom]
  | succ n ih =>
    have hnext : next data.length i < data.length := by
      unfold next
      split_ifs <;> omega
    have hrot : data.rotate (next data.length i) = data.rotate (i + 1) := by
      unfold next
      split_ifs with hlast
      · rw [hlast, List.rotate_zero, List.rotate_length]
      · rfl
    have hone : data.rotate i = data[i] :: (data.drop (i + 1) ++ data.take i) := by
      rw [List.rotate_eq_drop_append_take hi.le, List.drop_eq_getElem_cons hi, List.cons_append]
    have htwo : data.rotate (i + 1) = data.drop (i + 1) ++ data.take i ++ [data[i]] := by
      rw [← List.rotate_rotate, hone]
      simp
    have hlen : (data.drop (i + 1) ++ data.take i).length = data.length - 1 := by simp; omega
    rw [readFrom, ih hnext (by omega), hrot, hone, htwo, List.getElem?_eq_getElem hi,
      List.take_append_of_le_length (by omega)]
    rfl

/-- **What is read is the last samples of the slots.** -/
theorem read_eq (r : SampleRing α) : r.read = r.slots.rtake r.size := by
  have hsize := r.size_le
  by_cases hne : r.data = []
  · have h0 : r.size = 0 := by simpa [hne] using hsize
    simp [read, h0, readFrom]
  · have hpos : 0 < r.data.length := List.length_pos_iff.2 hne
    have hlt := r.head_lt hne
    have hstart : r.data.rotate ((r.head + r.data.length - r.size) % r.data.length)
        = r.slots.rotate (r.data.length - r.size) := by
      rw [List.rotate_mod, slots, List.rotate_rotate]
      congr 1
      omega
    rw [read, if_neg hpos.ne', readFrom_eq r.data (Nat.mod_lt _ hpos) hsize, hstart,
      List.rotate_eq_drop_append_take (by simp), List.rtake, length_slots]
    exact List.take_left' (by simp; omega)

@[simp] theorem length_read (r : SampleRing α) : r.read.length = r.size := by
  have := r.size_le
  simp [read_eq, List.rtake]
  omega

/-- **A push appends, and keeps the last samples that fit.** -/
theorem read_push (r : SampleRing α) (xs : List α) :
    (r.push xs).read = (r.read ++ xs).rtake r.data.length := by
  have hsize := r.size_le
  have hread : r.read ++ xs = (r.slots ++ xs).drop (r.data.length - r.size) := by
    rw [read_eq, List.rtake, length_slots, List.drop_append_of_le_length (by simp)]
  rw [read_eq, slots_push, hread]
  simp only [List.rtake, List.drop_drop, List.length_drop, List.length_append, length_slots]
  congr 1
  change xs.length + (r.data.length + xs.length - xs.length
    - min (r.size + xs.length) r.data.length) = _
  omega

/-- **A new capacity keeps the last samples that fit.** -/
theorem read_resize (zero : α) (r : SampleRing α) (capacity : ℕ) :
    (r.resize zero capacity).read = r.read.rtake capacity := by
  have hsize := r.size_le
  unfold resize
  dsimp only
  rw [read_push]
  simp only [read, readFrom, List.nil_append, List.rtake, List.length_replicate,
    List.length_drop, List.drop_drop]
  congr 1
  omega

@[simp] theorem length_data_resize (zero : α) (r : SampleRing α) (capacity : ℕ) :
    (r.resize zero capacity).data.length = capacity := by
  simp [resize]

end SampleRing

end Session
end S2S
