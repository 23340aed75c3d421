/-
# The ring against the list it stands for

`SampleRing` again, this time with every access and every division of
`src/s2s-session.cpp` checked: `Fields` may hold anything, and an operation on
them is undone (`none`) by an index outside the array, a division by zero or a
difference below zero.  None of it ever happens to a ring that was built by its
own operations, and what is read of it is what `Recent` holds, the samples
themselves with no array behind them (`ring_refines`).

The invariant that carries this is the one `SampleRing` has in its fields; the
checked operations agree with those of `SampleRing` (`push_fields`,
`read_fields`, `resize_fields`), and these with the list.
-/

import S2S.Session.Ring

namespace S2S
namespace Session

variable {α : Type}

/-! ### The code, checked -/

/-- The fields of `SampleRing`, whatever is in them. -/
structure Fields (α : Type) where
  data : List α := []
  head : ℕ := 0
  size : ℕ := 0

namespace Fields

/-- `data[head] = x`, and the head goes on. -/
def store (r : Fields α) (x : α) : Option (Fields α) :=
  if r.head < r.data.length then
    some { r with
      data := r.data.set r.head x
      head := if r.head + 1 = r.data.length then 0 else r.head + 1 }
  else none

/-- `SampleRing::push`; the loop does not run without room. -/
def push (r : Fields α) (samples : List α) : Option (Fields α) :=
  (if 0 < r.data.length then samples.foldlM store r else some r).map fun filled =>
    { filled with size := min (r.size + samples.length) r.data.length }

/-- The loop of `SampleRing::read`, for `n` samples from `slot` on. -/
def readFrom (data : List α) : ℕ → ℕ → Option (List α)
  | _, 0 => some []
  | slot, n + 1 => do
    let x ← data[slot]?
    let rest ← readFrom data (if slot + 1 = data.length then 0 else slot + 1) n
    some (x :: rest)

/-- `n % d`. -/
def modulo (n d : ℕ) : Option ℕ := if d = 0 then none else some (n % d)

/-- `n - m`. -/
def minus (n m : ℕ) : Option ℕ := if m ≤ n then some (n - m) else none

/-- `SampleRing::read`. -/
def read (r : Fields α) : Option (List α) := do
  let behind ← minus (r.head + r.data.length) r.size
  let slot ← modulo behind (if r.data.length ≠ 0 then r.data.length else 1)
  readFrom r.data slot r.size

/-- `SampleRing::resize`: the samples it keeps are pushed again. -/
def resize (zero : α) (r : Fields α) (capacity : ℕ) : Option (Fields α) := do
  let held ← r.read
  let start ← minus held.length (min held.length capacity)
  push ⟨List.replicate capacity zero, 0, 0⟩ (held.drop start)

end Fields

/-! ### The checks against the invariant -/

namespace SampleRing

/-- The fields of a ring. -/
def fields (r : SampleRing α) : Fields α := ⟨r.data, r.head, r.size⟩

theorem store_fields (r : SampleRing α) (hroom : 0 < r.data.length) (x : α) :
    r.fields.store x = some (r.put x).fields := by
  have hne : r.data ≠ [] := List.length_pos_iff.1 hroom
  have hput : (r.put x).fields = ⟨r.data.set r.head x,
      if r.head + 1 = r.data.length then 0 else r.head + 1, r.size⟩ := by
    simp only [fields, put, next, if_neg hne]
  rw [hput]
  exact if_pos (r.head_lt hne)

theorem foldlM_fields (samples : List α) (r : SampleRing α) (hroom : 0 < r.data.length) :
    samples.foldlM Fields.store r.fields = some (samples.foldl put r).fields := by
  induction samples generalizing r with
  | nil => rfl
  | cons x samples ih =>
    rw [List.foldlM_cons, store_fields r hroom x]
    exact ih (r.put x) (by rwa [length_data_put])

/-- A ring without room stays as it is. -/
theorem foldl_put_eq (samples : List α) (r : SampleRing α) (hroom : r.data.length = 0) :
    (samples.foldl put r).fields = r.fields := by
  induction samples generalizing r with
  | nil => rfl
  | cons x samples ih =>
    have hdata : r.data = [] := List.length_eq_zero_iff.1 hroom
    rw [List.foldl_cons, ih (r.put x) (by rwa [length_data_put])]
    simp [fields, put, hdata]

/-- **A push stores inside the array.** -/
theorem push_fields (r : SampleRing α) (samples : List α) :
    r.fields.push samples = some (r.push samples).fields := by
  have hsize : ∀ filled : SampleRing α, filled.fields = (samples.foldl put r).fields →
      ({ filled.fields with size := min (r.size + samples.length) r.data.length } : Fields α)
        = (r.push samples).fields := fun filled h => by
    rw [h]
    rfl
  unfold Fields.push
  by_cases hroom : 0 < r.data.length
  · rw [show (if 0 < r.fields.data.length then samples.foldlM Fields.store r.fields
      else some r.fields) = some (samples.foldl put r).fields from
      (if_pos hroom).trans (foldlM_fields samples r hroom)]
    exact congrArg some (hsize _ rfl)
  · rw [show (if 0 < r.fields.data.length then samples.foldlM Fields.store r.fields
      else some r.fields) = some r.fields from if_neg hroom]
    exact congrArg some (hsize r (foldl_put_eq samples r (by omega)).symm)

theorem readFrom_fields (data : List α) {i n : ℕ} (hi : n = 0 ∨ i < data.length) :
    Fields.readFrom data i n = some (readFrom data i n) := by
  induction n generalizing i with
  | zero => rfl
  | succ n ih =>
    have hlt : i < data.length := hi.resolve_left (Nat.succ_ne_zero n)
    have hnext : (if i + 1 = data.length then 0 else i + 1) < data.length := by
      split_ifs <;> omega
    rw [Fields.readFrom, readFrom, List.getElem?_eq_getElem hlt, ih (.inr hnext)]
    rfl

/-- **A read loads from inside the array**, and divides by something. -/
theorem read_fields (r : SampleRing α) : r.fields.read = some r.read := by
  have hsize := r.size_le
  have hminus : Fields.minus (r.fields.head + r.fields.data.length) r.fields.size
      = some (r.head + r.data.length - r.size) :=
    if_pos (show r.size ≤ r.head + r.data.length by omega)
  unfold Fields.read
  rw [hminus, Option.bind_eq_bind, Option.bind_some]
  by_cases hroom : r.data.length = 0
  · have hnone : r.size = 0 := by omega
    simp [fields, Fields.modulo, hroom, hnone, Fields.readFrom, read, readFrom]
  · have hmod : Fields.modulo (r.head + r.data.length - r.size)
        (if r.fields.data.length ≠ 0 then r.fields.data.length else 1)
        = some ((r.head + r.data.length - r.size) % r.data.length) :=
      (congrArg _ (if_pos hroom)).trans (if_neg hroom)
    have hstart : (r.head + r.data.length - r.size) % r.data.length < r.data.length :=
      Nat.mod_lt _ (Nat.pos_of_ne_zero hroom)
    rw [hmod, Option.bind_some, read, if_neg hroom]
    exact readFrom_fields r.data (.inr hstart)

/-- **A new capacity** keeps what fits, by the same two. -/
theorem resize_fields (zero : α) (r : SampleRing α) (capacity : ℕ) :
    r.fields.resize zero capacity = some (r.resize zero capacity).fields := by
  have hminus : Fields.minus r.read.length (min r.read.length capacity)
      = some (r.read.length - min r.read.length capacity) := if_pos (min_le_left _ _)
  obtain ⟨fresh, hfresh, hpush⟩ : ∃ fresh : SampleRing α,
      fresh.fields = ⟨List.replicate capacity zero, 0, 0⟩ ∧ r.resize zero capacity
        = fresh.push (r.read.drop (r.read.length - min r.read.length capacity)) := ⟨_, rfl, rfl⟩
  unfold Fields.resize
  rw [read_fields, Option.bind_eq_bind, Option.bind_some, hminus, Option.bind_eq_bind,
    Option.bind_some, hpush, ← hfresh]
  exact push_fields _ _

end SampleRing

/-! ### What it stands for -/

/-- The last `capacity` samples of a stream. -/
structure Recent (α : Type) where
  capacity : ℕ
  held : List α
  held_le : held.length ≤ capacity

theorem length_rtake_le (samples : List α) (n : ℕ) : (samples.rtake n).length ≤ n := by
  rw [List.rtake, List.length_drop]
  omega

/-- Samples come in, and the last ones stay. -/
def Recent.push (m : Recent α) (samples : List α) : Recent α :=
  ⟨m.capacity, (m.held ++ samples).rtake m.capacity, length_rtake_le _ _⟩

/-- Another capacity, and the last ones that fit stay. -/
def Recent.resize (m : Recent α) (capacity : ℕ) : Recent α :=
  ⟨capacity, m.held.rtake capacity, length_rtake_le _ _⟩

/-! ### Runs -/

/-- What is done to a ring. -/
inductive RingOp (α : Type)
  | push (samples : List α)
  | resize (capacity : ℕ)

def Fields.apply (zero : α) (r : Fields α) : RingOp α → Option (Fields α)
  | .push samples => r.push samples
  | .resize capacity => r.resize zero capacity

def Recent.apply (m : Recent α) : RingOp α → Recent α
  | .push samples => m.push samples
  | .resize capacity => m.resize capacity

/-- A ring and the list it stands for. -/
structure SampleRing.Holds (r : SampleRing α) (m : Recent α) : Prop where
  capacity : r.data.length = m.capacity
  held : r.read = m.held

/-- **One operation**: no check fails, and the ring still stands for the list. -/
theorem SampleRing.Holds.apply (zero : α) {r : SampleRing α} {m : Recent α} (h : r.Holds m)
    (op : RingOp α) :
    ∃ r' : SampleRing α, r.fields.apply zero op = some r'.fields ∧ r'.Holds (m.apply op) := by
  cases op with
  | push samples =>
    refine ⟨r.push samples, r.push_fields samples, ?_, ?_⟩
    · rw [length_data_push, h.capacity]
      rfl
    · rw [read_push, h.held, h.capacity]
      rfl
  | resize capacity =>
    refine ⟨r.resize zero capacity, r.resize_fields zero capacity, ?_, ?_⟩
    · rw [length_data_resize]
      rfl
    · rw [read_resize, h.held]
      rfl

/-- **The ring refines the list**: after any pushes and new capacities, none of which left the array or
divided by zero, neither does a read, and it has what the list holds. -/
theorem ring_refines (zero : α) (ops : List (RingOp α)) :
    ∃ r : Fields α, ops.foldlM (Fields.apply zero) {} = some r ∧
      r.data.length = (ops.foldl Recent.apply ⟨0, [], le_rfl⟩).capacity ∧
      r.read = some (ops.foldl Recent.apply ⟨0, [], le_rfl⟩).held := by
  have hrun : ∀ (r : SampleRing α) (m : Recent α), r.Holds m → ∃ r' : SampleRing α,
      ops.foldlM (Fields.apply zero) r.fields = some r'.fields ∧
        r'.Holds (ops.foldl Recent.apply m) := by
    induction ops with
    | nil => exact fun r m h => ⟨r, rfl, h⟩
    | cons op ops ih =>
      intro r m h
      obtain ⟨next, happly, hnext⟩ := h.apply zero op
      obtain ⟨last, hlast, hholds⟩ := ih next _ hnext
      refine ⟨last, ?_, hholds⟩
      rw [List.foldlM_cons, happly]
      exact hlast
  obtain ⟨r, hrun, hholds⟩ := hrun .empty ⟨0, [], le_rfl⟩ ⟨rfl, rfl⟩
  refine ⟨r.fields, hrun, hholds.capacity, ?_⟩
  rw [r.read_fields, hholds.held]

end Session
end S2S
