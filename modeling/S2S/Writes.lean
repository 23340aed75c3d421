/-
# An array filled by writes

A list of writes, each a place and a value, done one after the other.  Where the
writes to a place agree the order does not matter: the place holds that value
(`getElem?_fill`); where there are none it holds what it held
(`getElem?_fill_of_forall_ne`).
-/

import Mathlib.Data.List.Basic

namespace S2S

variable {α : Type*}

/-- The writes, from the first on. -/
def fill (xs : List α) (writes : List (ℕ × α)) : List α :=
  writes.foldl (fun xs write => xs.set write.1 write.2) xs

@[simp] theorem fill_nil (xs : List α) : fill xs [] = xs := rfl

@[simp] theorem fill_cons (xs : List α) (write : ℕ × α) (writes : List (ℕ × α)) :
    fill xs (write :: writes) = fill (xs.set write.1 write.2) writes := rfl

theorem fill_append (xs : List α) (writes more : List (ℕ × α)) :
    fill xs (writes ++ more) = fill (fill xs writes) more :=
  List.foldl_append

/-- A loop whose body writes is the writes of its rounds. -/
theorem foldl_fill {β : Type*} (rounds : List β) (body : β → List (ℕ × α)) (xs : List α) :
    rounds.foldl (fun xs round => fill xs (body round)) xs = fill xs (rounds.flatMap body) := by
  induction rounds generalizing xs with
  | nil => rfl
  | cons round rounds ih => rw [List.foldl_cons, ih, List.flatMap_cons, fill_append]

@[simp] theorem length_fill (xs : List α) (writes : List (ℕ × α)) :
    (fill xs writes).length = xs.length := by
  induction writes generalizing xs with
  | nil => rfl
  | cons write writes ih => rw [fill_cons, ih, List.length_set]

theorem getElem?_fill_of_forall_ne {xs : List α} {writes : List (ℕ × α)} {place : ℕ}
    (h : ∀ write ∈ writes, write.1 ≠ place) : (fill xs writes)[place]? = xs[place]? := by
  induction writes generalizing xs with
  | nil => rfl
  | cons write writes ih =>
    rw [fill_cons, ih fun w hw => h w (List.mem_cons_of_mem _ hw),
      List.getElem?_set_ne (h write (List.mem_cons_self ..))]

/-- **What a place holds**: the value every write to it has. -/
theorem getElem?_fill {xs : List α} {writes : List (ℕ × α)} {place : ℕ} {value : α}
    (hplace : place < xs.length) (hmem : (place, value) ∈ writes)
    (hagree : ∀ write ∈ writes, write.1 = place → write.2 = value) :
    (fill xs writes)[place]? = some value := by
  induction writes generalizing xs with
  | nil => exact absurd hmem List.not_mem_nil
  | cons write writes ih =>
    rw [fill_cons]
    by_cases hrest : (place, value) ∈ writes
    · exact ih (by rwa [List.length_set]) hrest fun w hw => hagree w (List.mem_cons_of_mem _ hw)
    · obtain rfl := (List.mem_cons.1 hmem).resolve_right hrest
      rw [getElem?_fill_of_forall_ne]
      · exact List.getElem?_set_self hplace
      · intro w hw heq
        have hvalue := hagree w (List.mem_cons_of_mem _ hw) heq
        exact hrest (by rwa [← heq, ← hvalue])

end S2S
