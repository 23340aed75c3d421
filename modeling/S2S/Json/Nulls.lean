/-
# Null members and absent ones

A value less some of its null members, at any depth and in any combination
(`Erases`).  A reader that asks of every member whether it has the type it wants
cannot tell the two apart: a member that is null is no text, no integer, no
array and no object, and neither is one that is not there (`Loses`).  One that
asks whether the member is there can.
-/

import Mathlib.Data.List.Forall2
import S2S.Json.Read

namespace S2S
namespace Json

/-- **A value less null members.**  `gone` says which members of an object are left out: those, all
of a name, whose first one is null.  What stays may have lost members of its own. -/
inductive Erases : Value → Value → Prop
  | refl (v : Value) : Erases v v
  | arr {items items' : List Value} : List.Forall₂ Erases items items' →
      Erases (.arr items) (.arr items')
  | obj {members members' : List (Bytes × Value)} (gone : Bytes → Bool) :
      (∀ key, gone key = true → (Value.obj members).get key = some .null) →
      (members.filter fun m => !gone m.1).map Prod.fst = members'.map Prod.fst →
      List.Forall₂ Erases ((members.filter fun m => !gone m.1).map Prod.snd)
        (members'.map Prod.snd) →
      Erases (.obj members) (.obj members')

/-- An object without the members of a name. -/
def Value.without (key : Bytes) : Value → Value
  | .obj members => .obj (members.filter fun m => m.1 ≠ key)
  | v => v

/-- One null member less. -/
theorem erases_without {v : Value} {key : Bytes} (h : v.get key = some .null) :
    Erases v (v.without key) := by
  cases v with
  | obj members =>
    have hfilter : (members.filter fun m => !decide (m.1 = key)) =
        members.filter fun m => m.1 ≠ key := by simp
    refine .obj (fun k => decide (k = key)) (fun k hk => by rw [of_decide_eq_true hk, h]) ?_ ?_
    · rw [hfilter]
    · rw [hfilter]
      exact List.forall₂_same.2 fun w _ => .refl w
  | _ => exact .refl _

@[simp] theorem get_without {v : Value} {key : Bytes} : (v.without key).get key = none := by
  cases v with
  | obj members => simp [Value.without, Value.get]
  | _ => rfl

/-- **What a member that is asked for may have become.** -/
inductive Loses : Option Value → Option Value → Prop
  | absent : Loses none none
  | gone : Loses (some .null) none
  | kept {v v' : Value} : Erases v v' → Loses (some v) (some v')

/-- The first member of a name among members that lost some of theirs. -/
theorem loses_find {kept members' : List (Bytes × Value)} (key : Bytes)
    (hnames : kept.map Prod.fst = members'.map Prod.fst)
    (hvalues : List.Forall₂ Erases (kept.map Prod.snd) (members'.map Prod.snd)) :
    Loses ((kept.find? fun m => m.1 = key).map Prod.snd)
      ((members'.find? fun m => m.1 = key).map Prod.snd) := by
  induction kept generalizing members' with
  | nil =>
    obtain rfl := List.map_eq_nil_iff.1 hnames.symm
    exact .absent
  | cons m kept ih =>
    cases members' with
    | nil => simp at hnames
    | cons m' members' =>
      obtain ⟨hname, hnames⟩ := List.cons.inj hnames
      obtain ⟨hvalue, hvalues⟩ := List.forall₂_cons.1 hvalues
      rw [List.find?_cons, List.find?_cons, hname]
      by_cases hkey : m'.1 = key
      · simp only [hkey, decide_true]
        exact .kept hvalue
      · simp only [hkey, decide_false]
        exact ih hnames hvalues

/-- **Every member is one that stayed, or a null one that is gone.** -/
theorem Erases.get {v v' : Value} (h : Erases v v') (key : Bytes) :
    Loses (v.get key) (v'.get key) := by
  cases h with
  | refl =>
    cases v.get key with
    | none => exact .absent
    | some w => exact .kept (.refl w)
  | arr => exact .absent
  | @obj members members' gone hgone hnames hvalues =>
    have hloses := loses_find key hnames hvalues
    cases hkey : gone key with
    | true =>
      have hnone : (members.filter fun m => !gone m.1).find? (fun m => m.1 = key) = none := by
        rw [List.find?_eq_none]
        intro m hm hname
        have hstays := (List.mem_filter.1 hm).2
        rw [of_decide_eq_true hname, hkey] at hstays
        simp at hstays
      rw [hgone key hkey]
      rw [hnone] at hloses
      rw [Value.get]
      generalize (members'.find? fun m => decide (m.1 = key)).map Prod.snd = o at hloses
      cases hloses
      exact .gone
    | false =>
      have hsame : (members.filter fun m => !gone m.1).find? (fun m => m.1 = key) =
          members.find? fun m => m.1 = key := by
        rw [List.find?_filter]
        congr 1
        funext m
        by_cases hname : m.1 = key <;> simp [hname, hkey]
      rw [hsame] at hloses
      exact hloses

/-! ### Readers that ask for a type -/

/-- The items of an array, none of anything else. -/
def elementsOf : Option Value → List Value
  | some (.arr items) => items
  | _ => []

section Readers

variable {o o' : Option Value}

/-- The text of a member. -/
theorem Loses.textOf (h : Loses o o') : textOf o = Json.textOf o' := by
  cases h with
  | absent => rfl
  | gone => rfl
  | kept h => cases h <;> rfl

/-- Its integer. -/
theorem Loses.intOf (h : Loses o o') : o.bind Json.intOf = o'.bind Json.intOf := by
  cases h with
  | absent => rfl
  | gone => rfl
  | kept h => cases h <;> rfl

/-- A member of it. -/
theorem Loses.get (h : Loses o o') (key : Bytes) :
    Loses (o.bind (Value.get key)) (o'.bind (Value.get key)) := by
  cases h with
  | absent => exact .absent
  | gone => exact .absent
  | kept h => exact h.get key

/-- Its items, which may have lost members. -/
theorem Loses.elements (h : Loses o o') :
    List.Forall₂ Erases (elementsOf o) (elementsOf o') := by
  cases h with
  | absent => exact .nil
  | gone => exact .nil
  | kept h =>
    cases h with
    | refl => exact List.forall₂_same.2 fun v _ => .refl v
    | arr hitems => exact hitems
    | obj => exact .nil

/-- Whether it is there, as long as it is not gone. -/
theorem Loses.isSome (h : Loses o o') (hgone : ¬(o = some .null ∧ o' = none)) :
    o.isSome = o'.isSome := by
  cases h with
  | absent => rfl
  | gone => exact absurd ⟨rfl, rfl⟩ hgone
  | kept h => rfl

end Readers

end Json
end S2S
