import Mathlib.Data.List.Basic
import Mathlib.Tactic

-- A log whose items are settled, except that its last one may still be written to. What a
-- reader saw of an item stays a part of the item at that place.
namespace Growing

variable {α : Type*} {ext : α → α → Prop}

structure Grows (ext : α → α → Prop) (before after : List α) : Prop where
  settled : ∀ i, i+1 < before.length → after[i]? = before[i]?
  kept : ∀ (i : Nat) (a : α), before[i]? = some a → ∃ b, after[i]? = some b ∧ ext a b

theorem Grows.append (refl : ∀ a, ext a a) (before more : List α) : Grows ext before (before ++ more) := by
  refine ⟨fun i inside => ?_,fun i a here => ⟨a,?_,refl a⟩⟩
  · exact List.getElem?_append_left (by omega)
  · have inside := (List.getElem?_eq_some_iff.mp here).1
    rw [List.getElem?_append_left inside,here]

theorem Grows.refl (refl : ∀ a, ext a a) (items : List α) : Grows ext items items := by
  simpa using Grows.append refl items []

theorem Grows.last (refl : ∀ a, ext a a) {a b : α} (grown : ext a b) (front : List α) :
    Grows ext (front ++ [a]) (front ++ [b]) := by
  refine ⟨fun i inside => ?_,fun i c here => ?_⟩
  · rw [List.length_append,List.length_singleton] at inside
    rw [List.getElem?_append_left (by omega),List.getElem?_append_left (by omega)]
  · by_cases early : i < front.length
    · rw [List.getElem?_append_left early] at here ⊢
      exact ⟨c,here,refl c⟩
    · rw [List.getElem?_append_right (by omega)] at here ⊢
      obtain ⟨inside,same⟩ := List.getElem?_eq_some_iff.mp here
      have first : i - front.length = 0 := by simpa using inside
      simp only [first,List.getElem_cons_zero] at same
      exact ⟨b,by simp [first],same ▸ grown⟩

theorem Grows.length {before after : List α} (grows : Grows ext before after) :
    before.length ≤ after.length := by
  cases before using List.reverseRecOn with
  | nil => exact Nat.zero_le _
  | append_singleton front a _ =>
    obtain ⟨b,there,_⟩ := grows.kept front.length a (by simp)
    have inside := (List.getElem?_eq_some_iff.mp there).1
    rw [List.length_append,List.length_singleton]
    omega

theorem Grows.take_eq {before after : List α} (grows : Grows ext before after) {i : Nat}
    (inside : i < before.length) : after.take i = before.take i := by
  have longer := grows.length
  refine List.ext_getElem? fun j => ?_
  by_cases below : j < i
  · rw [List.getElem?_take_of_lt below,List.getElem?_take_of_lt below]
    exact grows.settled j (by omega)
  · rw [List.getElem?_eq_none (by simp; omega),List.getElem?_eq_none (by simp; omega)]

end Growing
