import Mathlib.Tactic

-- Words put together around a separator, read back from their end.
namespace Separated

variable {α : Type*} {sep sep' : α} {a b m n : List α}

theorem last_part (free : sep ∉ m) (free' : sep ∉ n) (same : a ++ sep :: m = b ++ sep :: n) : a = b ∧ m = n := by
  have inside {c : List α} {x y : List α} (split : sep :: x = c ++ sep :: y) (clean : sep ∉ x) : c = [] := by
    cases c with
    | nil => rfl
    | cons first rest =>
      obtain ⟨_,rest⟩ := List.cons.inj split
      exact absurd (by rw [rest]; simp) clean
  rcases List.append_eq_append_iff.mp same with ⟨c,grown,split⟩ | ⟨c,grown,split⟩
  · cases inside split free
    exact ⟨(List.append_nil a ▸ grown).symm,(List.cons.inj split).2⟩
  · cases inside split free'
    exact ⟨List.append_nil b ▸ grown,(List.cons.inj split).2.symm⟩

theorem cut (other : sep ≠ sep') (same : a ++ sep :: m = b ++ sep' :: n) :
    (∃ c, m = c ++ sep' :: n) ∨ ∃ c, a = b ++ sep' :: c ∧ n = c ++ sep :: m := by
  rcases List.append_eq_append_iff.mp same with ⟨c,_,split⟩ | ⟨c,grown,split⟩
  · cases c with
    | nil => exact absurd (List.cons.inj split).1 other
    | cons first rest => exact .inl ⟨rest,(List.cons.inj split).2⟩
  · cases c with
    | nil => exact absurd (List.cons.inj split).1.symm other
    | cons first rest =>
      obtain ⟨rfl,last⟩ := List.cons.inj split
      exact .inr ⟨rest,grown,last⟩

theorem behind (other : sep ≠ sep') (clean : sep' ∉ a) (same : a ++ sep :: m = b ++ sep' :: n) :
    ∃ c, m = c ++ sep' :: n := by
  rcases cut other same with later | ⟨c,earlier,_⟩
  · exact later
  · exact absurd (by rw [earlier]; simp) clean

theorem crossed (other : sep ≠ sep') (free : sep' ∉ m) (free' : sep ∉ n) : a ++ sep :: m ≠ b ++ sep' :: n := by
  intro same
  rcases cut other same with ⟨c,later⟩ | ⟨c,_,earlier⟩
  · exact free (by rw [later]; simp)
  · exact free' (by rw [earlier]; simp)

end Separated
