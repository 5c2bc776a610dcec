import Mathlib.Tactic

-- A log in which some messages carry a number taken from a counter: no number is carried
-- twice, as long as each comes from the counter that is then moved on.
namespace Tickets

variable {κ μ : Type*} [DecidableEq κ] {log : κ → Option μ} {tag : μ → Option Nat} {next : Nat}

structure Apart (log : κ → Option μ) (tag : μ → Option Nat) (next : Nat) : Prop where
  below : ∀ p m n, log p = some m → tag m = some n → n < next
  once : ∀ p q m m' n, log p = some m → log q = some m' → tag m = some n → tag m' = some n → p = q

omit [DecidableEq κ] in
theorem Apart.mono (apart : Apart log tag next) {later : Nat} (le : next ≤ later) : Apart log tag later :=
  ⟨fun p m n said tagged => Nat.lt_of_lt_of_le (apart.below p m n said tagged) le,apart.once⟩

omit [DecidableEq κ] in
theorem empty_apart : Apart (fun _ : κ => (none : Option μ)) tag next :=
  ⟨fun _ _ _ said => absurd said (by simp),fun _ _ _ _ _ said => absurd said (by simp)⟩

theorem update_some {p q : κ} {m m' : μ} :
    Function.update log p (some m) q = some m' ↔ (q = p ∧ m = m') ∨ (q ≠ p ∧ log q = some m') := by
  by_cases same : q = p
  · subst q
    simp
  · simp [same]

theorem Apart.untagged (apart : Apart log tag next) {p : κ} {m : μ} (bare : tag m = none) :
    Apart (Function.update log p (some m)) tag next := by
  have older {q : κ} {m' : μ} {n : Nat} (said : Function.update log p (some m) q = some m') (tagged : tag m' = some n) :
      log q = some m' := by
    rcases update_some.mp said with ⟨_,rfl⟩ | ⟨_,old⟩
    · rw [bare] at tagged
      cases tagged
    · exact old
  refine ⟨?_,?_⟩
  · intro q m' n said tagged
    exact apart.below q m' n (older said tagged) tagged
  · intro q q' m' m'' n said said' tagged tagged'
    exact apart.once q q' m' m'' n (older said tagged) (older said' tagged') tagged tagged'

theorem Apart.ticket (apart : Apart log tag next) {p : κ} {m : μ} (fresh : tag m = some next) :
    Apart (Function.update log p (some m)) tag (next+1) := by
  refine ⟨?_,?_⟩
  · intro q m' n said tagged
    rcases update_some.mp said with ⟨_,rfl⟩ | ⟨_,old⟩
    · rw [fresh] at tagged
      cases tagged
      exact Nat.lt_succ_self next
    · exact Nat.lt_succ_of_lt (apart.below q m' n old tagged)
  · intro q q' m' m'' n said said' tagged tagged'
    rcases update_some.mp said with ⟨here,rfl⟩ | ⟨_,old⟩ <;>
      rcases update_some.mp said' with ⟨here',rfl⟩ | ⟨_,old'⟩
    · exact here.trans here'.symm
    · -- the new number is not one of those below it
      rw [fresh] at tagged
      cases tagged
      exact absurd (apart.below q' m'' next old' tagged') (Nat.lt_irrefl next)
    · rw [fresh] at tagged'
      cases tagged'
      exact absurd (apart.below q m' next old tagged) (Nat.lt_irrefl next)
    · exact apart.once q q' m' m'' n old old' tagged tagged'

end Tickets
