import Mathlib.Data.List.Sort
import Mathlib.Order.Defs.LinearOrder

-- Sorting by a key with equal keys left in their first order: the laws a caller needs to
-- follow single elements, one class of elements, or a relabelled list through the sort.
namespace StableSort

variable {α β κ : Type*} [LinearOrder κ]

def sortByKey (key : α → κ) (items : List α) : List α :=
  items.mergeSort (fun a b => decide (key a ≤ key b))

theorem perm (key : α → κ) (items : List α) : (sortByKey key items).Perm items :=
  List.mergeSort_perm _ _

@[simp] theorem mem_iff (key : α → κ) (items : List α) (a : α) :
    a ∈ sortByKey key items ↔ a ∈ items := (perm key items).mem_iff

private theorem key_trans (key : α → κ) (a b c : α) :
    decide (key a ≤ key b) = true → decide (key b ≤ key c) = true → decide (key a ≤ key c) = true := by
  simpa using le_trans

private theorem key_total (key : α → κ) (a b : α) :
    (decide (key a ≤ key b) || decide (key b ≤ key a)) = true := by
  simpa using le_total (key a) (key b)

theorem sorted (key : α → κ) (items : List α) :
    (sortByKey key items).Pairwise (fun a b => key a ≤ key b) := by
  have ordered := List.pairwise_mergeSort (key_trans key) (key_total key) items
  simpa [sortByKey] using ordered

theorem of_sorted (key : α → κ) {items : List α}
    (ordered : items.Pairwise (fun a b => key a ≤ key b)) : sortByKey key items = items :=
  List.mergeSort_of_pairwise (by simpa using ordered)

theorem sublist (key : α → κ) {items part : List α}
    (ordered : part.Pairwise (fun a b => key a ≤ key b)) (inside : part.Sublist items) :
    part.Sublist (sortByKey key items) :=
  List.sublist_mergeSort (key_trans key) (key_total key) (by simpa using ordered) inside

theorem fiber (key : α → κ) (items : List α) (k : κ) :
    (sortByKey key items).filter (fun a => key a = k) = items.filter (fun a => key a = k) := by
  have constant : (items.filter (fun a => key a = k)).Pairwise (fun a b => key a ≤ key b) := by
    rw [List.pairwise_filter]
    exact List.pairwise_of_forall fun a b ha hb => by simp_all
  have inside := (sublist key constant List.filter_sublist).filter (fun a => key a = k)
  rw [List.filter_filter] at inside
  simp only [Bool.and_self] at inside
  exact (inside.eq_of_length ((perm key items).filter _).length_eq.symm).symm

theorem sorted_unique (key : α → κ) {left right : List α}
    (leftOrdered : left.Pairwise (fun a b => key a ≤ key b))
    (rightOrdered : right.Pairwise (fun a b => key a ≤ key b))
    (fibers : ∀ k, left.filter (fun a => key a = k) = right.filter (fun a => key a = k)) :
    left = right := by
  induction left generalizing right with
  | nil =>
    cases right with
    | nil => rfl
    | cons b rest => simpa using fibers (key b)
  | cons a left ih =>
    cases right with
    | nil => simpa using fibers (key a)
    | cons b right =>
      rw [List.pairwise_cons] at leftOrdered rightOrdered
      have present (c : α) : c ∈ a :: left ↔ c ∈ b :: right := by
        have same := congrArg (c ∈ ·) (fibers (key c))
        simpa [List.mem_filter] using same
      have least : key a ≤ key b := by
        rcases List.mem_cons.mp ((present b).mpr List.mem_cons_self) with rfl | inner
        · exact le_refl _
        · exact leftOrdered.1 b inner
      have greatest : key b ≤ key a := by
        rcases List.mem_cons.mp ((present a).mp List.mem_cons_self) with rfl | inner
        · exact le_refl _
        · exact rightOrdered.1 a inner
      have keys : key b = key a := le_antisymm greatest least
      have heads := fibers (key a)
      simp only [List.filter_cons,keys,decide_true,if_true,List.cons.injEq] at heads
      obtain ⟨rfl,_⟩ := heads
      refine congrArg (a :: ·) (ih leftOrdered.2 rightOrdered.2 fun k => ?_)
      have tails := fibers k
      by_cases equal : key a = k <;> simpa [List.filter_cons,equal] using tails

theorem filter_comm (key : α → κ) (keep : α → Bool) (items : List α) :
    (sortByKey key items).filter keep = sortByKey key (items.filter keep) := by
  refine sorted_unique key ((sorted key items).filter keep) (sorted key _) fun k => ?_
  rw [fiber,List.filter_filter,List.filter_filter]
  simp only [Bool.and_comm (decide _)]
  rw [← List.filter_filter,← List.filter_filter,fiber]

theorem map_comm (key : α → κ) (key' : β → κ) (f : α → β) (items : List α)
    (same : ∀ a ∈ items, key' (f a) = key a) :
    (sortByKey key items).map f = sortByKey key' (items.map f) :=
  List.map_mergeSort fun a ha b hb => by simp only [same a ha,same b hb]

theorem least_first (key : α → κ) (items : List α) (k : κ)
    (least : ∀ a ∈ items, k ≤ key a)
    (ordered : (items.filter (fun a => key a ≠ k)).Pairwise (fun a b => key a ≤ key b)) :
    sortByKey key items =
      items.filter (fun a => key a = k) ++ items.filter (fun a => key a ≠ k) := by
  refine sorted_unique key (sorted key items) ?_ fun l => ?_
  · refine List.pairwise_append.mpr ⟨?_,ordered,?_⟩
    · rw [List.pairwise_filter]
      exact List.pairwise_of_forall fun a b ha hb => by simp_all
    · intro a ha b hb
      have atLeast := (List.mem_filter.mp ha).2
      simp only [decide_eq_true_eq] at atLeast
      exact atLeast ▸ least b (List.mem_filter.mp hb).1
  · rw [fiber,List.filter_append,List.filter_filter,List.filter_filter]
    by_cases equal : l = k
    · subst l
      simp
    · have none : items.filter (fun a => decide (key a = l) && decide (key a = k)) = [] := by
        rw [List.filter_eq_nil_iff]
        rintro a - both
        simp only [Bool.and_eq_true,decide_eq_true_eq] at both
        exact equal (both.1.symm.trans both.2)
      rw [none,List.nil_append]
      refine List.filter_congr fun a _ => ?_
      by_cases atKey : key a = l <;> simp [atKey,equal]

theorem pair_iff (key : α → κ) {items : List α} {a b : α} (before : [a,b].Sublist items) :
    [a,b].Sublist (sortByKey key items) ↔ key a ≤ key b := by
  constructor
  · intro after
    simpa using (sorted key items).sublist after
  · intro le
    exact sublist key (by simpa using le) before

end StableSort
