import Mathlib.Algebra.BigOperators.Ring.List
import Mathlib.Tactic

-- Sums kept under ordered keys, each key once and in order.
namespace Ledger

variable {K V W : Type*} [LinearOrder K]

def credit [Add V] (key : K) (amount : V) : List (K × V) → List (K × V)
  | [] => [(key,amount)]
  | (k,v) :: rest =>
    if key < k then (key,amount) :: (k,v) :: rest
    else if key = k then (k,v + amount) :: rest
    else (k,v) :: credit key amount rest

def credits [Add V] (entries : List (K × V)) (charges : List (K × V)) : List (K × V) :=
  charges.foldl (fun entries charge => credit charge.1 charge.2 entries) entries

def Ordered (entries : List (K × V)) : Prop := entries.Pairwise fun e f => e.1 < f.1

theorem Ordered.distinct {entries : List (K × V)} (ordered : Ordered entries) : (entries.map (·.1)).Nodup :=
  (List.pairwise_map.mpr ordered).imp fun less => ne_of_lt less

section Add

variable [Add V]

theorem credit_keys (key : K) (amount : V) (entries : List (K × V)) (k : K) :
    k ∈ (credit key amount entries).map (·.1) ↔ k = key ∨ k ∈ entries.map (·.1) := by
  induction entries with
  | nil => simp [credit]
  | cons e rest ih =>
    unfold credit
    split
    · simp
    · split
      · next same => simp [same]
      · rw [List.map_cons,List.mem_cons,ih,List.map_cons,List.mem_cons]
        tauto

theorem credit_ordered (key : K) (amount : V) {entries : List (K × V)} (ordered : Ordered entries) :
    Ordered (credit key amount entries) := by
  induction entries with
  | nil => exact List.pairwise_singleton _ _
  | cons e rest ih =>
    obtain ⟨above,later⟩ := List.pairwise_cons.mp ordered
    unfold credit
    split
    · next less =>
      apply List.Pairwise.cons
      · intro f mem
        rcases List.mem_cons.mp mem with rfl | mem
        · exact less
        · exact less.trans (above f mem)
      · exact ordered
    · next below =>
      split
      · exact List.Pairwise.cons above later
      · next other =>
        apply List.Pairwise.cons _ (ih later)
        intro f mem
        rcases (credit_keys key amount rest f.1).mp (List.mem_map_of_mem mem) with same | old
        · exact same ▸ lt_of_le_of_ne (not_lt.mp below) (Ne.symm other)
        · obtain ⟨g,present,same⟩ := List.mem_map.mp old
          exact same ▸ above g present

theorem credits_ordered {entries : List (K × V)} (ordered : Ordered entries) (charges : List (K × V)) :
    Ordered (credits entries charges) := by
  induction charges generalizing entries with
  | nil => exact ordered
  | cons charge charges ih => exact ih (credit_ordered charge.1 charge.2 ordered)

theorem credits_keys (entries charges : List (K × V)) (k : K) :
    k ∈ (credits entries charges).map (·.1) ↔ k ∈ entries.map (·.1) ∨ k ∈ charges.map (·.1) := by
  induction charges generalizing entries with
  | nil => simp [credits]
  | cons charge charges ih =>
    have step := ih (credit charge.1 charge.2 entries)
    rw [credit_keys] at step
    rw [credits,List.foldl_cons,← credits,step,List.map_cons,List.mem_cons]
    tauto

theorem credits_append (entries left right : List (K × V)) :
    credits entries (left ++ right) = credits (credits entries left) right := List.foldl_append

end Add

theorem credit_map [Add V] [Add W] {f : V → W} (adds : ∀ v w, f (v + w) = f v + f w) (key : K) (amount : V)
    (entries : List (K × V)) : (credit key amount entries).map (fun e => (e.1,f e.2)) =
      credit key (f amount) (entries.map fun e => (e.1,f e.2)) := by
  induction entries with
  | nil => rfl
  | cons e rest ih =>
    simp only [List.map_cons,credit]
    split
    · rfl
    · split
      · rw [List.map_cons,adds]
      · rw [List.map_cons,ih]

theorem credits_map [Add V] [Add W] {f : V → W} (adds : ∀ v w, f (v + w) = f v + f w)
    (entries charges : List (K × V)) : (credits entries charges).map (fun e => (e.1,f e.2)) =
      credits (entries.map fun e => (e.1,f e.2)) (charges.map fun e => (e.1,f e.2)) := by
  induction charges generalizing entries with
  | nil => rfl
  | cons charge charges ih =>
    have step := ih (credit charge.1 charge.2 entries)
    rw [credit_map adds] at step
    exact step

section Order

variable [Add V] {key k : K}

theorem credit_before (less : key < k) (amount v : V) (rest : List (K × V)) :
    credit key amount ((k,v) :: rest) = (key,amount) :: (k,v) :: rest := if_pos less

theorem credit_here (k : K) (amount v : V) (rest : List (K × V)) :
    credit k amount ((k,v) :: rest) = (k,v + amount) :: rest := by
  rw [credit,if_neg (lt_irrefl k),if_pos rfl]

theorem credit_after (more : k < key) (amount v : V) (rest : List (K × V)) :
    credit key amount ((k,v) :: rest) = (k,v) :: credit key amount rest := by
  rw [credit,if_neg more.le.not_gt,if_neg more.ne']

theorem credit_comm_lt {a b : K} (less : a < b) (x y : V) (entries : List (K × V)) :
    credit a x (credit b y entries) = credit b y (credit a x entries) := by
  induction entries with
  | nil => exact (credit_before less x y []).trans (credit_after less y x []).symm
  | cons e rest ih =>
    obtain ⟨k,v⟩ := e
    rcases lt_trichotomy a k with early | rfl | late
    · rw [credit_before early,credit_after less]
      rcases lt_trichotomy b k with before | rfl | after
      · rw [credit_before before,credit_before less]
      · rw [credit_here,credit_before early]
      · rw [credit_after after,credit_before early]
    · rw [credit_after less,credit_here,credit_here,credit_after less]
    · rw [credit_after (late.trans less),credit_after late,credit_after late,credit_after (late.trans less),ih]

end Order

theorem credit_twice [AddCommSemigroup V] (key : K) (x y : V) (entries : List (K × V)) :
    credit key x (credit key y entries) = credit key (y + x) entries := by
  induction entries with
  | nil => exact credit_here _ _ _ _
  | cons e rest ih =>
    obtain ⟨k,v⟩ := e
    rcases lt_trichotomy key k with before | rfl | after
    · rw [credit_before before,credit_here,credit_before before]
    · rw [credit_here,credit_here,credit_here,add_assoc]
    · rw [credit_after after,credit_after after,credit_after after,ih]

theorem credit_comm [AddCommSemigroup V] (a b : K) (x y : V) (entries : List (K × V)) :
    credit a x (credit b y entries) = credit b y (credit a x entries) := by
  rcases lt_trichotomy a b with less | rfl | more
  · exact credit_comm_lt less x y entries
  · rw [credit_twice,credit_twice,add_comm]
  · exact (credit_comm_lt more y x entries).symm

theorem credits_perm [AddCommSemigroup V] {left right : List (K × V)} (same : left.Perm right)
    (entries : List (K × V)) : credits entries left = credits entries right := by
  have comm : RightCommutative fun (entries : List (K × V)) (charge : K × V) => credit charge.1 charge.2 entries :=
    ⟨fun entries c d => credit_comm d.1 c.1 d.2 c.2 entries⟩
  exact same.foldl_eq entries

theorem credit_worth [CommSemiring V] (weight : K → V) (key : K) (amount : V) (entries : List (K × V)) :
    ((credit key amount entries).map fun e => weight e.1 * e.2).sum =
      (entries.map fun e => weight e.1 * e.2).sum + weight key * amount := by
  induction entries with
  | nil => simp [credit]
  | cons e rest ih =>
    simp only [credit]
    split
    · simp only [List.map_cons,List.sum_cons]
      ring
    · split
      · next same =>
        simp only [List.map_cons,List.sum_cons,same]
        ring
      · simp only [List.map_cons,List.sum_cons,ih]
        ring

theorem credits_worth [CommSemiring V] (weight : K → V) (entries charges : List (K × V)) :
    ((credits entries charges).map fun e => weight e.1 * e.2).sum =
      (entries.map fun e => weight e.1 * e.2).sum + (charges.map fun e => weight e.1 * e.2).sum := by
  induction charges generalizing entries with
  | nil => simp [credits]
  | cons charge charges ih =>
    have step := ih (credit charge.1 charge.2 entries)
    rw [credit_worth] at step
    rw [credits,List.foldl_cons,← credits,step,List.map_cons,List.sum_cons,add_assoc]

end Ledger
