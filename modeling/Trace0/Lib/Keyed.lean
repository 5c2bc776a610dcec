import Mathlib.Algebra.BigOperators.Group.Finset.Basic
import Mathlib.Tactic

-- Lists of items that each belong to an owner, read one owner at a time.
namespace Keyed

variable {κ α β : Type*} [DecidableEq κ]

def ownedBy (k : κ) (items : List (κ × α)) : List α := (items.filter (·.1 = k)).map (·.2)

@[simp] theorem ownedBy_nil (k : κ) : ownedBy k ([] : List (κ × α)) = [] := rfl

@[simp] theorem ownedBy_append (k : κ) (left right : List (κ × α)) :
    ownedBy k (left ++ right) = ownedBy k left ++ ownedBy k right := by simp [ownedBy]

@[simp] theorem ownedBy_single (k l : κ) (item : α) :
    ownedBy k [(l,item)] = if l = k then [item] else [] := by
  by_cases same : l = k <;> simp [ownedBy,same]

theorem ownedBy_cons (k : κ) (x : κ × α) (rest : List (κ × α)) :
    ownedBy k (x :: rest) = (if x.1 = k then [x.2] else []) ++ ownedBy k rest := by
  by_cases same : x.1 = k <;> simp [ownedBy,same]

theorem ownedBy_map (k l : κ) (items : List α) :
    ownedBy k (items.map (l,·)) = if l = k then items else [] := by
  by_cases same : l = k <;> simp [ownedBy,List.filter_map,Function.comp_def,same]

theorem mem_ownedBy {k : κ} {a : α} {items : List (κ × α)} : a ∈ ownedBy k items ↔ (k,a) ∈ items := by
  simp only [ownedBy,List.mem_map,List.mem_filter,decide_eq_true_eq]
  constructor
  · rintro ⟨x,⟨present,rfl⟩,rfl⟩
    exact present
  · intro present
    exact ⟨(k,a),⟨present,rfl⟩,rfl⟩

theorem ownedBy_absent {k : κ} {items : List (κ × α)} (absent : k ∉ items.map (·.1)) :
    ownedBy k items = [] := by
  apply List.eq_nil_iff_forall_not_mem.mpr
  intro b inside
  exact absent (List.mem_map_of_mem (f := (·.1)) (mem_ownedBy.mp inside))

theorem ownedBy_once {k : κ} {a : α} {items : List (κ × α)} (distinct : (items.map (·.1)).Nodup)
    (present : (k,a) ∈ items) : ownedBy k items = [a] := by
  induction items with
  | nil => cases present
  | cons x rest ih =>
    rw [List.map_cons,List.nodup_cons] at distinct
    rw [ownedBy_cons]
    rcases List.mem_cons.mp present with rfl | later
    · simp [ownedBy_absent distinct.1]
    · have other : x.1 ≠ k := fun same =>
        distinct.1 (same ▸ List.mem_map_of_mem (f := (·.1)) later)
      simp [other,ih distinct.2 later]

theorem ownedBy_sublist {left right : List (κ × α)} (part : left.Sublist right) (k : κ) :
    (ownedBy k left).Sublist (ownedBy k right) := (part.filter _).map _

theorem ownedBy_filterMap (f : α → Option β) (k : κ) (items : List (κ × α)) :
    ownedBy k (items.filterMap fun x => (f x.2).map (x.1,·)) = (ownedBy k items).filterMap f := by
  induction items with
  | nil => rfl
  | cons x rest ih =>
    rw [ownedBy_cons,List.filterMap_append,← ih]
    cases here : f x.2 with
    | none =>
      rw [List.filterMap_cons_none (by rw [here]; rfl)]
      by_cases same : x.1 = k <;> simp [same,here]
    | some b =>
      rw [List.filterMap_cons_some (by rw [here]; rfl),ownedBy_cons]
      by_cases same : x.1 = k <;> simp [same,here]

theorem ownedBy_filter {p : α → Bool} {k : κ} {items : List (κ × α)} (tells : ∀ x ∈ items, p x.2 = decide (x.1 = k)) :
    (items.map (·.2)).filter p = ownedBy k items := by
  rw [List.filter_map,ownedBy]
  congr 1
  exact List.filter_congr tells

theorem ownedBy_snoc {k l : κ} {items : List (κ × α)} {new a : α} {n : Nat}
    (here : (ownedBy k (items ++ [(l,new)]))[n]? = some a) :
    (ownedBy k items)[n]? = some a ∨ k = l ∧ n = (ownedBy k items).length ∧ a = new := by
  rw [ownedBy_append,List.getElem?_append] at here
  split at here
  · exact .inl here
  · rename_i beyond
    by_cases same : l = k
    · subst l
      rw [ownedBy_single,if_pos rfl,List.getElem?_singleton] at here
      split at here
      · rename_i first
        exact .inr ⟨rfl,by omega,(Option.some.inj here).symm⟩
      · cases here
    · rw [ownedBy_single,if_neg same] at here
      cases here

theorem ownedBy_parallel {left : List (κ × α)} {right : List (κ × β)}
    (same : left.map (·.1) = right.map (·.1)) (k : κ) : (ownedBy k left).length = (ownedBy k right).length := by
  have counts := congrArg (fun keys : List κ => (keys.filter (· = k)).length) same
  simpa [ownedBy,List.filter_map,Function.comp_def] using counts

theorem ownedBy_matched {R : κ × α → κ × β → Prop} {left : List (κ × α)} {right : List (κ × β)}
    (each : List.Forall₂ R left right) (same : ∀ x y, R x y → x.1 = y.1) (k : κ) :
    List.Forall₂ (fun a b => R (k,a) (k,b)) (ownedBy k left) (ownedBy k right) := by
  induction each with
  | nil => exact .nil
  | @cons x y left right first _ ih =>
    rw [ownedBy_cons,ownedBy_cons,← same x y first]
    apply List.rel_append _ ih
    split
    · rename_i own
      subst own
      apply List.Forall₂.cons _ .nil
      have rebuilt : (x.1,y.2) = y := by rw [same x y first]
      rw [rebuilt]
      exact first
    · exact .nil

def deal (hands : κ → List β) : List (κ × α) → List (κ × α × β)
  | [] => []
  | (k,a) :: rest =>
    match hands k with
    | [] => deal hands rest
    | b :: more => (k,a,b) :: deal (Function.update hands k more) rest

theorem deal_owned (k : κ) (hands : κ → List β) (items : List (κ × α)) :
    ownedBy k (deal hands items) = (ownedBy k items).zip (hands k) := by
  induction items generalizing hands with
  | nil => simp [deal]
  | cons x rest ih =>
    obtain ⟨l,a⟩ := x
    unfold deal
    split
    · rename_i empty
      rw [ih,ownedBy_cons]
      by_cases same : l = k
      · subst l
        simp [empty]
      · simp [same]
    · rename_i b more here
      rw [ownedBy_cons,ownedBy_cons,ih]
      by_cases same : l = k
      · subst l
        simp [here]
      · simp [same,Function.update_of_ne (Ne.symm same)]

theorem deal_append (hands : κ → List β) (left right : List (κ × α)) :
    deal hands (left ++ right) =
      deal hands left ++ deal (fun k => (hands k).drop (ownedBy k left).length) right := by
  induction left generalizing hands with
  | nil => simp [deal]
  | cons x rest ih =>
    obtain ⟨l,a⟩ := x
    rw [List.cons_append,deal,deal]
    split
    · rename_i empty
      rw [ih]
      congr 2
      funext k
      rw [ownedBy_cons]
      by_cases same : l = k
      · subst l
        simp [empty]
      · simp [same]
    · rename_i b more here
      rw [ih,List.cons_append]
      congr 3
      funext k
      rw [ownedBy_cons]
      by_cases same : l = k
      · subst l
        simp [here]
      · simp [same,Function.update_of_ne (Ne.symm same)]

theorem enough_left {hands : κ → List β} {l : κ} {a : α} {rest : List (κ × α)} {b : β} {more : List β}
    (here : hands l = b :: more)
    (enough : ∀ k, (ownedBy k ((l,a) :: rest)).length ≤ (hands k).length) (k : κ) :
    (ownedBy k rest).length ≤ (Function.update hands l more k).length := by
  have each := enough k
  rw [ownedBy_cons] at each
  by_cases same : l = k
  · subst l
    simp only [if_true,List.singleton_append,List.length_cons,here] at each
    rw [Function.update_self]
    omega
  · rw [Function.update_of_ne (Ne.symm same)]
    simpa [same] using each

theorem deal_full {hands : κ → List β} {items : List (κ × α)}
    (enough : ∀ k, (ownedBy k items).length ≤ (hands k).length) :
    (deal hands items).map (fun x => (x.1,x.2.1)) = items := by
  induction items generalizing hands with
  | nil => rfl
  | cons x rest ih =>
    obtain ⟨l,a⟩ := x
    have own := enough l
    rw [ownedBy_cons] at own
    unfold deal
    split
    · rename_i empty
      simp [empty] at own
    · rename_i b more here
      rw [List.map_cons,ih (enough_left here enough)]

theorem zip_enough {left : List α} {right : List β} (enough : left.length ≤ right.length) :
    left.zip right = left.zip (right.take left.length) := by
  rw [List.zip_eq_zip_take_min,min_eq_left enough,List.take_length]

theorem deal_matched {R : α → β → Prop} {whole : κ → List α} {image : κ → List β} {items : List (κ × α)}
    (parts : ∀ k, ownedBy k items <+: whole k) (each : ∀ k, List.Forall₂ R (whole k) (image k)) :
    ∃ tagged : List (κ × β), List.Forall₂ R (items.map (·.2)) (tagged.map (·.2)) ∧
      ∀ k, ownedBy k tagged = (image k).take (ownedBy k items).length := by
  have enough : ∀ k, (ownedBy k items).length ≤ (image k).length := by
    intro k
    rw [← (each k).length_eq]
    exact (parts k).length_le
  have zipped : ∀ x ∈ deal image items, R x.2.1 x.2.2 := by
    intro x mem
    have own := mem_ownedBy.mpr mem
    rw [deal_owned,zip_enough (enough x.1)] at own
    have front := List.forall₂_take (ownedBy x.1 items).length (each x.1)
    rw [← List.prefix_iff_eq_take.mp (parts x.1)] at front
    exact List.forall₂_zip front own
  have tagged : items.map (·.2) = (deal image items).map (·.2.1) := by
    conv_lhs => rw [← deal_full enough]
    rw [List.map_map]
    rfl
  refine ⟨(deal image items).map fun x => (x.1,x.2.2),?_,?_⟩
  · rw [tagged,List.map_map,List.forall₂_map_left_iff,List.forall₂_map_right_iff,List.forall₂_same]
    exact zipped
  · intro k
    have owned : ownedBy k ((deal image items).map fun x => (x.1,x.2.2)) = (ownedBy k (deal image items)).map (·.2) := by
      simp [ownedBy,List.filter_map,Function.comp_def]
    rw [owned,deal_owned,zip_enough (enough k),List.map_snd_zip]
    exact List.length_take_le _ _

theorem tally_owners (f : α → ℕ) {keys : Finset κ} {items : List (κ × α)}
    (covered : ∀ x ∈ items, x.1 ∈ keys) :
    (items.map fun x => f x.2).sum = ∑ k ∈ keys, ((ownedBy k items).map f).sum := by
  induction items with
  | nil => simp
  | cons x rest ih =>
    have tail := ih fun y present => covered y (List.mem_cons_of_mem _ present)
    have first : x.1 ∈ keys := covered x List.mem_cons_self
    have own (k : κ) : ((ownedBy k (x :: rest)).map f).sum =
        (if x.1 = k then f x.2 else 0) + ((ownedBy k rest).map f).sum := by
      rw [ownedBy_cons]
      by_cases same : x.1 = k <;> simp [same]
    simp only [List.map_cons,List.sum_cons,tail,own,Finset.sum_add_distrib,Finset.sum_ite_eq,first,
      if_true]

theorem tally_eq {f : α → ℕ} {g : β → ℕ} {left : List (κ × α)} {right : List (κ × β)}
    (each : ∀ k, ((ownedBy k left).map f).sum = ((ownedBy k right).map g).sum) :
    (left.map fun x => f x.2).sum = (right.map fun x => g x.2).sum := by
  have inLeft : ∀ x ∈ left, x.1 ∈ (left.map (·.1) ++ right.map (·.1)).toFinset := by
    intro x present
    exact List.mem_toFinset.mpr (List.mem_append_left _ (List.mem_map_of_mem present))
  have inRight : ∀ x ∈ right, x.1 ∈ (left.map (·.1) ++ right.map (·.1)).toFinset := by
    intro x present
    exact List.mem_toFinset.mpr (List.mem_append_right _ (List.mem_map_of_mem present))
  rw [tally_owners f inLeft,tally_owners g inRight]
  exact Finset.sum_congr rfl fun k _ => each k

theorem count_owned [DecidableEq α] (k : κ) (a : α) (items : List (κ × α)) :
    (ownedBy k items).count a = items.count (k,a) := by
  induction items with
  | nil => rfl
  | cons x rest ih =>
    rw [ownedBy_cons,List.count_append,ih,List.count_cons]
    obtain ⟨l,b⟩ := x
    by_cases same : l = k
    · subst l
      by_cases equal : b = a <;> simp [equal,Nat.add_comm]
    · have other : (l,b) ≠ (k,a) := fun both => same (congrArg Prod.fst both)
      simp [same,other]

theorem perm_of_owned [DecidableEq α] {left right : List (κ × α)} (same : ∀ k, ownedBy k left = ownedBy k right) :
    left.Perm right := by
  rw [List.perm_iff_count]
  rintro ⟨k,a⟩
  rw [← count_owned,← count_owned,same]

theorem subperm_of_owned [DecidableEq α] {left right : List (κ × α)}
    (part : ∀ k, (ownedBy k left).Subperm (ownedBy k right)) : left.Subperm right := by
  rw [List.subperm_ext_iff]
  rintro ⟨k,a⟩ _
  rw [← count_owned,← count_owned]
  exact (part k).count_le a

end Keyed
