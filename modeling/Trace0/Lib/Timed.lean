import Trace0.Lib.Brackets

-- Words of brackets with the times they stand at.
namespace Timed
open Brackets

variable {κ : Type*}

structure Call (κ : Type*) where
  path : List κ
  opened : ℕ
  closed : ℕ

def path (frames : List (κ × ℕ)) : List κ := (frames.map (·.1)).reverse

def calls : List (κ × ℕ) → List (Bracket κ × ℕ) → List (Call κ)
  | _,[] => []
  | frames,(.push c,t) :: rest => calls ((c,t) :: frames) rest
  | [],(.pop _,_) :: rest => calls [] rest
  | (c,s) :: below,(.pop _,t) :: rest => ⟨path ((c,s) :: below),s,t⟩ :: calls below rest

def after (stack : List κ) : Bracket κ → List κ
  | .push c => stack ++ [c]
  | .pop _ => stack.dropLast

def charges : List κ → ℕ → List (Bracket κ × ℕ) → List (List κ × ℕ)
  | _,_,[] => []
  | stack,last,(mark,t) :: rest => (stack,t - last) :: charges (after stack mark) t rest

def above (w : List κ → ℕ) (path : List κ) : ℕ := ((List.range path.length).map fun n => w (path.take (n + 1))).sum

def Rising (last : ℕ) (word : List (Bracket κ × ℕ)) : Prop := (last :: word.map (·.2)).Pairwise (· ≤ ·)

@[simp] theorem path_nil : path ([] : List (κ × ℕ)) = [] := rfl

theorem path_cons (frame : κ × ℕ) (frames : List (κ × ℕ)) : path (frame :: frames) = path frames ++ [frame.1] := by
  rw [path,List.map_cons,List.reverse_cons,path]

theorem after_push (c : κ) (t : ℕ) (frames : List (κ × ℕ)) : after (path frames) (.push c) = path ((c,t) :: frames) :=
  (path_cons (c,t) frames).symm

theorem after_pop (d : κ) (frame : κ × ℕ) (frames : List (κ × ℕ)) :
    after (path (frame :: frames)) (.pop d) = path frames := by
  rw [path_cons,after,List.dropLast_concat]

theorem above_snoc (w : List κ → ℕ) (path : List κ) (c : κ) : above w (path ++ [c]) = above w path + w (path ++ [c]) := by
  have whole : (path ++ [c]).take (path.length + 1) = path ++ [c] := List.take_of_length_le (by simp)
  have part : ∀ n ∈ List.range path.length, w ((path ++ [c]).take (n + 1)) = w (path.take (n + 1)) := by
    intro n small
    rw [List.take_append_of_le_length (List.mem_range.mp small)]
  rw [above,List.length_append,List.length_singleton,List.range_succ,List.map_append,List.sum_append,
    List.map_congr_left part,List.map_singleton,List.sum_singleton,whole,above]

def running (w : List κ → ℕ) : List (κ × ℕ) → ℕ → ℕ
  | [],_ => 0
  | (c,s) :: below,now => w (path ((c,s) :: below)) * (now - s) + running w below now

theorem running_later (w : List κ → ℕ) (frames : List (κ × ℕ)) (last now : ℕ) (rises : last ≤ now)
    (old : ∀ frame ∈ frames, frame.2 ≤ last) :
    running w frames now = running w frames last + above w (path frames) * (now - last) := by
  induction frames with
  | nil => simp [running,above]
  | cons frame below ih =>
    obtain ⟨c,s⟩ := frame
    have first := old _ List.mem_cons_self
    have rest := ih fun f mem => old f (List.mem_cons_of_mem _ mem)
    have split : now - s = (last - s) + (now - last) := by simp only at first; omega
    rw [running,running,rest,path_cons,above_snoc,split]
    ring

theorem charges_calls [DecidableEq κ] (w : List κ → ℕ) (frames : List (κ × ℕ)) (last : ℕ)
    (word : List (Bracket κ × ℕ)) (closes : replay (frames.map (·.1)) (word.map (·.1)) = some [])
    (rising : Rising last word) (old : ∀ frame ∈ frames, frame.2 ≤ last) :
    ((charges (path frames) last word).map fun c => above w c.1 * c.2).sum + running w frames last =
      ((calls frames word).map fun c => w c.path * (c.closed - c.opened)).sum := by
  induction word generalizing frames last with
  | nil =>
    cases frames with
    | nil => rfl
    | cons frame below => cases closes
  | cons item word ih =>
    obtain ⟨mark,t⟩ := item
    obtain ⟨least,later⟩ := List.pairwise_cons.mp rising
    have rises : last ≤ t := least t List.mem_cons_self
    have before := running_later w frames last t rises old
    have aged : ∀ frame ∈ frames, frame.2 ≤ t := fun frame mem => (old frame mem).trans rises
    cases mark with
    | push c =>
      have step := ih ((c,t) :: frames) t closes later (by
        intro frame mem
        rcases List.mem_cons.mp mem with rfl | mem
        · exact Nat.le_refl _
        · exact aged frame mem)
      rw [running,Nat.sub_self,Nat.mul_zero,Nat.zero_add] at step
      rw [charges,after_push c t,List.map_cons,List.sum_cons,calls,← step]
      dsimp only
      omega
    | pop c =>
      cases frames with
      | nil => cases closes
      | cons frame below =>
        obtain ⟨d,s⟩ := frame
        simp only [List.map_cons,replay] at closes
        split at closes
        · have step := ih below t closes later fun frame mem => aged frame (List.mem_cons_of_mem _ mem)
          rw [running] at before
          rw [charges,after_pop,List.map_cons,List.sum_cons,calls,List.map_cons,List.sum_cons,← step]
          dsimp only
          omega
        · cases closes

def mark (P : Prop) [Decidable P] : ℕ := if P then 1 else 0

theorem sum_marked {α : Type*} (P : α → Prop) [DecidablePred P] (f : α → ℕ) (items : List α) :
    (items.map fun a => mark (P a) * f a).sum = ((items.filter P).map f).sum := by
  induction items with
  | nil => rfl
  | cons a items ih =>
    rw [List.map_cons,List.sum_cons,ih]
    by_cases holds : P a <;> simp [mark,holds]

theorem above_one [DecidableEq κ] {p : List κ} (some : p ≠ []) (path : List κ) :
    above (fun q => mark (q = p)) path = mark (p <+: path) := by
  induction path using List.reverseRecOn with
  | nil => simp [above,mark,some]
  | append_singleton path c ih =>
    rw [above_snoc,ih]
    by_cases whole : p = path ++ [c]
    · have longer : ¬p <+: path := by
        intro within
        have := within.length_le
        simp [whole] at this
      simp [mark,whole.symm,longer]
    · have same : p <+: path ++ [c] ↔ p <+: path := by rw [List.prefix_concat_iff,or_iff_right whole]
      simp [mark,Ne.symm whole,same]

theorem above_root (path : List κ) : above (fun q => mark (q.length = 1)) path = mark (path ≠ []) := by
  induction path using List.reverseRecOn with
  | nil => rfl
  | append_singleton path c ih =>
    rw [above_snoc,ih]
    cases path <;> simp [mark]

def timeAt [DecidableEq κ] (p : List κ) (word : List (Bracket κ × ℕ)) : ℕ :=
  (((calls [] word).filter (·.path = p)).map fun c => c.closed - c.opened).sum

def timeOf (word : List (Bracket κ × ℕ)) : ℕ :=
  (((calls [] word).filter (·.path.length = 1)).map fun c => c.closed - c.opened).sum

section

variable [DecidableEq κ] {word : List (Bracket κ × ℕ)} (closes : replay [] (word.map (·.1)) = some [])
  (rising : Rising last word)
include closes rising

theorem charged_at {p : List κ} (some : p ≠ []) :
    (((charges [] last word).filter (p <+: ·.1)).map (·.2)).sum = timeAt p word := by
  have parts := charges_calls (fun q => mark (q = p)) [] last word closes rising fun _ mem => by cases mem
  simp only [above_one some,running,Nat.add_zero,path_nil] at parts
  rw [sum_marked (fun c : List κ × ℕ => p <+: c.1) (·.2),sum_marked (fun c : Call κ => c.path = p)] at parts
  exact parts

theorem charged_all : (((charges [] last word).filter (·.1 ≠ [])).map (·.2)).sum = timeOf word := by
  have parts := charges_calls (fun q => mark (q.length = 1)) [] last word closes rising fun _ mem => by cases mem
  simp only [above_root,running,Nat.add_zero,path_nil] at parts
  rw [sum_marked (fun c : List κ × ℕ => c.1 ≠ []) (·.2),sum_marked (fun c : Call κ => c.path.length = 1)] at parts
  exact parts

end

end Timed
