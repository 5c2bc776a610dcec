import Mathlib.Data.List.Basic
import Mathlib.Tactic

-- Words of matched brackets read against a stack. `replay` demands that a closing bracket
-- meets its own opening one; `scan` reads leniently and reports the closes that met nothing.
namespace Brackets

inductive Bracket (κ : Type*) where
  | push (c : κ)
  | pop (c : κ)

variable {κ : Type*}

def scan : List κ → List (Bracket κ) → List κ × List κ
  | stack,[] => (stack,[])
  | stack,.push c :: rest => scan (c :: stack) rest
  | _ :: stack,.pop _ :: rest => scan stack rest
  | [],.pop c :: rest => ((scan [] rest).1,c :: (scan [] rest).2)

def orphans (word : List (Bracket κ)) : List κ := (scan [] word).2

def Bracket.map (f : κ → ι) : Bracket κ → Bracket ι
  | .push c => .push (f c)
  | .pop c => .pop (f c)

theorem scan_map (f : κ → ι) (stack : List κ) (word : List (Bracket κ)) :
    scan (stack.map f) (word.map (Bracket.map f)) =
      ((scan stack word).1.map f,(scan stack word).2.map f) := by
  induction word generalizing stack with
  | nil => rfl
  | cons mark word ih =>
    cases mark with
    | push c => exact ih (c :: stack)
    | pop c =>
      cases stack with
      | cons top stack => exact ih stack
      | nil =>
        have rest := ih []
        rw [List.map_nil] at rest
        simp only [List.map_cons,List.map_nil,Bracket.map,scan,rest]

theorem scan_append (stack : List κ) (left right : List (Bracket κ)) :
    scan stack (left ++ right) = ((scan (scan stack left).1 right).1,
      (scan stack left).2 ++ (scan (scan stack left).1 right).2) := by
  induction left generalizing stack with
  | nil => rfl
  | cons mark left ih =>
    cases mark with
    | push c => exact ih (c :: stack)
    | pop c =>
      cases stack with
      | cons top stack => exact ih stack
      | nil => simp only [List.cons_append,scan,ih []]

theorem scan_pushes (stack codes : List κ) :
    scan stack (codes.map .push) = (codes.reverse ++ stack,[]) := by
  induction codes generalizing stack with
  | nil => rfl
  | cons c codes ih => simp [scan,ih]

theorem scan_mem {stack : List κ} {word : List (Bracket κ)} {c : κ} (present : c ∈ (scan stack word).2) :
    Bracket.pop c ∈ word := by
  induction word generalizing stack with
  | nil => cases present
  | cons mark word ih =>
    cases mark with
    | push d => exact List.mem_cons_of_mem _ (ih present)
    | pop d =>
      cases stack with
      | cons top stack => exact List.mem_cons_of_mem _ (ih present)
      | nil =>
        rcases List.mem_cons.mp present with rfl | later
        · exact List.mem_cons_self
        · exact List.mem_cons_of_mem _ (ih later)

theorem scan_below (own below : List κ) (word : List (Bracket κ)) :
    (scan (own ++ below) word).2 = (scan own word).2.drop below.length := by
  induction word generalizing own below with
  | nil => simp [scan]
  | cons mark word ih =>
    cases mark with
    | push c => exact ih (c :: own) below
    | pop c =>
      cases own with
      | cons top own => exact ih own below
      | nil =>
        cases below with
        | nil => rfl
        | cons top below => simpa [scan] using ih [] below

variable [DecidableEq κ]

def replay : List κ → List (Bracket κ) → Option (List κ)
  | stack,[] => some stack
  | stack,.push c :: rest => replay (c :: stack) rest
  | top :: stack,.pop c :: rest => if top = c then replay stack rest else none
  | [],.pop _ :: _ => none

def Nested (word : List (Bracket κ)) : Prop := (replay [] word).isSome

def Suffix (word : List (Bracket κ)) : Prop := ∃ before, Nested (before ++ word)

theorem replay_append (stack : List κ) (left right : List (Bracket κ)) :
    replay stack (left ++ right) = (replay stack left).bind (replay · right) := by
  induction left generalizing stack with
  | nil => rfl
  | cons mark left ih =>
    cases mark with
    | push c => exact ih _
    | pop c =>
      cases stack with
      | nil => rfl
      | cons top stack =>
        simp only [List.cons_append,replay]
        split
        · exact ih _
        · rfl

theorem replay_pushes (stack codes : List κ) :
    replay stack (codes.map .push) = some (codes.reverse ++ stack) := by
  induction codes generalizing stack with
  | nil => rfl
  | cons c codes ih => simp [replay,ih]

-- A successful reading from `own ++ below` leaves `own` to the scan: the orphans of the
-- scan are the part of `below` it consumes, and its stack is what it leaves on top.
theorem replay_scan (own : List κ) {below after : List κ} {word : List (Bracket κ)}
    (read : replay (own ++ below) word = some after) :
    ∃ kept, below = (scan own word).2 ++ kept ∧ after = (scan own word).1 ++ kept := by
  induction word generalizing own below with
  | nil => exact ⟨below,rfl,(Option.some.inj read).symm⟩
  | cons mark word ih =>
    cases mark with
    | push c => exact ih (c :: own) read
    | pop c =>
      cases own with
      | cons top own =>
        simp only [List.cons_append,replay] at read
        split at read
        · exact ih own read
        · cases read
      | nil =>
        cases below with
        | nil => cases read
        | cons top below =>
          simp only [List.nil_append,replay] at read
          split at read
          · rename_i same
            obtain ⟨kept,splits,left⟩ := ih [] read
            exact ⟨kept,by simp [scan,same,← splits],left⟩
          · cases read

theorem replay_of_orphans (own kept : List κ) {below after : List κ} {word : List (Bracket κ)}
    (read : replay (own ++ below) word = some after) :
    replay (own ++ ((scan own word).2 ++ kept)) word = some ((scan own word).1 ++ kept) := by
  induction word generalizing own below with
  | nil => rfl
  | cons mark word ih =>
    cases mark with
    | push c => exact ih (c :: own) read
    | pop c =>
      cases own with
      | cons top own =>
        simp only [List.cons_append,replay] at read ⊢
        split at read
        · rename_i same
          rw [if_pos same]
          exact ih own read
        · cases read
      | nil =>
        cases below with
        | nil => cases read
        | cons top below =>
          simp only [List.nil_append,replay] at read
          split at read
          · simpa [scan,replay] using ih [] read
          · cases read

theorem suffix_replay {word : List (Bracket κ)} (cut : Suffix word) :
    ∃ below after, replay below word = some after := by
  obtain ⟨before,nested⟩ := cut
  rw [Nested,replay_append] at nested
  cases read : replay [] before with
  | none => simp [read] at nested
  | some below =>
    simp only [read,Option.bind_some] at nested
    exact ⟨below,_,Option.eq_some_of_isSome nested⟩

theorem suffix_iff {word : List (Bracket κ)} (cut : Suffix word) (stack : List κ) :
    (replay stack word).isSome ↔ orphans word <+: stack := by
  obtain ⟨below,after,read⟩ := suffix_replay cut
  constructor
  · intro done
    obtain ⟨kept,splits,_⟩ := replay_scan [] (Option.eq_some_of_isSome done)
    exact ⟨kept,splits.symm⟩
  · rintro ⟨kept,rfl⟩
    have known := replay_of_orphans [] kept (by simpa using read)
    simp only [List.nil_append] at known
    simp [orphans,known]

theorem suffix_of_replay {below after : List κ} {word : List (Bracket κ)}
    (read : replay below word = some after) : Suffix word := by
  refine ⟨below.reverse.map .push,?_⟩
  rw [Nested,replay_append,replay_pushes]
  simp [read]

-- Frames between the word's own opens and the stack it was cut from take its first
-- unmatched closes; the rest are missing opens. Pushing what is missing on top of those
-- frames, in the order of the closes, repairs the word only where the two agree in order.
theorem repaired_iff {own level : List κ} (below : List κ) {word : List (Bracket κ)}
    (read : (replay (own ++ level ++ below) word).isSome) :
    (replay (own ++ ((scan (own ++ level) word).2.reverse ++ level)) word).isSome ↔
      level ++ (scan (own ++ level) word).2 = (scan (own ++ level) word).2.reverse ++ level := by
  rw [List.append_assoc] at read
  have ownFirst (stack : List κ) :
      (replay stack (own.reverse.map .push ++ word)).isSome = (replay (own ++ stack) word).isSome := by
    rw [replay_append,replay_pushes,List.reverse_reverse,Option.bind_some]
  have cut : Suffix (own.reverse.map .push ++ word) := by
    obtain ⟨after,read⟩ := Option.isSome_iff_exists.mp ((ownFirst (level ++ below)).trans read)
    exact suffix_of_replay read
  have wanted : orphans (own.reverse.map .push ++ word) = (scan own word).2 := by
    rw [orphans,scan_append,scan_pushes,List.reverse_reverse,List.append_nil,List.nil_append]
  obtain ⟨kept,splits,_⟩ := replay_scan own (Option.eq_some_of_isSome read)
  rw [← ownFirst,suffix_iff cut,wanted,scan_below]
  generalize (scan own word).2 = closes at splits ⊢
  have agree : closes <+: level ++ below := ⟨kept,splits.symm⟩
  rcases Nat.le_total closes.length level.length with short | long
  · have inside : closes <+: level :=
      List.prefix_of_prefix_length_le agree (List.prefix_append _ _) short
    have none : closes.drop level.length = [] := List.drop_eq_nil_of_le short
    simpa [none] using inside
  · obtain ⟨missing,whole⟩ := List.prefix_of_prefix_length_le (List.prefix_append level below) agree long
    subst whole
    rw [List.drop_left]
    constructor
    · rintro ⟨rest,same⟩
      have lengths := congrArg List.length same
      simp only [List.length_append,List.length_reverse] at lengths
      have none : rest = [] := List.eq_nil_of_length_eq_zero (by omega)
      simpa [none] using same
    · exact fun same => same ▸ List.prefix_refl _

end Brackets
