import Mathlib.Tactic

-- Runs of a machine given by a partial step function, with a condition every step is known
-- to meet. A safety property is an invariant of the steps, proved once along the run.
namespace Machine

variable {σ α : Type*} {step : σ → α → Option σ} {ok : σ → α → Prop}

inductive Runs (step : σ → α → Option σ) (ok : σ → α → Prop) : σ → List α → σ → Prop where
  | nil : Runs step ok s [] s
  | snoc (prior : Runs step ok s acts m) (met : ok m a) (next : step m a = some s') :
      Runs step ok s (acts ++ [a]) s'

def anything (_ : σ) (_ : α) : Prop := True

def run (step : σ → α → Option σ) : σ → List α → Option σ
  | s,[] => some s
  | s,a :: acts => (step s a).bind (run step · acts)

theorem Runs.invariant {I : σ → Prop} (path : Runs step ok s acts s') (start : I s)
    (keep : ∀ m a m', I m → ok m a → step m a = some m' → I m') : I s' := by
  induction path with
  | nil => exact start
  | snoc prior met next ih => exact keep _ _ _ ih met next

theorem Runs.mono {weaker : σ → α → Prop} (path : Runs step ok s acts s') (weaken : ∀ s a, ok s a → weaker s a) :
    Runs step weaker s acts s' := by
  induction path with
  | nil => exact .nil
  | snoc prior met next ih => exact .snoc ih (weaken _ _ met) next

theorem Runs.among (path : Runs step ok s acts s') : Runs step (fun _ a => a ∈ acts) s acts s' := by
  induction path with
  | nil => exact .nil
  | snoc prior met next ih =>
    exact .snoc (ih.mono fun _ _ => List.mem_append_left _) (List.mem_append_right _ (List.mem_singleton_self _)) next

theorem Runs.each {each : α → Prop} (path : Runs step (fun _ a => each a) s acts s') : ∀ a ∈ acts, each a := by
  induction path with
  | nil => simp
  | snoc prior met next ih =>
    intro a present
    rcases List.mem_append.mp present with before | now
    · exact ih a before
    · rw [List.mem_singleton.mp now]
      exact met

theorem Runs.append (left : Runs step ok s earlier m) (right : Runs step ok m later s') :
    Runs step ok s (earlier ++ later) s' := by
  induction right with
  | nil => simpa using left
  | snoc prior met next ih => simpa only [List.append_assoc] using Runs.snoc ih met next

theorem Runs.cons (met : ok s a) (next : step s a = some m) (rest : Runs step ok m acts s') :
    Runs step ok s (a :: acts) s' :=
  (Runs.snoc .nil met next).append rest

theorem runs_of_run {acts : List α} (ran : run step s acts = some s') : Runs step anything s acts s' := by
  induction acts generalizing s with
  | nil =>
    cases Option.some.inj ran
    exact .nil
  | cons a acts ih =>
    obtain ⟨m,next,rest⟩ := Option.bind_eq_some_iff.mp ran
    exact .cons trivial next (ih rest)

theorem Runs.again {Stage : Nat → σ → Prop} (once : ∀ n s, Stage n s → ∃ acts s', Runs step ok s acts s' ∧ Stage (n+1) s')
    (n : Nat) (start : Stage 0 s) : ∃ acts s', Runs step ok s acts s' ∧ Stage n s' := by
  induction n with
  | zero => exact ⟨[],s,.nil,start⟩
  | succ n ih =>
    obtain ⟨acts,m,path,stage⟩ := ih
    obtain ⟨more,s',rest,next⟩ := once n m stage
    exact ⟨acts ++ more,s',path.append rest,next⟩

def checkedRun (step : σ → α → Option σ) (check : σ → α → Bool) : σ → List α → Option σ
  | s,[] => some s
  | s,a :: acts => if check s a then (step s a).bind (checkedRun step check · acts) else none

theorem runs_of_checked {check : σ → α → Bool} (meets : ∀ s a, check s a = true → ok s a)
    {acts : List α} (ran : checkedRun step check s acts = some s') : Runs step ok s acts s' := by
  induction acts generalizing s with
  | nil =>
    cases Option.some.inj ran
    exact .nil
  | cons a acts ih =>
    unfold checkedRun at ran
    split at ran
    · rename_i checked
      obtain ⟨m,next,rest⟩ := Option.bind_eq_some_iff.mp ran
      exact .cons (meets s a checked) next (ih rest)
    · cases ran

-- A machine left to itself: whatever its steps are given, it gets to a state of some kind.
section Alone

variable {σ α : Type*}

inductive Eventually (step : σ → α → Option σ) (P : σ → Prop) : σ → Prop where
  | now (here : P s) : Eventually step P s
  | later (goes : ∀ a, step s a ≠ none) (next : ∀ a s', step s a = some s' → Eventually step P s') : Eventually step P s

variable {step : σ → α → Option σ} {P Q I : σ → Prop} {s : σ}

theorem Eventually.bind (first : Eventually step P s) (second : ∀ s, P s → Eventually step Q s) : Eventually step Q s := by
  induction first with
  | now here => exact second _ here
  | later goes _ next => exact .later goes next

theorem Eventually.mono (first : Eventually step P s) (weaker : ∀ s, P s → Q s) : Eventually step Q s :=
  first.bind fun s here => .now (weaker s here)

theorem Eventually.once (next : ∀ a, ∃ s', step s a = some s' ∧ Eventually step P s') : Eventually step P s := by
  refine .later ?_ ?_
  · intro a stuck
    obtain ⟨s',goes,_⟩ := next a
    rw [stuck] at goes
    cases goes
  · intro a s' goes
    obtain ⟨m,steps,later⟩ := next a
    cases steps.symm.trans goes
    exact later

theorem Eventually.keeping (path : Eventually step P s) (start : I s) (keep : ∀ s a s', I s → step s a = some s' → I s') :
    Eventually step (fun s => P s ∧ I s) s := by
  induction path with
  | now here => exact .now ⟨here,start⟩
  | later goes _ next => exact .later goes fun a s' stepped => next a s' stepped (keep _ a s' start stepped)

theorem Eventually.measure (size : σ → Nat)
    (go : ∀ s, I s → P s ∨ ∀ a, ∃ s', step s a = some s' ∧ I s' ∧ size s' < size s) (start : I s) :
    Eventually step P s := by
  induction held : size s using Nat.strong_induction_on generalizing s with
  | _ n ih =>
    subst held
    rcases go s start with here | next
    · exact .now here
    · refine .once fun a => ?_
      obtain ⟨s',stepped,inv,less⟩ := next a
      exact ⟨s',stepped,ih _ less inv rfl⟩

theorem Eventually.reached (path : Eventually step P s) (given : Nat → α) :
    ∃ n s', run step s ((List.range n).map given) = some s' ∧ P s' := by
  induction path generalizing given with
  | now here => exact ⟨0,_,rfl,here⟩
  | @later s goes _ next =>
    obtain ⟨m,stepped⟩ := Option.ne_none_iff_exists'.mp (goes (given 0))
    obtain ⟨n,s',ran,here⟩ := next (given 0) m stepped (fun i => given (i+1))
    refine ⟨n+1,s',?_,here⟩
    rw [List.range_succ_eq_map,List.map_cons,List.map_map]
    exact Option.bind_eq_some_iff.mpr ⟨m,stepped,ran⟩

end Alone

end Machine
