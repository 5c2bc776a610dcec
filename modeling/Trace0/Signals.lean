import Trace0.Lib.Machine

namespace Trace0.Signals

inductive DeadlySignal where
  | SIGTERM
  | SIGHUP
  | SIGQUIT
  deriving DecidableEq

def deadlySignals : List DeadlySignal := [.SIGTERM,.SIGHUP,.SIGQUIT]

inductive Handler (H : Type) where
  | default
  | ignore
  | callable (h : H)
  deriving DecidableEq

inductive Disposition (H : Type) where
  | ours
  | program (handler : Handler H)
  deriving DecidableEq

-- How a delivery ends: in a handler of the program, in the default action, which ends the
-- process, ignored, in the error of a run that could not be ended, or with nothing done.
inductive Outcome (H : Type) where
  | ran (h : H)
  | ended
  | ignored
  | failed
  | nothing
  deriving DecidableEq

def Outcome.answered : Outcome H → Bool
  | .ran _ | .ended | .ignored => true
  | .failed | .nothing => false

-- `obtained` says whether the program has been given our handler; `outcomes`, which no step
-- reads, how each delivery so far ended.
structure State (H : Type) where
  current : DeadlySignal → Disposition H
  replaced : List (DeadlySignal × Handler H)
  active : Option Nat
  running : Nat → Bool
  obtained : Bool
  alive : Bool
  outcomes : List (Outcome H)

-- `main` says whether the call comes from the main thread, the only one `signal.signal` works
-- on. `locked` says whether a lock that ending the run needs is taken, `ok` whether it ends well.
inductive Act (H : Type) where
  | enter (tracer : Nat) (main : Bool)
  | exit (tracer : Nat) (main : Bool)
  | getsignal (sig : DeadlySignal)
  | signal (sig : DeadlySignal) (handler : Disposition H)
  | deliver (sig : DeadlySignal) (locked ok : Bool)

variable {H : Type}

def Disposition.isOurs : Disposition H → Bool
  | .ours => true
  | .program _ => false

namespace State

def initial (found : DeadlySignal → Handler H) : State H :=
  ⟨fun sig => .program (found sig),[],none,fun _ => false,false,true,[]⟩

def takeOver (main : Bool) (s : State H) (sig : DeadlySignal) : State H :=
  match s.current sig with
  | .ours => s
  | .program previous =>
    if main then {s with
      current := Function.update s.current sig .ours
      replaced := s.replaced.filter (·.1 ≠ sig) ++ [(sig,previous)]}
    else s

def takeOverDeadlySignals (s : State H) (main : Bool) : State H := deadlySignals.foldl (takeOver main) s

def handBack (main : Bool) (current : DeadlySignal → Disposition H) (x : DeadlySignal × Handler H) :
    DeadlySignal → Disposition H :=
  if (current x.1).isOurs && main then Function.update current x.1 (.program x.2) else current

def handBackDeadlySignals (s : State H) (main : Bool) : State H :=
  {s with current := s.replaced.foldl (handBack main) s.current,replaced := []}

-- The run `end_active_run` would end, where it gets the locks.
def activeRun (s : State H) (locked : Bool) : Option Nat :=
  if locked then none else s.active.filter s.running

def log (s : State H) (outcome : Outcome H) : State H := {s with outcomes := s.outcomes ++ [outcome]}

def applyDefault (s : State H) : State H := {s with alive := false}.log .ended

def reset (s : State H) (sig : DeadlySignal) (handler : Handler H) : State H :=
  {s with current := Function.update s.current sig (.program handler)}

def handleDeadlySignal (s : State H) (sig : DeadlySignal) (locked ok : Bool) : State H :=
  match s.replaced.find? (·.1 = sig) with
  | none => s.log .nothing
  | some (_,.callable h) => s.log (.ran h)
  | some (_,.ignore) => (s.reset sig .ignore).log .ignored
  | some (_,.default) =>
    match s.activeRun locked with
    | none => (s.reset sig .default).applyDefault
    | some tracer =>
      let s := {s with running := Function.update s.running tracer false}
      if ok then (s.reset sig .default).applyDefault else s.log .failed

def deliver (s : State H) (sig : DeadlySignal) (locked ok : Bool) : State H :=
  match s.current sig with
  | .ours => s.handleDeadlySignal sig locked ok
  | .program .default => s.applyDefault
  | .program .ignore => s.log .ignored
  | .program (.callable h) => s.log (.ran h)

def step (s : State H) : Act H → Option (State H)
  | .enter tracer main =>
    if s.alive then
      let s := s.takeOverDeadlySignals main
      some {s with running := Function.update s.running tracer true,active := some tracer}
    else none
  | .exit tracer main =>
    if s.alive then
      let s := {s with active := none}.handBackDeadlySignals main
      some {s with running := Function.update s.running tracer false}
    else none
  | .getsignal sig =>
    if s.alive then some {s with obtained := s.obtained || (s.current sig).isOurs} else none
  | .signal sig handler =>
    if s.alive && (!handler.isOurs || s.obtained) then
      some {s with
        obtained := s.obtained || (s.current sig).isOurs
        current := Function.update s.current sig handler}
    else none
  | .deliver sig locked ok => if s.alive then some (s.deliver sig locked ok) else none

end State

-- The program puts our handler back only where a scope has it taken over, a scope that has
-- something to hand back ends on the main thread, and a run the handler ends ends well.
def Orderly (s : State H) : Act H → Prop
  | .signal sig .ours => ∃ previous, (sig,previous) ∈ s.replaced
  | .exit _ main => main = true ∨ ∀ x ∈ s.replaced, s.current x.1 ≠ .ours
  | .deliver sig locked ok => s.current sig = .ours → s.replaced.find? (·.1 = sig) = some (sig,.default) →
      s.activeRun locked ≠ none → ok = true
  | _ => True

structure Covered (s : State H) : Prop where
  replaced : ∀ sig, s.current sig = .ours → ∃ previous, (sig,previous) ∈ s.replaced
  answered : ∀ outcome ∈ s.outcomes, outcome.answered = true

variable {s s' : State H}

theorem takeOver_covers {main : Bool} (covered : ∀ sig, s.current sig = .ours → ∃ p, (sig,p) ∈ s.replaced)
    (sig : DeadlySignal) : ∀ other, (s.takeOver main sig).current other = .ours →
      ∃ p, (other,p) ∈ (s.takeOver main sig).replaced := by
  intro other
  unfold State.takeOver
  split
  · exact covered other
  · rename_i previous found
    split
    · dsimp only
      intro ours
      by_cases same : other = sig
      · exact ⟨previous,by simp [same]⟩
      · rw [Function.update_of_ne same] at ours
        obtain ⟨p,present⟩ := covered other ours
        exact ⟨p,List.mem_append_left _ (List.mem_filter.mpr ⟨present,by simpa using same⟩)⟩
    · exact covered other

theorem takeOver_outcomes (main : Bool) (s : State H) (sig : DeadlySignal) :
    (s.takeOver main sig).outcomes = s.outcomes := by
  unfold State.takeOver
  split
  · rfl
  · split <;> rfl

theorem takeOverDeadlySignals_covers (covered : Covered s) (main : Bool) :
    Covered (s.takeOverDeadlySignals main) := by
  unfold State.takeOverDeadlySignals
  induction deadlySignals generalizing s with
  | nil => exact covered
  | cons sig rest ih =>
    apply ih
    refine ⟨takeOver_covers covered.replaced sig,?_⟩
    rw [takeOver_outcomes]
    exact covered.answered

theorem handBack_keeps (main : Bool) (replaced : List (DeadlySignal × Handler H))
    (current : DeadlySignal → Disposition H) {sig : DeadlySignal} {handler : Handler H}
    (own : current sig = .program handler) : replaced.foldl (State.handBack main) current sig = .program handler := by
  induction replaced generalizing current with
  | nil => exact own
  | cons x rest ih =>
    apply ih
    unfold State.handBack
    split
    · rename_i ours
      have other : sig ≠ x.1 := by
        rintro rfl
        simp [own,Disposition.isOurs] at ours
      rw [Function.update_of_ne other]
      exact own
    · exact own

theorem handBack_hands (replaced : List (DeadlySignal × Handler H)) (current : DeadlySignal → Disposition H)
    {sig : DeadlySignal} {previous : Handler H} (present : (sig,previous) ∈ replaced) :
    ∃ handler, replaced.foldl (State.handBack true) current sig = .program handler := by
  induction replaced generalizing current with
  | nil => cases present
  | cons x rest ih =>
    rcases List.mem_cons.mp present with rfl | later
    · cases found : current sig with
      | program handler => exact ⟨handler,handBack_keeps true _ _ found⟩
      | ours =>
        refine ⟨previous,handBack_keeps true rest (State.handBack true current (sig,previous)) ?_⟩
        simp [State.handBack,found,Disposition.isOurs]
    · exact ih _ later

theorem handBack_alone (main : Bool) (replaced : List (DeadlySignal × Handler H))
    (current : DeadlySignal → Disposition H) (none : ∀ x ∈ replaced, current x.1 ≠ .ours) :
    replaced.foldl (State.handBack main) current = current := by
  induction replaced with
  | nil => rfl
  | cons x rest ih =>
    have first := none x List.mem_cons_self
    have same : State.handBack main current x = current := by
      unfold State.handBack
      cases found : current x.1 with
      | ours => exact absurd found first
      | program handler => rfl
    rw [List.foldl_cons,same]
    exact ih fun y later => none y (List.mem_cons_of_mem _ later)

theorem exit_covers (covered : Covered s) {tracer : Nat} {main : Bool} (met : Orderly s (.exit tracer main))
    (sig : DeadlySignal) : s.replaced.foldl (State.handBack main) s.current sig ≠ .ours := by
  intro ours
  cases found : s.current sig with
  | program handler =>
    rw [handBack_keeps main _ _ found] at ours
    cases ours
  | ours =>
    obtain ⟨previous,present⟩ := covered.replaced sig found
    rcases met with rfl | none
    · obtain ⟨handler,back⟩ := handBack_hands s.replaced s.current present
      rw [back] at ours
      cases ours
    · exact none _ present found

theorem logged (covered : Covered s) {outcome : Outcome H} (answered : outcome.answered = true) :
    Covered (s.log outcome) := by
  refine ⟨covered.replaced,?_⟩
  intro o present
  rcases List.mem_append.mp present with old | new
  · exact covered.answered o old
  · rw [List.mem_singleton.mp new]
    exact answered

theorem reset_covers (covered : Covered s) (sig : DeadlySignal) (handler : Handler H) :
    Covered (s.reset sig handler) := by
  refine ⟨?_,covered.answered⟩
  intro other ours
  by_cases same : other = sig
  · simp [State.reset,same] at ours
  · simp only [State.reset,Function.update_of_ne same] at ours
    exact covered.replaced other ours

theorem default_covers (covered : Covered s) : Covered s.applyDefault := by
  have stopped : Covered {s with alive := false} := ⟨covered.replaced,covered.answered⟩
  exact logged stopped rfl

theorem handled_covers (covered : Covered s) {sig : DeadlySignal} {locked ok : Bool} (ours : s.current sig = .ours)
    (met : Orderly s (.deliver sig locked ok)) : Covered (s.handleDeadlySignal sig locked ok) := by
  unfold State.handleDeadlySignal
  split
  · rename_i absent
    obtain ⟨previous,present⟩ := covered.replaced sig ours
    have missed := List.find?_eq_none.mp absent _ present
    simp at missed
  · exact logged covered rfl
  · exact logged (reset_covers covered sig .ignore) rfl
  · rename_i number found
    have own : number = sig := by simpa using List.find?_some found
    rw [own] at found
    split
    · exact default_covers (reset_covers covered sig .default)
    · rename_i tracer active
      have ended := met ours found (by simp [active])
      rw [if_pos ended]
      have stopped : Covered {s with running := Function.update s.running tracer false} :=
        ⟨covered.replaced,covered.answered⟩
      exact default_covers (reset_covers stopped sig .default)

theorem covered_step {act : Act H} (covered : Covered s) (met : Orderly s act) (stepped : s.step act = some s') :
    Covered s' := by
  cases act with
  | enter tracer main =>
    obtain ⟨_,stepped⟩ := Option.ite_none_right_eq_some.mp stepped
    cases stepped
    have taken := takeOverDeadlySignals_covers covered main
    exact ⟨taken.replaced,taken.answered⟩
  | exit tracer main =>
    obtain ⟨_,stepped⟩ := Option.ite_none_right_eq_some.mp stepped
    cases stepped
    exact ⟨fun sig ours => absurd ours (exit_covers covered met sig),covered.answered⟩
  | getsignal sig =>
    obtain ⟨_,stepped⟩ := Option.ite_none_right_eq_some.mp stepped
    cases stepped
    exact ⟨covered.replaced,covered.answered⟩
  | signal sig handler =>
    obtain ⟨_,stepped⟩ := Option.ite_none_right_eq_some.mp stepped
    cases stepped
    refine ⟨?_,covered.answered⟩
    intro other ours
    dsimp only at ours
    by_cases same : other = sig
    · subst other
      rw [Function.update_self] at ours
      subst ours
      exact met
    · rw [Function.update_of_ne same] at ours
      exact covered.replaced other ours
  | deliver sig locked ok =>
    obtain ⟨_,stepped⟩ := Option.ite_none_right_eq_some.mp stepped
    cases stepped
    unfold State.deliver
    split
    · rename_i ours
      exact handled_covers covered ours met
    · exact default_covers covered
    · exact logged covered rfl
    · exact logged covered rfl

theorem signals_answered {found : DeadlySignal → Handler H} {acts : List (Act H)}
    (run : Machine.Runs State.step Orderly (.initial found) acts s) :
    (∀ outcome ∈ s.outcomes, outcome.answered = true) ∧
      ∀ tracer main s', s.step (.exit tracer main) = some s' →
        ∀ sig handler, s.current sig = .program handler → s'.current sig = .program handler := by
  have start : Covered (.initial found : State H) := ⟨by simp [State.initial],by simp [State.initial]⟩
  have covered : Covered s := run.invariant start fun _ _ _ inv met stepped => covered_step inv met stepped
  refine ⟨covered.answered,?_⟩
  intro tracer main s' stepped sig handler own
  obtain ⟨_,stepped⟩ := Option.ite_none_right_eq_some.mp stepped
  cases stepped
  exact handBack_keeps main _ _ own

def testsOrderly (s : State Nat) : Act Nat → Bool
  | .signal sig .ours => s.replaced.any fun x => x.1 = sig
  | .exit _ main => main
  | .deliver _ _ ok => ok
  | _ => true

theorem testsOrderly_meets (s : State Nat) (act : Act Nat) (checked : testsOrderly s act = true) :
    Orderly s act := by
  cases act with
  | signal sig handler =>
    cases handler with
    | ours =>
      obtain ⟨⟨other,previous⟩,present,same⟩ := List.any_eq_true.mp checked
      rw [decide_eq_true_eq] at same
      exact ⟨previous,same ▸ present⟩
    | program handler => trivial
  | exit tracer main => exact .inl checked
  | deliver sig locked ok => exact fun _ _ _ => checked
  | _ => trivial

-- A handler of the program saves ours and puts it back inside the scope; a delivery goes to
-- the program's own handler, and one of a signal nobody handles ends the process.
theorem signals_answered_restored : ∃ s : State Nat, s.outcomes = [.ran 3,.ran 5,.ended] ∧
    ∀ outcome ∈ s.outcomes, outcome.answered = true := by
  have ran : (Machine.checkedRun State.step testsOrderly
      (.initial fun sig => if sig = .SIGHUP then .callable 5 else .default)
      [.enter 0 true,.signal .SIGHUP (.program (.callable 3)),.deliver .SIGHUP false true,.signal .SIGHUP .ours,
        .deliver .SIGHUP false true,.deliver .SIGTERM false true]).map (·.outcomes) =
      some [.ran 3,.ran 5,.ended] := by
    decide +kernel
  obtain ⟨s,run,outcomes⟩ := Option.map_eq_some_iff.mp ran
  exact ⟨s,outcomes,(signals_answered (Machine.runs_of_checked testsOrderly_meets run)).1⟩

-- The program saves our handler during the scope and puts it back after.
theorem restored_handler_swallows : ∃ (acts : List (Act Nat)) (s : State Nat),
    Machine.Runs State.step Machine.anything (.initial fun _ => .default) acts s ∧
      ¬∀ outcome ∈ s.outcomes, outcome.answered = true := by
  have ran : (Machine.checkedRun (State.step (H := Nat)) (fun _ _ => true) (.initial fun _ => .default)
      [.enter 0 true,.signal .SIGTERM (.program (.callable 3)),.exit 0 true,.signal .SIGTERM .ours,
        .deliver .SIGTERM false true]).map (·.outcomes) = some [.nothing] := by
    decide +kernel
  obtain ⟨s,run,outcomes⟩ := Option.map_eq_some_iff.mp ran
  refine ⟨_,s,Machine.runs_of_checked (fun _ _ _ => trivial) run,?_⟩
  rw [outcomes]
  decide

end Trace0.Signals
