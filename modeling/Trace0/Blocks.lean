import Trace0.Control
import Trace0.Lib.Tickets
import Trace0.RecorderClose

namespace Trace0
namespace Blocks

section Model

inductive Stage where
  | ready
  | open_ (id : Nat) (startTicks : UInt64)
  | done
  deriving DecidableEq

-- How far the `__exit__` has come that found its block open. It waits for a channel whose
-- other end it has sent to the recorder of that run.
inductive Exit where
  | asking (id : Nat) (startTicks : UInt64) (reason : String)
  | waiting (run channel : Nat)
  | raised
  | returned
  deriving DecidableEq

-- `written` is the `Snapshot`'s. No step reads `opened` and `asked`: the run that was sent the
-- block's `Open`, or its `Dump`, and how many messages it had been sent before.
structure SnapshotBlock where
  reason : String
  stage : Stage
  exit_ : Option Exit
  written : Option String
  opened : Option (Nat × Nat)
  asked : Option (Nat × Nat)
  deriving DecidableEq

def SnapshotBlock.new (reason : String) : SnapshotBlock := ⟨reason,.ready,none,none,none,none⟩

-- `ended` says that `Tracer::end` has sent the run's `DumpAll`, `gone` that the recorder's
-- thread is over and its end of the channel dropped.
structure Run (T : Type) where
  recorder : RunRecorder T
  ended : Bool
  gone : Bool

-- A tracer with `record_last_mb`: the runs it has begun, which of them is in its slot, and
-- every block made of it. The two counters are the process's.
structure Snapshots (T : Type) where
  runs : List (Run T)
  running : Option Nat
  nextWindow : Nat
  nextChannel : Nat
  blocks : List SnapshotBlock

-- `take` empties the slot, as `__exit__` and the signal handler do, and `end_` is the `send` of
-- `Tracer::end`. A window may be taken by a block of another tracer. `excType` is the name of
-- what was raised in the block, if that is a string.
inductive SnapshotAct (T : Type) where
  | begin_ (id : Nat) (clock : Clock) (capacityBytes : Nat)
  | outside (k : Nat) (a : Act T)
  | own (k : Nat) (now : UInt64)
  | hangUp (k : Nat)
  | take
  | end_ (k : Nat) (endTicks : UInt64) (reason : String)
  | nextWindow
  | snapshot (reason : String)
  | enter (i : Nat) (startTicks : UInt64)
  | exit (i : Nat) (excType : Option (Option String))
  | ask (i : Nat) (endTicks : UInt64)
  | recv (i : Nat)

variable {T : Type} [DecidableEq T]

def Run.holds (run : Run T) (channel : Nat) : Bool :=
  !run.gone && (run.recorder.control.any (·.msg.done = some channel) ||
    match run.recorder.stand with
    | .handling order _ _ => order.msg.done = some channel
    | _ => false)

def Run.stopped (run : Run T) : Bool :=
  match run.recorder.stand with
  | .failed _ | .returned => true
  | _ => false

namespace Snapshots

def initial : Snapshots T := ⟨[],none,1,0,[]⟩

def withBlock (s : Snapshots T) (i : Nat) (block : SnapshotBlock) : Snapshots T :=
  {s with blocks := s.blocks.set i block}

def withRun (s : Snapshots T) (k : Nat) (run : Run T) : Snapshots T := {s with runs := s.runs.set k run}

def stepRun (tidOf : T → UInt32) (sinks : Nat → Sinks) (s : Snapshots T) (k : Nat) (run : Run T) (act : RunAct T) :
    Option (Snapshots T) :=
  (run.recorder.step tidOf (sinks k) act).map fun recorder => s.withRun k {run with recorder := recorder}

-- `with_recorder` and its `send`, with the place of the message. It raises where no run is in
-- the slot or the receiver is gone.
def send (tidOf : T → UInt32) (sinks : Nat → Sinks) (s : Snapshots T) (msg : Control) :
    Option ((Nat × Nat) × Snapshots T) := do
  let k ← s.running
  let run ← s.runs[k]?
  if run.gone then none
  else (s.stepRun tidOf sinks k run (.send msg)).map fun s => ((k,run.recorder.sent.length),s)

-- A block that was entered before raises, as one does whose `Open` cannot be sent.
def enter (tidOf : T → UInt32) (sinks : Nat → Sinks) (s : Snapshots T) (i : Nat) (block : SnapshotBlock)
    (startTicks : UInt64) : Snapshots T :=
  match block.stage,s.running with
  | .ready,some _ =>
    let id := s.nextWindow % 2^64
    let s := {s with nextWindow := s.nextWindow+1}
    match s.send tidOf sinks (.open_ id startTicks) with
    | some (place,s) => s.withBlock i {block with stage := .open_ id startTicks,opened := some place}
    | none => s
  | _,_ => s

def exit (s : Snapshots T) (i : Nat) (block : SnapshotBlock) (excType : Option (Option String)) : Snapshots T :=
  match block.stage with
  | .open_ id startTicks =>
    let exit := match excType with
      | none => .asking id startTicks block.reason
      | some (some name) => .asking id startTicks (block.reason ++ "-" ++ name)
      | some none => .raised
    s.withBlock i {block with stage := .done,exit_ := some exit}
  | _ => s

def ask (tidOf : T → UInt32) (sinks : Nat → Sinks) (s : Snapshots T) (i : Nat) (block : SnapshotBlock)
    (endTicks : UInt64) : Option (Snapshots T) :=
  match block.exit_ with
  | some (.asking id startTicks reason) =>
    let channel := s.nextChannel
    let s := {s with nextChannel := channel+1}
    match s.send tidOf sinks (.dump id startTicks endTicks reason (some channel)) with
    | some (place,s) =>
      some (s.withBlock i {block with exit_ := some (.waiting place.1 channel),asked := some place})
    | none => some (s.withBlock i {block with exit_ := some .raised})
  | _ => none

-- What was sent on the channel is received even when its sender is gone.
def recv (s : Snapshots T) (i : Nat) (block : SnapshotBlock) : Option (Snapshots T) :=
  match block.exit_ with
  | some (.waiting k channel) => do
    let run ← s.runs[k]?
    match run.recorder.acks.lookup channel with
    | some path => some (s.withBlock i {block with exit_ := some .returned,written := some path})
    | none => if run.holds channel then none else some (s.withBlock i {block with exit_ := some .raised})
  | _ => none

-- A run begins with an empty slot, and its queue is closed behind its `DumpAll`.
def step (tidOf : T → UInt32) (sinks : Nat → Sinks) (s : Snapshots T) : SnapshotAct T → Option (Snapshots T)
  | .begin_ id clock capacityBytes =>
    match s.running with
    | none => some {s with
        runs := s.runs ++ [⟨.initial id clock capacityBytes,false,false⟩]
        running := some s.runs.length}
    | some _ => none
  | .outside k a => do
    let run ← s.runs[k]?
    match a,run.ended with
    | .close,false => none
    | a,_ => s.stepRun tidOf sinks k run (.outside a)
  | .own k now => do
    let run ← s.runs[k]?
    s.stepRun tidOf sinks k run (.own now)
  | .hangUp k => do
    let run ← s.runs[k]?
    if run.stopped then some (s.withRun k {run with gone := true}) else none
  | .take => some {s with running := none}
  | .end_ k endTicks reason => do
    let run ← s.runs[k]?
    if s.running = some k ∨ run.ended = true then none
    else if run.gone then some (s.withRun k {run with ended := true})
    else s.stepRun tidOf sinks k {run with ended := true} (.send (.dumpAll endTicks reason none))
  | .nextWindow => some {s with nextWindow := s.nextWindow+1}
  | .snapshot reason => if s.running.isSome then some {s with blocks := s.blocks ++ [.new reason]} else none
  | .enter i startTicks => s.blocks[i]?.map fun block => s.enter tidOf sinks i block startTicks
  | .exit i excType => s.blocks[i]?.map fun block => s.exit i block excType
  | .ask i endTicks => s.blocks[i]?.bind fun block => s.ask tidOf sinks i block endTicks
  | .recv i => s.blocks[i]?.bind fun block => s.recv i block

end Snapshots

end Model

section Steps

variable {T : Type} [DecidableEq T]

def Named (reason why : String) : Prop := why = reason ∨ ∃ name, why = reason ++ "-" ++ name

def told (r : RunRecorder T) (msg : Control) : RunRecorder T := {r with
  control := r.control ++ [⟨msg,r.recorder.world.accepted⟩]
  sent := r.sent ++ [⟨msg,r.recorder.world.accepted⟩]}

def withTold (s : Snapshots T) (k : Nat) (run : Run T) (msg : Control) : Snapshots T :=
  s.withRun k {run with recorder := told run.recorder msg}

-- What one step does. `counted` is also what is left of an `__enter__` that cannot send.
inductive Does (tidOf : T → UInt32) (sinks : Nat → Sinks) (s : Snapshots T) : Snapshots T → Prop where
  | same : Does tidOf sinks s s
  | begun (id : Nat) (clock : Clock) (capacityBytes : Nat) (idle : s.running = none) :
      Does tidOf sinks s {s with
        runs := s.runs ++ [⟨.initial id clock capacityBytes,false,false⟩]
        running := some s.runs.length}
  | ran (k : Nat) (run : Run T) (act : RunAct T) (recorder : RunRecorder T) (here : s.runs[k]? = some run)
      (silent : ∀ msg, act ≠ .send msg) (closing : act = .outside .close → run.ended = true)
      (stepped : run.recorder.step tidOf (sinks k) act = some recorder) :
      Does tidOf sinks s (s.withRun k {run with recorder := recorder})
  | hungUp (k : Nat) (run : Run T) (here : s.runs[k]? = some run) (stopped : run.stopped = true) :
      Does tidOf sinks s (s.withRun k {run with gone := true})
  | taken : Does tidOf sinks s {s with running := none}
  | ended (k : Nat) (run : Run T) (here : s.runs[k]? = some run) (free : s.running ≠ some k) :
      Does tidOf sinks s (s.withRun k {run with ended := true})
  | endTold (k : Nat) (run : Run T) (end_ : UInt64) (reason : String) (here : s.runs[k]? = some run)
      (free : s.running ≠ some k) (first : run.ended = false) (alive : run.gone = false) :
      Does tidOf sinks s (withTold s k {run with ended := true} (.dumpAll end_ reason none))
  | counted : Does tidOf sinks s {s with nextWindow := s.nextWindow+1}
  | snapshot (reason : String) : Does tidOf sinks s {s with blocks := s.blocks ++ [.new reason]}
  | entered (i : Nat) (block : SnapshotBlock) (start : UInt64) (k : Nat) (run : Run T)
      (there : s.blocks[i]? = some block) (ready : block.stage = .ready) (running : s.running = some k)
      (here : s.runs[k]? = some run) (alive : run.gone = false) :
      Does tidOf sinks s ((withTold {s with nextWindow := s.nextWindow+1} k run
        (.open_ (s.nextWindow % 2^64) start)).withBlock i {block with
          stage := .open_ (s.nextWindow % 2^64) start
          opened := some (k,run.recorder.sent.length)})
  | exited (i : Nat) (block : SnapshotBlock) (id : Nat) (start : UInt64) (exit : Exit)
      (there : s.blocks[i]? = some block) (open_ : block.stage = .open_ id start)
      (goes : exit = .raised ∨ ∃ why, Named block.reason why ∧ exit = .asking id start why) :
      Does tidOf sinks s (s.withBlock i {block with stage := .done,exit_ := some exit})
  | asked (i : Nat) (block : SnapshotBlock) (id : Nat) (start end_ : UInt64) (why : String) (k : Nat) (run : Run T)
      (there : s.blocks[i]? = some block) (asking : block.exit_ = some (.asking id start why))
      (running : s.running = some k) (here : s.runs[k]? = some run) (alive : run.gone = false) :
      Does tidOf sinks s ((withTold {s with nextChannel := s.nextChannel+1} k run
        (.dump id start end_ why (some s.nextChannel))).withBlock i {block with
          exit_ := some (.waiting k s.nextChannel)
          asked := some (k,run.recorder.sent.length)})
  | refused (i : Nat) (block : SnapshotBlock) (id : Nat) (start : UInt64) (why : String)
      (there : s.blocks[i]? = some block) (asking : block.exit_ = some (.asking id start why)) :
      Does tidOf sinks s
        (({s with nextChannel := s.nextChannel+1} : Snapshots T).withBlock i {block with exit_ := some .raised})
  | answered (i : Nat) (block : SnapshotBlock) (k channel : Nat) (run : Run T) (path : String)
      (there : s.blocks[i]? = some block) (waiting : block.exit_ = some (.waiting k channel))
      (here : s.runs[k]? = some run) (acked : run.recorder.acks.lookup channel = some path) :
      Does tidOf sinks s (s.withBlock i {block with exit_ := some .returned,written := some path})
  | dropped (i : Nat) (block : SnapshotBlock) (k channel : Nat) (run : Run T)
      (there : s.blocks[i]? = some block) (waiting : block.exit_ = some (.waiting k channel))
      (here : s.runs[k]? = some run) (silent : run.recorder.acks.lookup channel = none)
      (lost : run.holds channel = false) :
      Does tidOf sinks s (s.withBlock i {block with exit_ := some .raised})

variable {tidOf : T → UInt32} {sinks : Nat → Sinks} {s s' : Snapshots T}

theorem send_cases (tidOf : T → UInt32) (sinks : Nat → Sinks) (s : Snapshots T) (msg : Control) :
    s.send tidOf sinks msg = none ∨ ∃ k run, s.running = some k ∧ s.runs[k]? = some run ∧ run.gone = false ∧
      s.send tidOf sinks msg = some ((k,run.recorder.sent.length),withTold s k run msg) := by
  unfold Snapshots.send
  cases running : s.running with
  | none => exact .inl rfl
  | some k =>
    cases here : s.runs[k]? with
    | none => exact .inl (by simp [here])
    | some run =>
      cases alive : run.gone with
      | true => exact .inl (by simp [here,alive])
      | false => exact .inr ⟨k,run,rfl,here,alive,by simp [here,alive]; rfl⟩

theorem enter_does {i : Nat} {block : SnapshotBlock} {start : UInt64} (there : s.blocks[i]? = some block) :
    Does tidOf sinks s (s.enter tidOf sinks i block start) := by
  unfold Snapshots.enter
  split
  · rename_i ready running
    dsimp only
    rcases send_cases tidOf sinks {s with nextWindow := s.nextWindow+1}
      (.open_ (s.nextWindow % 2^64) start) with unsent | ⟨k,run,slot,here,alive,sent⟩
    · rw [unsent]
      exact .counted
    · rw [sent]
      exact .entered i block start k run there ready slot here alive
  · exact .same

theorem exit_does {i : Nat} {block : SnapshotBlock} {excType : Option (Option String)}
    (there : s.blocks[i]? = some block) : Does tidOf sinks s (s.exit i block excType) := by
  unfold Snapshots.exit
  cases open_ : block.stage with
  | ready => exact .same
  | done => exact .same
  | open_ id start =>
    refine .exited i block id start _ there open_ ?_
    match excType with
    | none => exact .inr ⟨_,.inl rfl,rfl⟩
    | some none => exact .inl rfl
    | some (some name) => exact .inr ⟨_,.inr ⟨name,rfl⟩,rfl⟩

theorem ask_does {i : Nat} {block : SnapshotBlock} {end_ : UInt64} (there : s.blocks[i]? = some block)
    (stepped : s.ask tidOf sinks i block end_ = some s') : Does tidOf sinks s s' := by
  unfold Snapshots.ask at stepped
  split at stepped
  · rename_i id start why asking
    dsimp only at stepped
    rcases send_cases tidOf sinks {s with nextChannel := s.nextChannel+1}
      (.dump id start end_ why (some s.nextChannel)) with unsent | ⟨k,run,running,here,alive,sent⟩
    · rw [unsent] at stepped
      cases stepped
      exact .refused i block id start why there asking
    · rw [sent] at stepped
      cases stepped
      exact .asked i block id start end_ why k run there asking running here alive
  · cases stepped

theorem recv_does {i : Nat} {block : SnapshotBlock} (there : s.blocks[i]? = some block)
    (stepped : s.recv i block = some s') : Does tidOf sinks s s' := by
  unfold Snapshots.recv at stepped
  split at stepped
  · rename_i k channel waiting
    obtain ⟨run,here,stepped⟩ := Option.bind_eq_some_iff.mp stepped
    split at stepped
    · rename_i path acked
      cases stepped
      exact .answered i block k channel run path there waiting here acked
    · rename_i silent
      split at stepped
      · cases stepped
      · rename_i lost
        cases stepped
        exact .dropped i block k channel run there waiting here silent (by simpa using lost)
  · cases stepped

theorem step_does {act : SnapshotAct T} (stepped : s.step tidOf sinks act = some s') : Does tidOf sinks s s' := by
  cases act with
  | begin_ id clock capacityBytes =>
    simp only [Snapshots.step] at stepped
    split at stepped
    · rename_i idle
      cases stepped
      exact .begun id clock capacityBytes idle
    · cases stepped
  | outside k a =>
    obtain ⟨run,here,stepped⟩ := Option.bind_eq_some_iff.mp stepped
    have moves {a : Act T} (closing : a = .close → run.ended = true)
        (stepped : s.stepRun tidOf sinks k run (.outside a) = some s') : Does tidOf sinks s s' := by
      obtain ⟨recorder,moved,rfl⟩ := Option.map_eq_some_iff.mp stepped
      exact .ran k run (.outside a) recorder here (by simp) (by simpa using closing) moved
    split at stepped
    · cases stepped
    · rename_i unclosed
      refine moves ?_ stepped
      intro closing
      cases ended : run.ended with
      | true => rfl
      | false => exact absurd ended (unclosed closing)
  | own k now =>
    obtain ⟨run,here,stepped⟩ := Option.bind_eq_some_iff.mp stepped
    obtain ⟨recorder,moved,rfl⟩ := Option.map_eq_some_iff.mp stepped
    exact .ran k run (.own now) recorder here (by simp) (by simp) moved
  | hangUp k =>
    obtain ⟨run,here,stepped⟩ := Option.bind_eq_some_iff.mp stepped
    split at stepped
    · rename_i stopped
      cases stepped
      exact .hungUp k run here stopped
    · cases stepped
  | take =>
    cases stepped
    exact .taken
  | end_ k end_ reason =>
    obtain ⟨run,here,stepped⟩ := Option.bind_eq_some_iff.mp stepped
    split at stepped
    · cases stepped
    · rename_i before
      obtain ⟨free,first⟩ := not_or.mp before
      split at stepped
      · cases stepped
        exact .ended k run here free
      · rename_i alive
        obtain ⟨recorder,moved,rfl⟩ := Option.map_eq_some_iff.mp stepped
        cases moved
        exact .endTold k run end_ reason here free (by simpa using first) (by simpa using alive)
  | nextWindow =>
    cases stepped
    exact .counted
  | snapshot reason =>
    simp only [Snapshots.step] at stepped
    split at stepped
    · cases stepped
      exact .snapshot reason
    · cases stepped
  | enter i start =>
    obtain ⟨block,there,rfl⟩ := Option.map_eq_some_iff.mp stepped
    exact enter_does there
  | exit i excType =>
    obtain ⟨block,there,rfl⟩ := Option.map_eq_some_iff.mp stepped
    exact exit_does there
  | ask i end_ =>
    obtain ⟨block,there,stepped⟩ := Option.bind_eq_some_iff.mp stepped
    exact ask_does there stepped
  | recv i =>
    obtain ⟨block,there,stepped⟩ := Option.bind_eq_some_iff.mp stepped
    exact recv_does there stepped

end Steps

end Blocks
end Trace0
