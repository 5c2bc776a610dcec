import Trace0.Ending
import Trace0.Ring
import Trace0.Snapshot

namespace Trace0

def drainLimit : Nat := 256
def writeChunk : Nat := 4096

-- The two jobs that look at every thread: `dump` and `update_recycle_floor`, the latter with
-- the clock it read first.
inductive Goal where
  | dump (start end_ : UInt64)
  | floor (now : UInt64)
  deriving DecidableEq

-- Where the recorder thread stands. A tail is kept with the thread it was read from, which
-- the code does not note.
inductive Phase (T : Type) where
  | idle
  | absorbing (goal : Goal)
  | locking (goal : Goal)
  | reading (goal : Goal) (todo : List T) (tails : List (T × EventBatch))
  | settling (goal : Goal) (tails : List (T × EventBatch))
  | collected (goal : Goal) (tails : List (T × EventBatch))
  | writing (chunk rest : List Event)
  | wrote (rest : List Event)
  | stopped
  deriving DecidableEq

-- `began` and `seen` are read by no step: what had been pushed when the job at hand began,
-- and how many batches had been drained when it locked the registry.
structure Recorder (T : Type) where
  world : World T
  ring : Ring
  windows : List (Nat × UInt64)
  phase : Phase T
  began : List (T × UInt64 × UInt32)
  seen : Nat

-- The steps of the recording threads, then those of the recorder. `ok` says whether the
-- call of the sink or of its exporter succeeds.
inductive RecorderAct (T : Type) where
  | record (a : Act T)
  | exit (t : T)
  | open_ (id : Nat) (start : UInt64)
  | cancel (id : Nat)
  | dump (start end_ : UInt64)
  | floor (now : UInt64)
  | absorb
  | lock
  | readTail
  | unlock
  | assemble (ok : Bool)
  | write (ok : Bool)
  | publish

variable {T : Type} [DecidableEq T]

def World.registers (w : World T) : Act T → Bool
  | .push t run ticks _ _ => !EventQueue.fastPath (w.threads t) run ticks && w.queue.stale (w.threads t)
  | _ => false

def nextChunk (events : List Event) : Phase T :=
  if events = [] then .idle else .writing (events.take writeChunk) (events.drop writeChunk)

def recycleFloor (now : UInt64) (tails history : List EventBatch) : UInt64 :=
  ((tails ++ history).map (·.baseTicks)).foldl min now

namespace Recorder

def initial (id : Nat) (clock : Clock) (capacityBytes : Nat) : Recorder T :=
  ⟨.initial id clock,.new capacityBytes,[],.idle,[],0⟩

def withWorld (r : Recorder T) (w : World T) : Recorder T := {r with world := w}

def locks (r : Recorder T) : Bool :=
  match r.phase with
  | .reading _ _ _ => true
  | _ => false

def refloor (r : Recorder T) : Recorder T :=
  {r with ring := r.ring.setFloor (r.windows.map (·.2)).min?}

def begin_ (r : Recorder T) (phase : Phase T) : Recorder T :=
  {r with phase := phase,began := r.world.ledger.pushed}

-- `next` is what follows a drain of so many batches.
def absorb (tidOf : T → UInt32) (r : Recorder T) (limit : Nat) (next : Nat → Phase T) :
    Option (Recorder T) :=
  let drained := (r.world.queue.drainBatches limit).1
  (r.world.step tidOf (.drain limit)).map fun w => {r with
    world := w
    ring := (drained.map (·.2)).foldl Ring.push r.ring
    phase := next drained.length}

def absorbStep (tidOf : T → UInt32) (r : Recorder T) : Option (Recorder T) :=
  match r.phase with
  | .idle => r.absorb tidOf drainLimit fun _ => .idle
  | .absorbing goal =>
    r.absorb tidOf usizeMax fun got => if got = 0 then .locking goal else .absorbing goal
  | .settling goal tails =>
    r.absorb tidOf usizeMax fun got => if got = 0 then .collected goal tails else .settling goal tails
  | .wrote rest => r.absorb tidOf usizeMax fun _ => nextChunk rest
  | _ => none

-- A dump ends with its window's `cancel` and a `floor` job, as steps of their own.
def jobStep (r : Recorder T) : RecorderAct T → Option (Recorder T)
  | .open_ id start =>
    match r.phase with
    | .idle => some ({r with windows := r.windows ++ [(id,start)]} : Recorder T).refloor
    | _ => none
  | .cancel id =>
    match r.phase with
    | .idle => some ({r with windows := r.windows.filter (·.1 ≠ id)} : Recorder T).refloor
    | _ => none
  | .dump start end_ =>
    match r.phase with
    | .idle => some (r.begin_ (.absorbing (.dump start end_)))
    | _ => none
  | .floor now =>
    match r.phase with
    | .idle => some (r.begin_ (.locking (.floor now)))
    | _ => none
  | .lock =>
    match r.phase with
    | .locking goal => some {r with phase := .reading goal r.world.recorders [],seen := r.world.ledger.drained.length}
    | _ => none
  | .readTail =>
    match r.phase with
    | .reading goal (t :: todo) tails =>
      let read := (r.world.threads t).readTail r.world.queue.id
      some {r with phase := .reading goal todo (tails ++ (read.map (t,·)).toList)}
    | _ => none
  | .unlock =>
    match r.phase with
    | .reading goal [] tails => some {r with phase := .settling goal tails}
    | _ => none
  | .assemble ok =>
    match r.phase with
    | .collected (.dump start end_) tails =>
      let events := Trace0.assemble r.ring.batches (tails.map (·.2)) r.world.queue.clock
        r.ring.horizonTicks start end_
      some {r with phase := if ok then nextChunk events else .stopped}
    | _ => none
  | .write ok =>
    match r.phase with
    | .writing _ rest => some {r with phase := if ok then .wrote rest else .stopped}
    | _ => none
  | .publish =>
    match r.phase with
    | .collected (.floor now) tails =>
      let floor := Trace0.recycleFloor now (tails.map (·.2)) r.ring.batches
      some {r with
        world := r.world.withQueue {r.world.queue with recycleFloor := floor}
        phase := .idle}
    | _ => none
  | _ => none

-- `register_current` and `forget` wait while the tails are read.
def step (tidOf : T → UInt32) (r : Recorder T) : RecorderAct T → Option (Recorder T)
  | .record a => do
    let _ ← a.recordedBy
    if r.locks && r.world.registers a then none else (r.world.step tidOf a).map r.withWorld
  | .exit t => do
    let a ← exitAct t (r.world.stage t)
    if r.locks ∧ r.world.stage t = .idle then none else (r.world.step tidOf a).map r.withWorld
  | .absorb => r.absorbStep tidOf
  | a => r.jobStep a

end Recorder

end Trace0
