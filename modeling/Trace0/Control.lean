import Trace0.Ring
import Trace0.Recorder

namespace Trace0

def floorEvery : Nat := 1024

-- `done` names the channel an acknowledgement goes to.
inductive Control where
  | open_ (id : Nat) (startTicks : UInt64)
  | cancel (id : Nat)
  | dump (id : Nat) (startTicks endTicks : UInt64) (reason : String) (done : Option Nat)
  | dumpAll (endTicks : UInt64) (reason : String) (done : Option Nat)
  deriving DecidableEq

namespace Control

def asks : Control → Option (UInt64 × UInt64 × String × Option Nat)
  | .dump _ start end_ reason done => some (start,end_,reason,done)
  | .dumpAll end_ reason done => some (0,end_,reason,done)
  | _ => none

def reason (msg : Control) : String := (msg.asks.map (·.2.2.1)).getD ""
def done (msg : Control) : Option Nat := msg.asks.bind (·.2.2.2)

def ends : Control → Option Nat
  | .cancel id | .dump id _ _ _ _ => some id
  | _ => none

end Control

-- One `DumpSink::open` and the exporter it returns. The calls are counted from the `open`;
-- a sink that fails does so at the call it names, or at `finish` where that comes first.
structure SinkRun where
  path : String
  failsAt : Option Nat

namespace SinkRun

def opens (sink : SinkRun) : Bool := sink.failsAt != some 0
def writes (sink : SinkRun) (made : Nat) : Bool := sink.failsAt != some (made+1)
def finishes (sink : SinkRun) : Bool := sink.failsAt = none

end SinkRun

-- The sink behind the n-th `open`, given its reason.
abbrev Sinks := Nat → String → SinkRun

structure Sent (T : Type) where
  msg : Control
  shipped : List (T × EventBatch)

structure Eviction where
  batch : EventBatch
  held : Nat
  handled : Nat
  windows : List (Nat × UInt64)

structure DumpRun (T : Type) where
  order : Sent T
  handled : List (Sent T × Nat)
  absorbed : List (T × EventBatch)
  evicted : List Eviction
  history : List EventBatch
  tails : List EventBatch
  horizonTicks : UInt64
  events : List Event
  path : String
  written : List (List Event)
  dropped : Nat

-- Where `handle` stands: inside `dump`, then behind it.
inductive Handling (T : Type) where
  | begun
  | gathering
  | writing (run : DumpRun T)
  | dumped (path : String)
  | windowed (path : String)
  | flooring (path : String)
  | acking (path : String)

-- Where `run_recorder` stands. `last` marks the receiving loop behind the last absorb.
inductive Stand (T : Type) where
  | polling
  | ticking
  | flooring
  | absorbing
  | asking
  | absorbingAll
  | lastPolling
  | handling (order : Sent T) (last : Bool) (at_ : Handling T)
  | failed (order : Sent T)
  | returned

-- `handled` are the messages whose windows are settled, each with the number of batches
-- drained by then; a dump enters `dumps` when its `finish` succeeds.
structure RunRecorder (T : Type) where
  recorder : Recorder T
  control : List (Sent T)
  ticker : Nat
  stand : Stand T
  acks : List (Nat × String)
  sent : List (Sent T)
  handled : List (Sent T × Nat)
  evictions : List Eviction
  dumps : List (DumpRun T)

-- A step of any other thread, a message of any sender, and the recorder thread's next step
-- with what the clock shows if it reads it.
inductive RunAct (T : Type) where
  | outside (a : Act T)
  | send (msg : Control)
  | own (now : UInt64)

variable {T : Type} [DecidableEq T]

-- What a thread does with the registry locked: `register_current`, `forget`, `flush_every_thread`.
def World.needsRegistry (w : World T) : Act T → Bool
  | .leave _ | .flush _ => true
  | a => w.registers a

omit [DecidableEq T] in
def World.accepted (w : World T) : List (T × EventBatch) :=
  (w.ledger.shipped.filter (·.2.1)).map fun s => (s.1,s.2.2)

-- The next step of the job at hand, up to `assemble` and behind every write.
def Phase.act : Phase T → Option (RecorderAct T)
  | .absorbing _ | .settling _ _ | .wrote _ => some .absorb
  | .locking _ => some .lock
  | .reading _ (_ :: _) _ => some .readTail
  | .reading _ [] _ => some .unlock
  | .collected (.floor _) _ => some .publish
  | _ => none

namespace RunRecorder

def initial (id : Nat) (clock : Clock) (capacityBytes : Nat) : RunRecorder T :=
  ⟨.initial id clock capacityBytes,[],0,.polling,[],[],[],[],[]⟩

def noted (r : RunRecorder T) (evicted : List (EventBatch × Nat)) (handled : Nat) (windows : List (Nat × UInt64)) :
    List Eviction :=
  r.evictions ++ evicted.map fun e => ⟨e.1,e.2,handled,windows⟩

def pushed (r : RunRecorder T) (limit : Nat) : List Eviction :=
  r.noted (Ring.pushEvictions ((r.recorder.world.queue.drainBatches limit).1.map (·.2)) r.recorder.ring)
    r.handled.length r.recorder.windows

def absorb (tidOf : T → UInt32) (r : RunRecorder T) (limit : Nat) (stand : Nat → Stand T) :
    Option (RunRecorder T) :=
  (r.recorder.absorb tidOf limit fun _ => .idle).map fun recorder => {r with
    recorder := recorder
    evictions := r.pushed limit
    stand := stand (r.recorder.world.queue.drainBatches limit).1.length}

def job (tidOf : T → UInt32) (r : RunRecorder T) : Option (RunRecorder T) := do
  let act ← r.recorder.phase.act
  let recorder ← r.recorder.step tidOf act
  some {r with
    recorder := recorder
    evictions := match act with
      | .absorb => r.pushed usizeMax
      | _ => r.evictions}

def rewindow (r : RunRecorder T) (order : Sent T) (act : RecorderAct T) (stand : Stand T) :
    Option (RunRecorder T) :=
  (r.recorder.jobStep act).map fun recorder => {r with
    recorder := recorder
    stand := stand
    handled := r.handled ++ [(order,recorder.world.ledger.drained.length)]
    evictions := r.noted (r.recorder.ring.floorEvictions recorder.ring.floor) (r.handled.length+1) recorder.windows}

def receive (r : RunRecorder T) (last : Bool) (empty : Stand T) : RunRecorder T :=
  match r.control with
  | [] => {r with stand := empty}
  | order :: rest => {r with control := rest,stand := .handling order last .begun}

def back (last : Bool) : Stand T := if last then .lastPolling else .polling

def gathered (r : RunRecorder T) (order : Sent T) (tails : List (T × EventBatch)) (start end_ : UInt64)
    (path : String) : DumpRun T :=
  let ring := r.recorder.ring
  {order := order
   handled := r.handled
   absorbed := r.recorder.world.ledger.drained
   evicted := r.evictions
   history := ring.batches
   tails := tails.map (·.2)
   horizonTicks := ring.horizonTicks
   events := assemble ring.batches (tails.map (·.2)) r.recorder.world.queue.clock ring.horizonTicks start end_
   path := path
   written := []
   dropped := 0}

def handleStep (tidOf : T → UInt32) (sinks : Sinks) (now : UInt64) (r : RunRecorder T) (order : Sent T)
    (last : Bool) : Handling T → Option (RunRecorder T)
  | .begun =>
    match order.msg with
    | .open_ id start => r.rewindow order (.open_ id start) (back last)
    | .cancel id => r.rewindow order (.cancel id) (back last)
    | .dump _ start end_ _ _ =>
      (r.recorder.jobStep (.dump start end_)).map fun recorder =>
        {r with recorder := recorder,stand := .handling order last .gathering}
    | .dumpAll end_ _ _ =>
      (r.recorder.jobStep (.dump 0 end_)).map fun recorder =>
        {r with recorder := recorder,stand := .handling order last .gathering}
  | .gathering =>
    match r.recorder.phase with
    | .collected (.dump start end_) tails =>
      let sink := sinks r.dumps.length order.msg.reason
      (r.recorder.jobStep (.assemble sink.opens)).map fun recorder => {r with
        recorder := recorder
        stand :=
          if sink.opens then .handling order last (.writing (r.gathered order tails start end_ sink.path))
          else .failed order}
    | _ => r.job tidOf
  | .writing run =>
    let sink := sinks r.dumps.length order.msg.reason
    match r.recorder.phase with
    | .writing chunk _ =>
      let ok := sink.writes run.written.length
      (r.recorder.jobStep (.write ok)).map fun recorder => {r with
        recorder := recorder
        stand :=
          if ok then .handling order last (.writing {run with written := run.written ++ [chunk]})
          else .failed order}
    | .idle =>
      if sink.finishes then some {r with
        dumps := r.dumps ++ [{run with dropped := r.recorder.world.queue.dropped}]
        stand := .handling order last (.dumped run.path)}
      else some {r with stand := .failed order}
    | _ => r.job tidOf
  | .dumped path =>
    match order.msg.ends with
    | some id => r.rewindow order (.cancel id) (.handling order last (.windowed path))
    | none => some {r with
        handled := r.handled ++ [(order,r.recorder.world.ledger.drained.length)]
        stand := .handling order last (.windowed path)}
  | .windowed path =>
    (r.recorder.jobStep (.floor now)).map fun recorder =>
      {r with recorder := recorder,stand := .handling order last (.flooring path)}
  | .flooring path =>
    match r.recorder.phase with
    | .idle => some {r with stand := .handling order last (.acking path)}
    | _ => r.job tidOf
  | .acking path => some {r with
      acks := r.acks ++ (order.msg.done.map (·,path)).toList
      stand := back last}

def ownStep (tidOf : T → UInt32) (sinks : Sinks) (now : UInt64) (r : RunRecorder T) :
    Option (RunRecorder T) :=
  match r.stand with
  | .polling => some (r.receive false .ticking)
  | .ticking =>
    if r.ticker+1 = floorEvery then
      (r.recorder.jobStep (.floor now)).map fun recorder =>
        {r with recorder := recorder,ticker := 0,stand := .flooring}
    else some {r with ticker := r.ticker+1,stand := .absorbing}
  | .flooring =>
    match r.recorder.phase with
    | .idle => some {r with stand := .absorbing}
    | _ => r.job tidOf
  | .absorbing => r.absorb tidOf drainLimit fun got => if got = 0 then .asking else .polling
  | .asking => some {r with stand := if r.recorder.world.queue.closed then .absorbingAll else .polling}
  | .absorbingAll => r.absorb tidOf usizeMax fun got => if got = 0 then .lastPolling else .absorbingAll
  | .lastPolling => some (r.receive true .returned)
  | .handling order last at_ => r.handleStep tidOf sinks now order last at_
  | .failed _ | .returned => none

def step (tidOf : T → UInt32) (sinks : Sinks) (r : RunRecorder T) : RunAct T → Option (RunRecorder T)
  | .outside (.drain _) => none
  | .outside a =>
    if r.recorder.locks && r.recorder.world.needsRegistry a then none
    else (r.recorder.world.step tidOf a).map fun w => {r with recorder := r.recorder.withWorld w}
  | .send msg =>
    let order := ⟨msg,r.recorder.world.accepted⟩
    some {r with control := r.control ++ [order],sent := r.sent ++ [order]}
  | .own now => r.ownStep tidOf sinks now

end RunRecorder

end Trace0
