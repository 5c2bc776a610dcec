import Trace0.Intern
import Trace0.Places

namespace Trace0

-- Where a thread stands in a recorded callback. `record` reads the ticks first; the id comes
-- from `lookup` or, with the floor read before the call, from `insert`.
inductive Callback where
  | outside
  | began (key : UInt64) (kind : EventKind) (ticks : UInt64)
  | missed (key : UInt64) (kind : EventKind) (ticks : UInt64)
  | floored (key : UInt64) (kind : EventKind) (ticks floor : UInt64)
  | resolved (key : UInt64) (kind : EventKind) (ticks : UInt64) (id : UInt32)
  | pushing (key : UInt64)
  deriving DecidableEq

def Callback.key : Callback → Option UInt64
  | .outside => none
  | .began key _ _ | .missed key _ _ | .floored key _ _ _ | .resolved key _ _ _ | .pushing key => some key

-- The recorder, the clock all threads read, the interner and the code objects that are
-- alive, by address. The last three fields are read by no step: the code object of every
-- event pushed, where each thread's tail starts, and for the dump at hand the events still
-- to be written, each with its thread and its place among that thread's pushes.
structure Tracing (T : Type) where
  recorder : Recorder T
  clock : UInt64
  interner : Interner
  live : UInt64 → Option CodeInfo
  callbacks : T → Callback
  origins : List (T × CodeInfo)
  starts : T → Nat
  dumped : List (Event × T × Nat)

inductive TracingAct (T : Type) where
  | tick (now : UInt64)
  | create (key : UInt64) (info : CodeInfo)
  | destroy (key : UInt64)
  | call (t : T) (key : UInt64) (kind : EventKind)
  | lookup (t : T)
  | readFloor (t : T)
  | insert (t : T)
  | push (t : T)
  | arm (t : T)
  | write (t : T)
  | recorder (act : RecorderAct T)

variable {T : Type} [DecidableEq T]

def placedStream (tid : UInt32) (places : List (T × EventBatch × Nat)) : List (Entry × T × Nat) :=
  (places.filter (·.2.1.tid = tid)).flatMap fun x => (x.2.1.entries.zipIdx x.2.2).map fun e => (e.1,x.1,e.2)

namespace Tracing

def initial (id : Nat) (clock : Clock) (capacityBytes : Nat) (capacity : Option UInt32) (now : UInt64) :
    Tracing T :=
  ⟨.initial id clock capacityBytes,now,.new capacity,fun _ => none,fun _ => .outside,[],fun _ => 0,[]⟩

def enter (s : Tracing T) (t : T) (callback : Callback) : Tracing T :=
  {s with callbacks := Function.update s.callbacks t callback}

def logOrigin (s : Tracing T) (t : T) (info : CodeInfo) : Tracing T :=
  {s with origins := s.origins ++ [(t,info)]}

def withRecorder (s : Tracing T) (r : Recorder T) : Tracing T := {s with recorder := r}

def gathered (s : Tracing T) (tails : List (T × EventBatch)) : List (T × EventBatch × Nat) :=
  s.recorder.places ++ (freshOf s.recorder.ring.batches tails).map fun x => (x.1,x.2,s.starts x.1)

def assembled (s : Tracing T) (tails : List (T × EventBatch)) (start end_ : UInt64) :
    List (Event × T × Nat) :=
  let history := s.recorder.ring.batches
  let horizon := s.recorder.ring.horizonTicks
  (labelled Prod.fst (fun stream => placedStream stream.1 (s.gathered tails))
    (history ++ freshTails history (tails.map (·.2))) horizon start end_).map fun x =>
      (toEvent s.recorder.world.queue.clock (x.2.record Prod.fst x.1 horizon),x.2.item.2)

def startsAfter (s : Tracing T) : RecorderAct T → T → Nat
  | .readTail =>
    match s.recorder.phase with
    | .reading _ (t :: _) _ => Function.update s.starts t (s.recorder.world.view t).readable
    | _ => s.starts
  | _ => s.starts

def dumpedAfter (s : Tracing T) : RecorderAct T → List (Event × T × Nat)
  | .assemble ok =>
    match s.recorder.phase with
    | .collected (.dump start end_) tails => if ok then s.assembled tails start end_ else []
    | _ => s.dumped
  | .write ok =>
    match s.recorder.phase with
    | .writing chunk _ => if ok then s.dumped.drop chunk.length else []
    | _ => s.dumped
  | _ => s.dumped

-- The recorder's own steps; `update_recycle_floor` reads the clock when it begins.
def recorderStep (tidOf : T → UInt32) (s : Tracing T) (act : RecorderAct T) : Option (Tracing T) :=
  match act with
  | .record _ | .exit _ => none
  | .floor now =>
    if now = s.clock then (s.recorder.step tidOf (.floor now)).map s.withRecorder else none
  | act => (s.recorder.step tidOf act).map fun r =>
    {s with recorder := r,starts := s.startsAfter act,dumped := s.dumpedAfter act}

def pushStep (tidOf : T → UInt32) (s : Tracing T) (t : T) : Option (Tracing T) :=
  match s.callbacks t with
  | .resolved key kind ticks id => do
    let info ← s.live key
    let r ← s.recorder.step tidOf (.record (.push t s.recorder.world.queue.id ticks id kind))
    if r.world.stage t = .idle then some (((s.withRecorder r).logOrigin t info).enter t .outside)
    else some ((s.withRecorder r).enter t (.pushing key))
  | _ => none

def insertStep (s : Tracing T) (t : T) : Option (Tracing T) :=
  match s.callbacks t with
  | .floored key kind ticks floor => (s.live key).map fun info =>
    let inserted := s.interner.insert info key floor
    {s with interner := inserted.2}.enter t
      (match inserted.1 with
      | some id => .resolved key kind ticks id
      | none => .outside)
  | _ => none

def step (tidOf : T → UInt32) (s : Tracing T) : TracingAct T → Option (Tracing T)
  | .tick now => if s.clock ≤ now then some {s with clock := now} else none
  | .create key info =>
    match s.live key with
    | none => some {s with live := Function.update s.live key (some info)}
    | some _ => none
  | .destroy key => (s.live key).map fun _ => {s with
      live := Function.update s.live key none
      interner := (s.interner.forget key s.clock).2}
  | .call t key kind =>
    match s.callbacks t with
    | .outside => (s.live key).map fun _ => s.enter t (.began key kind s.clock)
    | _ => none
  | .lookup t =>
    match s.callbacks t with
    | .began key kind ticks => some (s.enter t
        (match s.interner.lookup key with
        | some id => .resolved key kind ticks id
        | none => .missed key kind ticks))
    | _ => none
  | .readFloor t =>
    match s.callbacks t with
    | .missed key kind ticks => some (s.enter t (.floored key kind ticks s.recorder.world.queue.recycleFloor))
    | _ => none
  | .insert t => s.insertStep t
  | .push t => s.pushStep tidOf t
  | .arm t =>
    match s.callbacks t with
    | .pushing _ => (s.recorder.step tidOf (.record (.arm t))).map s.withRecorder
    | _ => none
  | .write t =>
    match s.callbacks t with
    | .pushing key => do
      let info ← s.live key
      let r ← s.recorder.step tidOf (.record (.write t))
      some (((s.withRecorder r).logOrigin t info).enter t .outside)
    | _ => none
  | .recorder act => s.recorderStep tidOf act

end Tracing

-- No code object is destroyed during a callback for it.
def Outlives (s : Tracing T) : TracingAct T → Prop
  | .destroy key => ∀ t, (s.callbacks t).key ≠ some key
  | _ => True

end Trace0
