import Trace0.Exporter
import Trace0.Pipeline
import Trace0.Places
import Trace0.Tracing

namespace Trace0

-- Of a push: the code object it was for, and the name its thread was registered under then.
structure Origin where
  info : CodeInfo
  name : Option String
  deriving DecidableEq

-- A run that streams: the pipeline and its exporter, gone after an error or a panic, with the
-- interner, the code objects alive and the threads that record. `codes` and `names` are what
-- the call at hand has been told so far. The last three fields are read by no step: the file
-- of a run that came to its end, the origin of every push and the calls of `write_batch`.
structure Streaming (T E : Type) where
  pipeline : Pipeline T
  exporter : Option E
  interner : Interner
  live : UInt64 → Option CodeInfo
  callbacks : T → Callback
  registry : ThreadRegistry
  codes : UInt32 → Option (Option CodeInfo)
  names : UInt32 → Option (Option String)
  finished : Option (List OutCall)
  origins : List (T × Origin)
  calls : List BatchCall

-- `pipe` is a step of the serializer, the writer or the ending thread; its `ok` says whether
-- the writes of the exporter's call succeed.
inductive StreamingAct (T : Type) where
  | create (key : UInt64) (info : CodeInfo)
  | destroy (key freedAt : UInt64)
  | call (t : T) (key : UInt64) (kind : EventKind) (ticks : UInt64)
  | lookup (t : T)
  | readFloor (t : T)
  | insert (t : T)
  | push (t : T)
  | arm (t : T)
  | write (t : T)
  | ensure (t : T) (name : String)
  | readCode (id : UInt32)
  | readName (tid : UInt32)
  | pipe (act : PipeAct T)

variable {T E : Type} [DecidableEq T]

def Pipeline.places (p : Pipeline T) : List (T × EventBatch × Nat) :=
  (Keyed.deal (fun t => (acceptedAt (ownedBy t p.world.ledger.shipped)).map (·.2)) p.world.ledger.drained).take
    p.exported.length

namespace Streaming

def initial (x : Exporter E) (id : Nat) (clock : Clock) (capacity : Option UInt32) : Streaming T E :=
  ⟨.initial id clock,some x.start,.new capacity,fun _ => none,fun _ => .outside,.new,fun _ => none,fun _ => none,
    none,[],[]⟩

def placed (s : Streaming T E) : List (T × Event × Nat) :=
  s.pipeline.places.flatMap fun x =>
    ((x.2.1.decodeInto s.pipeline.world.queue.clock).zipIdx x.2.2).map (x.1,·)

def withPipeline (s : Streaming T E) (p : Pipeline T) : Streaming T E := {s with pipeline := p}

def enter (s : Streaming T E) (t : T) (callback : Callback) : Streaming T E :=
  {s with callbacks := Function.update s.callbacks t callback}

def logOrigin (s : Streaming T E) (t : T) (origin : Origin) : Streaming T E :=
  {s with origins := s.origins ++ [(t,origin)]}

def returned (s : Streaming T E) : Streaming T E := {s with codes := fun _ => none,names := fun _ => none}

def codesTold (s : Streaming T E) (id : UInt32) : Option CodeInfo := (s.codes id).getD (s.interner.code id)
def namesTold (s : Streaming T E) (tid : UInt32) : Option String := (s.names tid).getD (s.registry.name tid)

def chunk (s : Streaming T E) : Option (List Event) :=
  match s.pipeline.writer with
  | .writing _ => s.pipeline.ring.pop.map fun popped => popped.1.decodeInto s.pipeline.world.queue.clock
  | _ => none

def asks (s : Streaming T E) : Bool :=
  match s.pipeline.writer with
  | .writing _ => s.chunk.isSome
  | .joining => true
  | _ => false

def originNow (tidOf : T → UInt32) (s : Streaming T E) (t : T) (info : CodeInfo) : Origin :=
  ⟨info,s.registry.name (tidOf t)⟩

def insertStep (s : Streaming T E) (t : T) : Option (Streaming T E) :=
  match s.callbacks t with
  | .floored key kind ticks floor => (s.live key).map fun info =>
    let inserted := s.interner.insert info key floor
    {s with interner := inserted.2}.enter t
      (match inserted.1 with
      | some id => .resolved key kind ticks id
      | none => .outside)
  | _ => none

def pushStep (tidOf : T → UInt32) (s : Streaming T E) (t : T) : Option (Streaming T E) :=
  match s.callbacks t with
  | .resolved key kind ticks id => do
    let info ← s.live key
    let p ← s.pipeline.step tidOf (.thread (.push t s.pipeline.world.queue.id ticks id kind))
    if p.world.stage t = .idle then
      some (((s.withPipeline p).logOrigin t (s.originNow tidOf t info)).enter t .outside)
    else some ((s.withPipeline p).enter t (.pushing key))
  | _ => none

def sent (s : Streaming T E) (ex : E) (call : BatchCall) : Streaming T E :=
  {s with exporter := some ex,calls := s.calls ++ [call]}

-- A panic of the exporter ends its thread as an error does.
def writeStep (x : Exporter E) (tidOf : T → UInt32) (s : Streaming T E) (ok : Bool) : Option (Streaming T E) :=
  match s.chunk with
  | none => (s.pipeline.step tidOf (.write ok)).map fun p => (s.withPipeline p).returned
  | some events =>
    match (if ok then s.exporter.bind (x.writeBatch · events s.codesTold s.namesTold) else none) with
    | some ex => (s.pipeline.step tidOf (.write true)).map fun p =>
      ((s.withPipeline p).sent ex ⟨events,s.codesTold,s.namesTold⟩).returned
    | none => (s.pipeline.step tidOf (.write false)).map fun p => {s.withPipeline p with exporter := none}.returned

-- `finish` is called when the serializer was joined.
def finishStep (x : Exporter E) (tidOf : T → UInt32) (s : Streaming T E) (ok : Bool) : Option (Streaming T E) :=
  (s.pipeline.step tidOf (.finish ok)).map fun p =>
    match s.pipeline.serializer,ok with
    | .finished,true =>
      {s.withPipeline p with
        finished := s.exporter.map fun ex =>
          x.out (x.finish ex s.codesTold s.registry.snapshot (.ofNat s.pipeline.world.queue.dropped))}.returned
    | _,_ => (s.withPipeline p).returned

def pipeStep (x : Exporter E) (tidOf : T → UInt32) (s : Streaming T E) (act : PipeAct T) : Option (Streaming T E) :=
  match act with
  | .thread _ => none
  | .write ok => s.writeStep x tidOf ok
  | .finish ok => s.finishStep x tidOf ok
  | .pop | .isFinished | .collect => (s.pipeline.step tidOf act).map fun p => (s.withPipeline p).returned
  | act => (s.pipeline.step tidOf act).map s.withPipeline

def step (x : Exporter E) (tidOf : T → UInt32) (s : Streaming T E) : StreamingAct T → Option (Streaming T E)
  | .create key info =>
    match s.live key with
    | none => some {s with live := Function.update s.live key (some info)}
    | some _ => none
  | .destroy key freedAt => (s.live key).map fun _ => {s with
      live := Function.update s.live key none
      interner := (s.interner.forget key freedAt).2}
  | .call t key kind ticks =>
    match s.callbacks t with
    | .outside => (s.live key).map fun _ => s.enter t (.began key kind ticks)
    | _ => none
  | .lookup t =>
    match s.callbacks t with
    | .began key kind ticks => some (s.enter t
        (match s.interner.lookup key with
        | some id => .resolved key kind ticks id
        | none => .missed key kind ticks))
    | _ => none
  | .readFloor t =>
    match s.callbacks t with
    | .missed key kind ticks => some (s.enter t (.floored key kind ticks s.pipeline.world.queue.recycleFloor))
    | _ => none
  | .insert t => s.insertStep t
  | .push t => s.pushStep tidOf t
  | .arm t =>
    match s.callbacks t with
    | .pushing _ => (s.pipeline.step tidOf (.thread (.arm t))).map s.withPipeline
    | _ => none
  | .write t =>
    match s.callbacks t with
    | .pushing key => do
      let info ← s.live key
      let p ← s.pipeline.step tidOf (.thread (.write t))
      some (((s.withPipeline p).logOrigin t (s.originNow tidOf t info)).enter t .outside)
    | _ => none
  | .ensure t name => some {s with registry := (s.registry.ensure (tidOf t) name).1}
  | .readCode id =>
    if s.asks then some {s with codes := Function.update s.codes id (some (s.codesTold id))} else none
  | .readName tid =>
    if s.asks then some {s with names := Function.update s.names tid (some (s.namesTold tid))} else none
  | .pipe act => s.pipeStep x tidOf act

end Streaming

def Streaming.Outlives (s : Streaming T E) : StreamingAct T → Prop
  | .destroy key _ => ∀ t, (s.callbacks t).key ≠ some key
  | _ => True

end Trace0
