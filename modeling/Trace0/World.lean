import Trace0.EvQueue
import Mathlib.Logic.Function.Basic

namespace Trace0

section Threads

def notCached : UInt64 := 0xFFFFFFFFFFFFFFFF

-- Raw pointers are addresses counted in packed events; 0 is null. `endAt` is `end`.
structure Hot where
  cursor : Nat
  endAt : Nat
  baseTicks : UInt64
  queueId : Nat
  epoch : UInt64
  codeGen : Nat
  clockDirect : Bool
  lastCodeKey : UInt64
  lastCodeId : UInt32
  tid : UInt32
  ensured : Bool
  nameRetries : Nat
  deriving DecidableEq

def Hot.empty : Hot := ⟨0,0,0,0,0,0,false,notCached,0xFFFFFFFF,0xFFFFFFFF,false,0⟩

-- The boxed batch a thread writes into: `start` is `events.as_mut_ptr()`. The slots behind
-- it only become `events` at `commit`.
structure OpenBatch where
  start : Nat
  batch : EventBatch
  deriving DecidableEq

-- The producer end is the queue's id and the owner of the ring it feeds.
structure Cold (T : Type) where
  producer : Option (Nat × T)
  batch : Option OpenBatch

-- One thread's state: `slots` is the memory its raw cursor writes to, `brk` the next
-- address its allocator hands out.
structure Local (T : Type) where
  hot : Hot
  cold : Cold T
  slots : Nat → PackedEvent
  brk : Nat

def Local.fresh : Local T := ⟨.empty,⟨none,none⟩,fun _ => ⟨0,0⟩,1⟩

namespace Local

variable {T : Type}

def alloc (l : Local T) (baseTicks : UInt64) (tid : UInt32) : Local T :=
  {l with
    cold := {l.cold with batch := some ⟨l.brk,.withCapacity batchN baseTicks tid⟩}
    brk := l.brk + batchN}

-- `none` is a failed debug assertion: the cursor is not in the batch it is measured against.
def commit (l : Local T) : Option (Local T) :=
  match l.cold.batch with
  | none => some l
  | some o =>
    if l.hot.endAt = o.start + o.batch.capacity ∧ o.start ≤ l.hot.cursor ∧
        l.hot.cursor ≤ l.hot.endAt then
      let events := (List.range (l.hot.cursor - o.start)).map fun i => l.slots (o.start + i)
      some {l with cold := {l.cold with batch := some {o with batch := {o.batch with events := events}}}}
    else none

def arm (l : Local T) : Local T :=
  match l.cold.batch with
  | none => {l with hot := {l.hot with cursor := 0,endAt := 0,epoch := l.hot.epoch+2}}
  | some o => {l with hot := {l.hot with
      baseTicks := o.batch.baseTicks
      tid := o.batch.tid
      cursor := o.start
      endAt := o.start + batchN
      epoch := l.hot.epoch+2}}

def window (l : Local T) : List PackedEvent :=
  (List.range (l.hot.cursor - (l.hot.endAt - batchN))).map fun i => l.slots (l.hot.endAt - batchN + i)

-- One reading of an unchanging `Hot`. An attempt that would be retried finds the same words
-- eight times over, so the call gives up with None.
def readTail (l : Local T) (queueId : Nat) : Option EventBatch :=
  if l.hot.epoch % 2 = 1 then none
  else if l.hot.queueId ≠ queueId then none
  else if l.hot.cursor = 0 ∨ l.hot.endAt = 0 then none
  else if l.hot.cursor ≤ l.hot.endAt - batchN ∨ l.hot.endAt < l.hot.cursor then none
  else some ⟨l.hot.baseTicks,l.hot.tid,l.window,l.window.length⟩

-- `flush_partial` between its commit and its arm. `none`: no batch at all, the call returns.
-- Otherwise the batch that goes to the ring, if there is something to hand over.
def takeOpen (l : Local T) : Option (Local T × Option EventBatch) :=
  match l.cold.batch with
  | none => none
  | some o =>
    if l.cold.producer.isNone ∨ o.batch.events = [] then some (l,none)
    else some (l.alloc o.batch.baseTicks o.batch.tid,some o.batch)

end Local

variable {T : Type} [DecidableEq T]

-- Result: the queue, the thread, and the number of events lost to a full ring.
def flushPartial (q : EventQueue T) (l : Local T) : Option (EventQueue T × Local T × Nat) := do
  let l ← l.commit
  match l.takeOpen with
  | none => some (q,l,0)
  | some (l,none) => some (q,l.arm,0)
  | some (l,some full) =>
    let l := l.arm
    let producer ← l.cold.producer
    match q.push producer.2 full with
    | some q => some (q,l,0)
    | none => some (q,l,full.events.length)

namespace EventQueue

def initRing (q : EventQueue T) (me : T) (l : Local T) (ticks : UInt64) (tid : UInt32) :
    EventQueue T × Local T :=
  let seated := {l with
    cold := {l.cold with producer := some (q.id,me)}
    hot := {l.hot with queueId := q.id,clockDirect := q.clock.isDirect}}
  ({q with consumers := q.consumers ++ [⟨me,[]⟩]},seated.alloc ticks tid)

def initProducer (q : EventQueue T) (me : T) (l : Local T) (ticks : UInt64) (tid : UInt32) :
    EventQueue T × Local T :=
  ((q.initRing me l ticks tid).1,(q.initRing me l ticks tid).2.arm)

-- `ship_and_renew` up to its closing `arm`, with the batch it handed over and whether the
-- ring took it. A refused batch is counted and its buffer reused.
def ship (q : EventQueue T) (l : Local T) (baseTicks : UInt64) (tid : UInt32) :
    Option (EventQueue T × Local T × Bool × EventBatch) := do
  let l ← l.commit
  let full ← l.cold.batch
  let producer ← l.cold.producer
  match q.push producer.2 full.batch with
  | none =>
    let reused := {full.batch with events := [],baseTicks := baseTicks,tid := tid}
    some ({q with dropped := q.dropped + full.batch.events.length},
      {l with cold := {l.cold with batch := some {full with batch := reused}}},false,full.batch)
  | some q => some (q,l.alloc baseTicks tid,true,full.batch)

def shipAndRenew (q : EventQueue T) (l : Local T) (baseTicks : UInt64) (tid : UInt32) :
    Option (EventQueue T × Local T) :=
  (q.ship l baseTicks tid).map fun shipped => (shipped.1,shipped.2.1.arm)

def stale (q : EventQueue T) (l : Local T) : Bool :=
  match l.cold.producer with
  | some (id,_) => id ≠ q.id
  | none => true

-- Storing through a null cursor is a fault.
def writeSlot (l : Local T) (event : PackedEvent) : Option (Local T) :=
  if l.hot.cursor = 0 then none
  else some {l with
    slots := Function.update l.slots l.hot.cursor event
    hot := {l.hot with cursor := l.hot.cursor+1}}

def fastPath (l : Local T) (run : Nat) (ticks : UInt64) : Bool :=
  l.hot.cursor < l.hot.endAt && l.hot.queueId = run && ticks - l.hot.baseTicks ≤ deltaOverflow

def slowPath (q : EventQueue T) (me : T) (l : Local T) (ticks : UInt64) (tid codeKind : UInt32) :
    Option (EventQueue T × Local T) := do
  let (q,l) ← if q.stale l then some (q.initProducer me l ticks tid) else q.shipAndRenew l ticks tid
  let l ← writeSlot l ⟨0,codeKind⟩
  some (q,l)

def pushWithCtx (q : EventQueue T) (me : T) (l : Local T) (run : Nat) (ticks : UInt64)
    (tid codeId : UInt32) (kind : EventKind) : Option (EventQueue T × Local T) :=
  let codeKind := packCodeKind codeId kind
  if fastPath l run ticks then
    (writeSlot l ⟨(ticks - l.hot.baseTicks).toUInt32,codeKind⟩).map (q,·)
  else q.slowPath me l ticks tid codeKind

end EventQueue

end Threads

-- Where a thread stands inside a call. `leaving` and the flags mark `Drop for Cold`, which
-- runs `flush_partial` once more after it has left the registry.
inductive Stage where
  | idle
  | renewed (ticks : UInt64) (codeKind : UInt32)
  | armed (ticks : UInt64) (codeKind : UInt32)
  | leaving
  | committed (leaving : Bool)
  | restored (leaving : Bool)
  | taken (leaving : Bool) (full : EventBatch)
  | rearmed (leaving : Bool) (full : EventBatch)
  | exited
  deriving DecidableEq

def Stage.done (leaving : Bool) : Stage := if leaving then .exited else .idle

-- What has happened so far: recorded beside the state, read by no step. `lost` sums what
-- `flush_partial` returned to its callers, `exitLost` what it returned to `Drop for Cold`.
structure Ledger (T : Type) where
  pushed : List (T × UInt64 × UInt32)
  shipped : List (T × Bool × EventBatch)
  drained : List (T × EventBatch)
  lost : Nat
  exitLost : Nat
  recorded : Nat

-- One queue and the threads that record into it; `recorders` is the registry of live tails.
structure World (T : Type) where
  queue : EventQueue T
  threads : T → Local T
  stage : T → Stage
  recorders : List T
  ledger : Ledger T

-- The calls split at every point where another party can look. `arm` is one step, as the
-- epoch makes it for a reader; `push` runs to its end on the fast path and stops before
-- `arm` on the slow one.
inductive Act (T : Type) where
  | push (t : T) (run : Nat) (ticks : UInt64) (codeId : UInt32) (kind : EventKind)
  | arm (t : T)
  | write (t : T)
  | flush (t : T)
  | leave (t : T)
  | commit (t : T)
  | take (t : T)
  | handOver (t : T)
  | recordDropped (events : Nat)
  | drain (limit : Nat)
  | close

def World.initial (id : Nat) (clock : Clock) : World T :=
  ⟨.new id clock,fun _ => .fresh,fun _ => .idle,[],⟨[],[],[],0,0,0⟩⟩

variable {T : Type} [DecidableEq T]

namespace World

def put (w : World T) (t : T) (l : Local T) (stage : Stage) : World T :=
  {w with threads := Function.update w.threads t l,stage := Function.update w.stage t stage}

def logPushed (w : World T) (t : T) (ticks : UInt64) (codeKind : UInt32) : World T :=
  {w with ledger := {w.ledger with pushed := w.ledger.pushed ++ [(t,ticks,codeKind)]}}

def logShipped (w : World T) (t : T) (accepted : Bool) (batch : EventBatch) : World T :=
  {w with ledger := {w.ledger with shipped := w.ledger.shipped ++ [(t,accepted,batch)]}}

def logLost (w : World T) (leaving : Bool) (events : Nat) : World T :=
  {w with ledger :=
    if leaving then {w.ledger with exitLost := w.ledger.exitLost + events}
    else {w.ledger with lost := w.ledger.lost + events}}

def register (w : World T) (t : T) : World T :=
  {w with recorders := if t ∈ w.recorders then w.recorders else w.recorders ++ [t]}

def withQueue (w : World T) (q : EventQueue T) : World T := {w with queue := q}

def pushStep (tidOf : T → UInt32) (w : World T) (t : T) (run : Nat) (ticks : UInt64)
    (codeKind : UInt32) : Option (World T) :=
  let l := w.threads t
  if EventQueue.fastPath l run ticks then
    (EventQueue.writeSlot l ⟨(ticks - l.hot.baseTicks).toUInt32,codeKind⟩).map fun l =>
      (w.put t l .idle).logPushed t ticks codeKind
  else if w.queue.stale l then
    let seated := w.queue.initRing t l ticks (tidOf t)
    some (((w.put t seated.2 (.renewed ticks codeKind)).withQueue seated.1).register t)
  else
    (w.queue.ship l ticks (tidOf t)).map fun shipped =>
      ((w.put t shipped.2.1 (.renewed ticks codeKind)).withQueue shipped.1).logShipped t
        shipped.2.2.1 shipped.2.2.2

def takeStep (w : World T) (t : T) (leaving : Bool) : World T :=
  match (w.threads t).takeOpen with
  | none => w.put t (w.threads t) (.done leaving)
  | some (l,none) => w.put t l (.restored leaving)
  | some (l,some full) => w.put t l (.taken leaving full)

def handOverStep (w : World T) (t : T) (leaving : Bool) (full : EventBatch) : Option (World T) := do
  let producer ← (w.threads t).cold.producer
  let w := w.put t (w.threads t) (.done leaving)
  match w.queue.push producer.2 full with
  | some q => some ((w.withQueue q).logShipped t true full)
  | none => some ((w.logShipped t false full).logLost leaving full.events.length)

def step (tidOf : T → UInt32) (w : World T) : Act T → Option (World T)
  | .push t run ticks codeId kind =>
    if w.stage t = .idle then w.pushStep tidOf t run ticks (packCodeKind codeId kind) else none
  | .arm t =>
    let l := (w.threads t).arm
    match w.stage t with
    | .renewed ticks codeKind => some (w.put t l (.armed ticks codeKind))
    | .restored leaving => some (w.put t l (.done leaving))
    | .taken leaving full => some (w.put t l (.rearmed leaving full))
    | _ => none
  | .write t =>
    match w.stage t with
    | .armed ticks codeKind =>
      (EventQueue.writeSlot (w.threads t) ⟨0,codeKind⟩).map fun l =>
        (w.put t l .idle).logPushed t ticks codeKind
    | _ => none
  | .flush t =>
    if w.stage t = .idle then (w.threads t).commit.map (w.put t · (.committed false)) else none
  | .leave t =>
    if w.stage t = .idle then
      some {w.put t (w.threads t) .leaving with recorders := w.recorders.filter (· ≠ t)}
    else none
  | .commit t =>
    if w.stage t = .leaving then (w.threads t).commit.map (w.put t · (.committed true)) else none
  | .take t =>
    match w.stage t with
    | .committed leaving => some (w.takeStep t leaving)
    | _ => none
  | .handOver t =>
    match w.stage t with
    | .rearmed leaving full => w.handOverStep t leaving full
    | _ => none
  | .recordDropped events =>
    some {w with
      queue := w.queue.recordDropped events
      ledger := {w.ledger with recorded := w.ledger.recorded + events}}
  | .drain limit =>
    let drained := w.queue.drainBatches limit
    some {w with
      queue := drained.2
      ledger := {w.ledger with drained := w.ledger.drained ++ drained.1}}
  | .close => some {w with queue := w.queue.close}

end World

end Trace0
