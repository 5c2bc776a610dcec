import Trace0.Lib.Machine
import Trace0.World

namespace Trace0.Tails

structure Push where
  queue : Nat
  ticks : UInt64
  tid : UInt32
  codeKind : UInt32
  deriving DecidableEq

-- Why a batch is measured: to make room for a push, or in a flush.
inductive Commit where
  | ship (p : Push)
  | flush
  deriving DecidableEq

inductive After where
  | seated (p : Push)
  | shipped (p : Push)
  | restored
  | handOver (full : EventBatch)
  deriving DecidableEq

-- What `arm` stores between its two stores to the epoch.
inductive Store where
  | baseTicks (v : UInt64)
  | tid (v : UInt32)
  | cursor (v : Nat)
  | endAt (v : Nat)
  deriving DecidableEq

def Store.apply (hot : Hot) : Store → Hot
  | baseTicks v => {hot with baseTicks := v}
  | tid v => {hot with tid := v}
  | cursor v => {hot with cursor := v}
  | endAt v => {hot with endAt := v}

-- Where the recording thread stands: one atomic load or store away from the next place, with
-- what it has loaded so far.
inductive Pc where
  | idle
  | pushBase (p : Push)
  | pushCursor (p : Push) (delta : UInt64)
  | pushEnd (p : Push) (delta : UInt64) (cursor : Nat)
  | pushQueue (p : Push) (delta : UInt64) (cursor : Nat)
  | pushSlot (p : Push) (delta : UInt64) (cursor : Nat)
  | bump (cursor : Nat)
  | slow (p : Push)
  | storeQueue (p : Push)
  | storeClock (p : Push)
  | commitCursor (reason : Commit)
  | commitEnd (reason : Commit) (cursor : Nat)
  | ship (p : Push)
  | take
  | arm (next : After)
  | armOdd (next : After) (epoch : UInt64)
  | arming (stores : List Store) (next : After) (epoch : UInt64)
  | slowCursor (p : Push)
  | slowSlot (p : Push) (cursor : Nat)
  | handOver (full : EventBatch)
  deriving DecidableEq

-- From `init_producer`'s new batch, which frees the one of the queue before, to the first store
-- of its `arm`.
def Pc.freed : Pc → Bool
  | .storeQueue _ => true
  | .storeClock _ => true
  | .arm (.seated _) => true
  | .armOdd (.seated _) _ => true
  | _ => false

-- One batch as it was armed, with the events written to it since and the queue each was pushed to.
structure Armed where
  baseTicks : UInt64
  tid : UInt32
  events : List (Nat × PackedEvent)

-- A thread's `Hot` and `Cold`, and the memory its cursor writes to. `arms` counts the arms and
-- `armed` records every batch armed so far; no step reads them.
structure Cell where
  hot : Hot
  producer : Option Nat
  batch : Option OpenBatch
  slots : Nat → PackedEvent
  pc : Pc
  arms : Nat
  armed : List Armed

-- `direct` is the queue's clock, `start` the address a new buffer is given, `full` whether
-- the ring is.
inductive WriterAct where
  | push (p : Push)
  | flush
  | step (direct : Bool) (start : Nat) (full : Bool)

namespace Cell

def dangles (c : Cell) : Bool := c.pc.freed && c.hot.cursor ≠ 0

def fresh : Cell := ⟨.empty,none,none,fun _ => ⟨0,0⟩,.idle,0,[]⟩

def renew (c : Cell) (start : Nat) (baseTicks : UInt64) (tid : UInt32) : Cell :=
  {c with batch := some ⟨start,.withCapacity batchN baseTicks tid⟩}

-- The batch's length, set without the debug assertions.
def measure (c : Cell) (cursor : Nat) : Cell :=
  {c with batch := c.batch.map fun o =>
    {o with batch := {o.batch with events := (List.range (cursor - o.start)).map fun i => c.slots (o.start + i)}}}

def armStores (c : Cell) : List Store :=
  match c.batch with
  | none => [.cursor 0,.endAt 0]
  | some o => [.baseTicks o.batch.baseTicks,.tid o.batch.tid,.cursor o.start,.endAt (o.start + batchN)]

def logWrite (c : Cell) (e : Nat × PackedEvent) : List Armed :=
  match c.armed.getLast? with
  | none => c.armed
  | some last => c.armed.dropLast ++ [{last with events := last.events ++ [e]}]

def writeSlot (c : Cell) (p : Push) (cursor : Nat) (event : PackedEvent) : Cell :=
  {c with slots := Function.update c.slots cursor event,pc := .bump cursor,armed := c.logWrite (p.queue,event)}

def afterArm : After → Pc
  | .seated p => .slowCursor p
  | .shipped p => .slowCursor p
  | .restored => .idle
  | .handOver full => .handOver full

def advance (c : Cell) (direct : Bool) (start : Nat) (full : Bool) : Option Cell :=
  match c.pc with
  | .idle => none
  | .pushBase p => some {c with pc := .pushCursor p (p.ticks - c.hot.baseTicks)}
  | .pushCursor p delta => some {c with pc := .pushEnd p delta c.hot.cursor}
  | .pushEnd p delta cursor =>
    some {c with pc := if cursor < c.hot.endAt then .pushQueue p delta cursor else .slow p}
  | .pushQueue p delta cursor =>
    some {c with pc := if c.hot.queueId = p.queue ∧ delta ≤ deltaOverflow then .pushSlot p delta cursor else .slow p}
  | .pushSlot p delta cursor => some (c.writeSlot p cursor ⟨delta.toUInt32,p.codeKind⟩)
  | .bump cursor => some {c with hot := {c.hot with cursor := cursor+1},pc := .idle}
  | .slow p =>
    if c.producer = some p.queue then some {c with pc := .commitCursor (.ship p)}
    else if start = 0 then none
    else some {c.renew start p.ticks p.tid with producer := some p.queue,pc := .storeQueue p}
  | .storeQueue p => some {c with hot := {c.hot with queueId := p.queue},pc := .storeClock p}
  | .storeClock p => some {c with hot := {c.hot with clockDirect := direct},pc := .arm (.seated p)}
  | .commitCursor reason => some {c with pc := .commitEnd reason c.hot.cursor}
  | .commitEnd reason cursor =>
    some {c.measure cursor with pc := match reason with
      | .ship p => .ship p
      | .flush => .take}
  | .ship p =>
    match c.batch with
    | none => none
    | some o =>
      if full then
        let reused := {o.batch with events := [],baseTicks := p.ticks,tid := p.tid}
        some {c with batch := some {o with batch := reused},pc := .arm (.shipped p)}
      else if start = 0 then none
      else some {c.renew start p.ticks p.tid with pc := .arm (.shipped p)}
  | .take =>
    match c.batch with
    | none => none
    | some o =>
      if c.producer = none ∨ o.batch.events = [] then some {c with pc := .arm .restored}
      else if start = 0 then none
      else some {c.renew start o.batch.baseTicks o.batch.tid with pc := .arm (.handOver o.batch)}
  | .arm next => some {c with pc := .armOdd next c.hot.epoch}
  | .armOdd next epoch =>
    some {c with hot := {c.hot with epoch := epoch+1},pc := .arming c.armStores next epoch}
  | .arming (store :: stores) next epoch => some {c with hot := store.apply c.hot,pc := .arming stores next epoch}
  | .arming [] next epoch =>
    some {c with
      hot := {c.hot with epoch := epoch+2}
      pc := afterArm next
      arms := c.arms+1
      armed := c.armed ++ (c.batch.map fun o => ⟨o.batch.baseTicks,o.batch.tid,[]⟩).toList}
  | .slowCursor p => some {c with pc := .slowSlot p c.hot.cursor}
  | .slowSlot p cursor => some (c.writeSlot p cursor ⟨0,p.codeKind⟩)
  | .handOver _ => some {c with pc := .idle}

def step (c : Cell) : WriterAct → Option Cell
  | .push p =>
    match c.pc with
    | .idle => some {c with pc := .pushBase p}
    | _ => none
  | .flush =>
    match c.pc,c.batch with
    | .idle,none => some c
    | .idle,some _ => some {c with pc := .commitCursor .flush}
    | _,_ => none
  | .step direct start full => c.advance direct start full

-- The freed batch's memory is written to by whoever was given it.
def reuse (c : Cell) (memory : Nat → PackedEvent) : Option Cell :=
  if c.dangles then
    some {c with slots := fun a => if c.hot.endAt - batchN ≤ a ∧ a < c.hot.endAt then memory a else c.slots a}
  else none

end Cell

def tailRetries : Nat := 8

inductive ReadPc where
  | epoch
  | queue
  | cursor
  | endAt (cursor : Nat)
  | baseTicks (cursor endAt : Nat)
  | tid (cursor endAt : Nat) (baseTicks : UInt64)
  | slots (cursor endAt : Nat) (baseTicks : UInt64) (tid : UInt32) (events : List PackedEvent)
  | returned (tail : Option EventBatch)
  deriving DecidableEq

-- `since` is the count of arms its epoch was loaded at, and `strayed` whether a slot was loaded
-- from a freed batch since; no step reads them.
structure Reader (T : Type) where
  thread : T
  queue : Nat
  attempts : Nat
  epoch : UInt64
  since : Nat
  strayed : Bool
  pc : ReadPc
  deriving DecidableEq

variable {T R : Type}

namespace Reader

def tail (r : Reader T) : Option EventBatch :=
  match r.pc with
  | .returned tail => tail
  | _ => none

def retry (r : Reader T) : Reader T :=
  if r.attempts ≤ 1 then {r with pc := .returned none} else {r with attempts := r.attempts-1,pc := .epoch}

-- One load of `read_tail` from the thread it looks at.
def step (r : Reader T) (c : Cell) : Option (Reader T) :=
  match r.pc with
  | .epoch =>
    if c.hot.epoch % 2 = 1 then some r.retry
    else some {r with epoch := c.hot.epoch,since := c.arms,strayed := false,pc := .queue}
  | .queue => some {r with pc := if c.hot.queueId = r.queue then .cursor else .returned none}
  | .cursor => some {r with pc := .endAt c.hot.cursor}
  | .endAt cursor =>
    if cursor = 0 ∨ c.hot.endAt = 0 then some {r with pc := .returned none}
    else if cursor ≤ c.hot.endAt - batchN ∨ c.hot.endAt < cursor then some r.retry
    else some {r with pc := .baseTicks cursor c.hot.endAt}
  | .baseTicks cursor endAt => some {r with pc := .tid cursor endAt c.hot.baseTicks}
  | .tid cursor endAt baseTicks => some {r with pc := .slots cursor endAt baseTicks c.hot.tid []}
  | .slots cursor endAt baseTicks tid events =>
    if events.length < cursor - (endAt - batchN) then
      some {r with
        strayed := r.strayed || c.dangles
        pc := .slots cursor endAt baseTicks tid (events ++ [c.slots (endAt - batchN + events.length)])}
    else if c.hot.epoch ≠ r.epoch then some r.retry
    else some {r with pc := .returned (some ⟨baseTicks,tid,events,events.length⟩)}
  | .returned _ => none

end Reader

-- Any number of threads that record, and of readers.
structure Sys (T R : Type) where
  cells : T → Cell
  readers : R → Option (Reader T)

-- `fork` goes on in the child, which has the forking thread alone.
inductive Act (T R : Type) where
  | writer (t : T) (a : WriterAct)
  | reuse (t : T) (memory : Nat → PackedEvent)
  | readTail (r : R) (t : T) (queue : Nat)
  | read (r : R)
  | fork (t : T)

namespace Sys

def initial : Sys T R := ⟨fun _ => .fresh,fun _ => none⟩

variable [DecidableEq T] [DecidableEq R]

def step (s : Sys T R) : Act T R → Option (Sys T R)
  | .writer t a => ((s.cells t).step a).map fun c => {s with cells := Function.update s.cells t c}
  | .reuse t memory => ((s.cells t).reuse memory).map fun c => {s with cells := Function.update s.cells t c}
  | .readTail r t queue =>
    match s.readers r with
    | none | some ⟨_,_,_,_,_,_,.returned _⟩ =>
      some {s with readers := Function.update s.readers r (some ⟨t,queue,tailRetries,0,0,false,.epoch⟩)}
    | _ => none
  | .read r => do
    let reader ← s.readers r
    let reader ← reader.step (s.cells reader.thread)
    some {s with readers := Function.update s.readers r (some reader)}
  | .fork t => some ⟨fun u => if u = t then s.cells t else .fresh,fun _ => none⟩

end Sys

end Trace0.Tails
