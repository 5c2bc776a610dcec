import Trace0.Lib.Machine
import Trace0.Steps

namespace Trace0.Forks

-- An event with the thread it came from: what a batch decodes to, its `code_kind` still packed.
abbrev Stamp := UInt32 × UInt64 × UInt32

-- What a process did, in order. No step reads it.
inductive Deed where
  | created (id : Nat)
  | pushed (id ring : Nat) (event : Stamp)
  deriving DecidableEq

-- One process: its counter of queue ids, its queues by id, its threads, the registry. A ring
-- has the number of the push that made it: a thread that returns to a queue gets a second one.
-- `inherited` is what the processes before the last fork did, `drained` every batch returned.
structure Process (T : Type) where
  nextQueueId : Nat
  nextRing : Nat
  queues : Nat → EventQueue Nat
  threads : T → Local Nat
  recorders : List T
  inherited : List Deed
  deeds : List Deed
  drained : List (Nat × Nat × EventBatch)

inductive Move (T : Type) where
  | newQueue (clock : Clock)
  | push (t : T) (id : Nat) (ticks : UInt64) (codeId : UInt32) (kind : EventKind)
  | flush (t : T)
  | flushEveryThread
  | drain (id limit : Nat)
  | forgetOtherThreads (t : T)
  | exit (t : T)

-- `fork` makes a copy of the process, which is the last of the list from then on.
inductive Act (T : Type) where
  | run (pid : Nat) (move : Move T)
  | fork (pid : Nat)

namespace Process

variable {T : Type}

def initial : Process T := ⟨1,0,fun id => .new id .mock,fun _ => .fresh,[],[],[],[]⟩

def history (p : Process T) : List Deed := p.inherited ++ p.deeds

def fork (p : Process T) : Process T := {p with inherited := p.history,deeds := []}

def newQueue (p : Process T) (clock : Clock) : Process T :=
  {p with
    nextQueueId := p.nextQueueId+1
    queues := Function.update p.queues p.nextQueueId (.new p.nextQueueId clock)
    deeds := p.deeds ++ [.created p.nextQueueId]}

def has (p : Process T) (id : Nat) : Bool := 0 < id && id < p.nextQueueId

-- The queue and the ring a thread's producer end leads to. 0 names no queue.
def feeds (l : Local Nat) : Nat × Nat := l.cold.producer.getD (0,0)

def withQueue (p : Process T) (q : EventQueue Nat) : Process T :=
  {p with queues := Function.update p.queues q.id q}

def drain (p : Process T) (id limit : Nat) : Option (Process T) :=
  if p.has id then
    let drained := (p.queues id).drainBatches limit
    some {p.withQueue drained.2 with drained := p.drained ++ drained.1.map (id,·)}
  else none

variable [DecidableEq T]

def put (p : Process T) (t : T) (l : Local Nat) : Process T := {p with threads := Function.update p.threads t l}

def register (p : Process T) (t : T) : Process T :=
  {p with recorders := if t ∈ p.recorders then p.recorders else p.recorders ++ [t]}

-- The run passed along is the queue's own id.
def push (tidOf : T → UInt32) (p : Process T) (t : T) (id : Nat) (ticks : UInt64) (codeId : UInt32)
    (kind : EventKind) : Option (Process T) :=
  if p.has id then
    let l := p.threads t
    let q := p.queues id
    let entered := if !EventQueue.fastPath l id ticks && q.stale l then p.register t else p
    (q.pushWithCtx p.nextRing l id ticks (tidOf t) codeId kind).map fun pushed =>
      {(entered.put t pushed.2).withQueue pushed.1 with
        nextRing := p.nextRing+1
        deeds := p.deeds ++ [.pushed id (feeds pushed.2).2 (tidOf t,ticks,packCodeKind codeId kind)]}
  else none

-- What the call returns, the events a full ring refused, goes to its caller.
def flush (p : Process T) (t : T) : Option (Process T) :=
  (flushPartial (p.queues (feeds (p.threads t)).1) (p.threads t)).map fun flushed =>
    (p.put t flushed.2.1).withQueue flushed.1

def flushEveryThread (p : Process T) : Option (Process T) := p.recorders.foldlM flush p

def forgetOtherThreads (p : Process T) (t : T) : Process T := {p with recorders := p.recorders.filter (· = t)}

-- `Drop for Cold`, and then the thread's storage is gone.
def exit (p : Process T) (t : T) : Option (Process T) :=
  (flush {p with recorders := p.recorders.filter (· ≠ t)} t).map (·.put t .fresh)

def step (tidOf : T → UInt32) (p : Process T) : Move T → Option (Process T)
  | .newQueue clock => some (p.newQueue clock)
  | .push t id ticks codeId kind => p.push tidOf t id ticks codeId kind
  | .flush t => p.flush t
  | .flushEveryThread => p.flushEveryThread
  | .drain id limit => p.drain id limit
  | .forgetOtherThreads t => some (p.forgetOtherThreads t)
  | .exit t => p.exit t

end Process

def step [DecidableEq T] (tidOf : T → UInt32) (processes : List (Process T)) : Act T → Option (List (Process T))
  | .run pid move => do
    let p ← processes[pid]?
    let p ← p.step tidOf move
    some (processes.set pid p)
  | .fork pid => processes[pid]?.map fun p => processes ++ [p.fork]

variable {R : Type} [DecidableEq R] {q : EventQueue R} {l : Local R} {tid : UInt32} {ring : R}

def stamps (b : EventBatch) : List Stamp := b.entries.map (b.tid,·)

def stampsOf (batches : List EventBatch) : List Stamp := batches.flatMap stamps

@[simp] theorem stampsOf_nil : stampsOf [] = [] := rfl

@[simp] theorem stampsOf_append (left right : List EventBatch) :
    stampsOf (left ++ right) = stampsOf left ++ stampsOf right := by simp [stampsOf]

def openStamps (l : Local R) : List Stamp := l.written.map (l.hot.tid,·)

-- A thread with a batch to write to and the next address to allocate at.
structure Ready (tid : UInt32) (l : Local R) : Prop where
  brk : 0 < l.brk
  armed : ∃ o, Armed l o ∧ o.batch.tid = tid

-- How a whole call leaves a thread at its ring of the queue `q`, which is `q'` then. Of the
-- events it carried and the `fresh` one some went to the ring and some are open, in order.
structure Lands (tid : UInt32) (ring : R) (carried fresh : List Stamp) (q q' : EventQueue R) (l : Local R) : Prop where
  ready : Ready tid l
  producer : l.cold.producer = some (q.id,ring)
  queueId : l.hot.queueId = q.id
  owners : q'.owners = q.owners
  id : q'.id = q.id
  hands : ∃ out, (∀ r, q'.held r = q.held r ++ if ring = r then out else []) ∧
    (stampsOf out ++ openStamps l).Sublist (carried ++ fresh)

omit [DecidableEq R] in
theorem window_stamps {o : OpenBatch} (armed : Armed l o) :
    stampsOf [{o.batch with events := l.window}] = openStamps l := by
  have entries := window_entries armed
  simp only [stampsOf,stamps,List.flatMap_cons,List.flatMap_nil,List.append_nil,entries]
  rw [← armed.tid]
  rfl

omit [DecidableEq R] in
theorem arm_ready {o : OpenBatch} (brk : 0 < l.brk) (held : l.cold.batch = some o) (blank : Blank o base tid) :
    Ready tid l.arm ∧ openStamps l.arm = [] ∧ l.arm.hot.baseTicks = base ∧ l.arm.hot.cursor < o.start + batchN ∧
      Armed l.arm o := by
  obtain ⟨armed,empty,at_,_⟩ := arm_blank held blank
  exact ⟨⟨by simpa using brk,o,armed,blank.tid⟩,by simp [openStamps,Local.written,empty],at_,
    window_room armed.toPoints empty,armed⟩

omit [DecidableEq R] in
theorem write_ready {o : OpenBatch} (brk : 0 < l.brk) (armed : Armed l o) (own : o.batch.tid = tid)
    (room : l.hot.cursor < o.start + batchN) (event : PackedEvent) :
    ∃ l', EventQueue.writeSlot l event = some l' ∧ Ready tid l' ∧ l'.cold = l.cold ∧ l'.hot.queueId = l.hot.queueId ∧
      openStamps l' = openStamps l ++ [(tid,l.hot.baseTicks + event.deltaTicks.toUInt64,event.codeKind)] := by
  obtain ⟨l',wrote⟩ := writeSlot_enabled armed event
  obtain ⟨armed',written⟩ := writeSlot_armed armed room wrote
  have changed := writeSlot_some wrote
  have same : l'.hot.tid = l.hot.tid := by rw [changed]
  refine ⟨l',wrote,⟨by rw [changed]; exact brk,o,armed',own⟩,by rw [changed],by rw [changed],?_⟩
  simp only [openStamps,written,same,List.map_append,List.map_singleton,entryAt]
  rw [armed.base,armed.tid,own]

def stamp (tid : UInt32) (ticks : UInt64) (codeId : UInt32) (kind : EventKind) : Stamp := (tid,ticks,packCodeKind codeId kind)

theorem push_lands (run : Nat) (ready : Ready tid l) (distinct : q.owners.Nodup) (member : ring ∈ q.owners)
    (producer : l.cold.producer = some (q.id,ring)) (queueId : l.hot.queueId = q.id) (me : R) (ticks : UInt64)
    (codeId : UInt32) (kind : EventKind) :
    ∃ q' l', q.pushWithCtx me l run ticks tid codeId kind = some (q',l') ∧
      Lands tid ring (openStamps l) [stamp tid ticks codeId kind] q q' l' := by
  obtain ⟨brk,o,armed,own⟩ := ready
  unfold EventQueue.pushWithCtx
  split
  · rename_i hit
    obtain ⟨below,_,near⟩ := fastPath_true hit
    have room : l.hot.cursor < o.start + batchN := armed.finish ▸ below
    obtain ⟨l',wrote,ready',cold,same,stamps'⟩ := write_ready brk armed own room
      ⟨(ticks - l.hot.baseTicks).toUInt32,packCodeKind codeId kind⟩
    refine ⟨q,l',Option.map_eq_some_iff.mpr ⟨l',wrote,rfl⟩,ready',cold ▸ producer,same.trans queueId,rfl,rfl,
      [],by simp,?_⟩
    dsimp only at stamps'
    rw [stamps',delta_decodes near,stampsOf_nil,List.nil_append,stamp]
  · have fresh : q.stale l = false := by simp [EventQueue.stale,producer]
    have goes : ∃ shipped, q.ship l ticks tid = some shipped := by
      unfold EventQueue.ship
      simp only [commit_armed armed,producer,Option.bind_eq_bind,Option.bind_some]
      split <;> exact ⟨_,rfl⟩
    obtain ⟨⟨q',l₁,accepted,full⟩,shipped⟩ := goes
    obtain ⟨rfl,⟨o',brk',grows,blank,rfl⟩,offered,_⟩ := ship_some distinct member armed brk producer shipped
    set l₁ : Local R := {l with cold := {l.cold with batch := some o'},brk := brk'} with made
    have brk₁ : 0 < l₁.brk := Nat.lt_of_lt_of_le brk grows
    obtain ⟨ready₁,empty,base,room,armed₁⟩ := arm_ready brk₁ rfl blank
    obtain ⟨l',wrote,ready',cold,same,stamps'⟩ := write_ready ready₁.brk armed₁ blank.tid room ⟨0,packCodeKind codeId kind⟩
    refine ⟨q',l',?_,ready',?_,?_,offered.owners,offered.id,if accepted then [{o.batch with events := l.window}] else [],?_,?_⟩
    · simp [EventQueue.slowPath,fresh,EventQueue.shipAndRenew,shipped,wrote]
    · simpa [cold,made] using producer
    · simpa [same,made] using queueId
    · intro r
      rw [offered.held r]
      cases accepted <;> simp
    · rw [stamps',empty,base]
      have event : ((tid,ticks + (0 : UInt32).toUInt64,packCodeKind codeId kind) : Stamp) = stamp tid ticks codeId kind := by
        simp [stamp]
      rw [List.nil_append,event]
      cases accepted with
      | true => rw [if_pos rfl,window_stamps armed]
      | false => exact List.sublist_append_right _ _

theorem push_opens {run : Nat} (brk : 0 < l.brk) (stale : q.stale l = true) (miss : EventQueue.fastPath l run ticks = false)
    (tid : UInt32) (me : R) (codeId : UInt32) (kind : EventKind) :
    ∃ l', q.pushWithCtx me l run ticks tid codeId kind = some ((q.initRing me l ticks tid).1,l') ∧
      Lands tid me [] [stamp tid ticks codeId kind] (q.initRing me l ticks tid).1 (q.initRing me l ticks tid).1 l' := by
  set l₁ := (q.initRing me l ticks tid).2 with made
  have brk₁ : 0 < l₁.brk := Nat.lt_of_lt_of_le brk (Nat.le_add_right _ _)
  have held : l₁.cold.batch = some ⟨l.brk,.withCapacity batchN ticks tid⟩ := rfl
  have blank : Blank ⟨l.brk,.withCapacity batchN ticks tid⟩ ticks tid := ⟨brk,rfl,rfl,rfl⟩
  obtain ⟨ready₁,empty,base,room,armed₁⟩ := arm_ready brk₁ held blank
  obtain ⟨l',wrote,ready',cold,same,stamps'⟩ := write_ready ready₁.brk armed₁ blank.tid room ⟨0,packCodeKind codeId kind⟩
  refine ⟨l',?_,ready',?_,?_,rfl,rfl,[],by simp,?_⟩
  · simp [EventQueue.pushWithCtx,miss,EventQueue.slowPath,stale,EventQueue.initProducer,← made,wrote]
  · simp [cold,made,EventQueue.initRing,Local.alloc]
  · simp [same,made,EventQueue.initRing,Local.alloc]
  · rw [stamps',empty,base]
    simp [stamp]

theorem flush_lands (ready : Ready tid l) (distinct : q.owners.Nodup) (member : ring ∈ q.owners)
    (producer : l.cold.producer = some (q.id,ring)) (queueId : l.hot.queueId = q.id) :
    ∃ q' l' lost, flushPartial q l = some (q',l',lost) ∧ Lands tid ring (openStamps l) [] q q' l' := by
  obtain ⟨brk,o,armed,own⟩ := ready
  unfold flushPartial
  simp only [commit_armed armed,Option.bind_eq_bind,Option.bind_some]
  by_cases nothing : l.window = []
  · obtain ⟨again,empty⟩ := arm_again (armed_committed armed)
    refine ⟨q,_,0,by simp [Local.takeOpen,nothing],⟨by simpa using brk,_,again,own⟩,
      by simpa using producer,by simpa using queueId,rfl,rfl,[],by simp,?_⟩
    simp [stampsOf,openStamps,Local.written,empty]
  · have taken : ({l with cold := {l.cold with batch := some {o with batch := {o.batch with events := l.window}}}} : Local R).takeOpen =
        some ({l with
          cold := {l.cold with batch := some ⟨l.brk,.withCapacity batchN o.batch.baseTicks o.batch.tid⟩}
          brk := l.brk + batchN},some {o.batch with events := l.window}) := by
      simp [Local.takeOpen,producer,nothing,Local.alloc]
    set l₁ : Local R := {l with
      cold := {l.cold with batch := some ⟨l.brk,.withCapacity batchN o.batch.baseTicks o.batch.tid⟩}
      brk := l.brk + batchN} with made
    have held : l₁.cold.batch = some ⟨l.brk,.withCapacity batchN o.batch.baseTicks o.batch.tid⟩ := rfl
    have blank : Blank ⟨l.brk,.withCapacity batchN o.batch.baseTicks o.batch.tid⟩ o.batch.baseTicks tid := ⟨brk,rfl,own,rfl⟩
    obtain ⟨ready₁,empty,_⟩ := arm_ready (Nat.lt_of_lt_of_le brk (Nat.le_add_right _ _)) held blank
    have seat : l₁.arm.cold.producer = some (q.id,ring) := by simpa [made] using producer
    simp only [taken,seat,Option.bind_some]
    cases pushed : q.push ring {o.batch with events := l.window} with
    | some q' =>
      obtain ⟨offered,_⟩ := push_offered distinct member pushed
      refine ⟨q',l₁.arm,_,rfl,ready₁,seat,by simpa [made] using queueId,offered.owners,offered.id,
        [{o.batch with events := l.window}],?_,?_⟩
      · intro r
        simpa using offered.held r
      · rw [window_stamps armed,empty,List.append_nil]
    | none =>
      refine ⟨q,l₁.arm,_,rfl,ready₁,seat,by simpa [made] using queueId,rfl,rfl,[],by simp,?_⟩
      simp [empty]

theorem flush_unseated (none : Unseated l) : flushPartial q l = some (q,l,0) := by
  simp [flushPartial,commit_unseated none,Local.takeOpen,none.batch]

end Trace0.Forks
