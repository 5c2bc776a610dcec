import Trace0.Ending
import Trace0.Lib.Machine
import Trace0.Ring

namespace Trace0

section Model

def faninBatches : Nat := 256

-- The serializer thread between its looks at shared state; `batches` is what it has drained
-- and not yet pushed into the fan-in ring.
inductive Serializer where
  | looping
  | roomy (room : Nat)
  | emptied
  | pushing (batches : List EventBatch)
  | finished
  | panicked

-- `run_pipeline` after the spawn. `last` marks the drain after the final pops.
inductive Writer where
  | popping
  | writing (last : Bool)
  | waiting
  | collecting
  | joining
  | returned (ok : Bool)
  deriving DecidableEq

-- `exported` names the batches behind `written`, what `write_batch` was given.
structure Pipeline (T : Type) where
  world : World T
  ender : Ender T
  serializer : Serializer
  fanin : List EventBatch
  writer : Writer
  ring : Ring
  written : List (List Event)
  exported : List EventBatch
  finish : Option Nat

-- `write` and `finish` say whether the exporter's own call succeeds.
inductive PipeAct (T : Type) where
  | thread (a : Act T)
  | ender (act : EndAct)
  | room
  | drain
  | isClosed
  | fanIn
  | pop
  | write (ok : Bool)
  | isFinished
  | collect
  | finish (ok : Bool)

variable {T : Type} [DecidableEq T]

namespace Pipeline

def initial (id : Nat) (clock : Clock) : Pipeline T :=
  ⟨.initial id clock,.recording,.looping,[],.popping,.new usizeMax,[],[],none⟩

-- `is_abandoned` asks whether `run_pipeline` has returned and dropped the other end.
def serializerStep (tidOf : T → UInt32) (p : Pipeline T) : PipeAct T → Option (Pipeline T)
  | .room =>
    match p.serializer with
    | .looping =>
      match p.writer with
      | .returned _ => some {p with serializer := .finished}
      | _ =>
        let room := faninBatches - p.fanin.length
        if room = 0 then some p else some {p with serializer := .roomy room}
    | _ => none
  | .drain =>
    match p.serializer with
    | .roomy room =>
      let batches := (p.world.queue.drainBatches room).1.map (·.2)
      (p.world.step tidOf (.drain room)).map fun w => {p with
        world := w
        serializer := if batches = [] then .emptied else .pushing batches}
    | _ => none
  | .isClosed =>
    match p.serializer with
    | .emptied =>
      some {p with serializer := if p.world.queue.closed then .finished else .looping}
    | _ => none
  | .fanIn =>
    match p.serializer with
    | .pushing [] => some {p with serializer := .looping}
    | .pushing (batch :: batches) =>
      if p.fanin.length < faninBatches then
        some {p with fanin := p.fanin ++ [batch],serializer := .pushing batches}
      else some {p with serializer := .panicked}
    | _ => none
  | _ => none

def writerStep (p : Pipeline T) : PipeAct T → Option (Pipeline T)
  | .pop =>
    match p.writer,p.fanin with
    | .popping,[] => some {p with writer := .waiting}
    | .popping,batch :: rest =>
      some {p with fanin := rest,ring := p.ring.push batch,writer := .writing false}
    | _,_ => none
  | .write ok =>
    match p.writer with
    | .writing last =>
      match p.ring.pop with
      | none => some {p with writer := if last then .joining else .popping}
      | some (batch,ring) => some {p with
          ring := ring
          written := p.written ++ [batch.decodeInto p.world.queue.clock]
          exported := p.exported ++ [batch]
          writer := if ok then .writing last else .returned false}
    | _ => none
  | .isFinished =>
    match p.writer with
    | .waiting =>
      match p.serializer with
      | .finished | .panicked => some {p with writer := .collecting}
      | _ => some {p with writer := .popping}
    | _ => none
  | .collect =>
    match p.writer,p.fanin with
    | .collecting,[] => some {p with writer := .writing true}
    | .collecting,batch :: rest => some {p with fanin := rest,ring := p.ring.push batch}
    | _,_ => none
  | .finish ok =>
    match p.writer,p.serializer with
    | .joining,.finished => some {p with finish := some p.world.queue.dropped,writer := .returned ok}
    | .joining,.panicked => some {p with writer := .returned false}
    | _,_ => none
  | _ => none

def step (tidOf : T → UInt32) (p : Pipeline T) : PipeAct T → Option (Pipeline T)
  | .thread a => do
    let t ← a.recordedBy
    if p.ender.admits t then (p.world.step tidOf a).map fun w => {p with world := w} else none
  | .ender act =>
    (p.ender.step tidOf p.world act).map fun next => {p with world := next.1,ender := next.2}
  | .room => p.serializerStep tidOf .room
  | .drain => p.serializerStep tidOf .drain
  | .isClosed => p.serializerStep tidOf .isClosed
  | .fanIn => p.serializerStep tidOf .fanIn
  | a => p.writerStep a

end Pipeline

end Model

variable {T : Type} [DecidableEq T] {tidOf : T → UInt32} {w w' : World T}

theorem drained_shape (sound : Sound tidOf w) :
    ∀ x ∈ w.ledger.drained, x.2.tid = tidOf x.1 ∧ x.2.capacity = batchN := by
  rintro ⟨t,b⟩ present
  have own : b ∈ ownedBy t w.ledger.drained :=
    List.mem_map.mpr ⟨(t,b),List.mem_filter.mpr ⟨present,by simp⟩,rfl⟩
  have accepted : b ∈ acceptedOf (ownedBy t w.ledger.shipped) := by
    have kept : acceptedOf (ownedBy t w.ledger.shipped) = ownedBy t w.ledger.drained ++ w.queue.held t :=
      (sound.threads t).kept
    rw [kept]
    exact List.mem_append_left _ own
  obtain ⟨s,shipped,rfl⟩ := List.mem_map.mp accepted
  exact (sound.threads t).shape s (List.mem_filter.mp shipped).1

-- The ring the writer owns: sized for everything, so its byte count is all there is to it.
structure PlainRing (r : Ring) : Prop where
  capacity : r.capacity = usizeMax
  bytes : r.bytes = (r.batches.map (·.bytes)).sum

theorem plain_push {r : Ring} {batch : EventBatch} (plain : PlainRing r)
    (sized : ∀ b ∈ r.batches ++ [batch], b.capacity = batchN) (few : r.batches.length < faninBatches) :
    (r.push batch).batches = r.batches ++ [batch] ∧ PlainRing (r.push batch) := by
  have each : ∀ b ∈ r.batches ++ [batch], b.bytes = 8232 := fun b inside => by
    rw [EventBatch.bytes,sized b inside]
    rfl
  have sum : r.bytes + batch.bytes = (r.batches.length + 1) * 8232 := by
    have all : ((r.batches ++ [batch]).map (·.bytes)).sum = (r.batches.length + 1) * 8232 := by
      rw [List.map_congr_left each,List.map_const',List.sum_replicate]
      simp
    rw [plain.bytes,← all]
    simp
  have bound : r.bytes + batch.bytes ≤ r.capacity := by
    rw [sum,plain.capacity]
    simp only [faninBatches,usizeMax] at few ⊢
    omega
  rw [Ring.push_within bound]
  exact ⟨rfl,plain.capacity,by simp [plain.bytes]⟩

theorem plain_pop {r r' : Ring} {batch : EventBatch} (plain : PlainRing r)
    (popped : r.pop = some (batch,r')) : r.batches = batch :: r'.batches ∧ PlainRing r' := by
  unfold Ring.pop at popped
  split at popped
  · cases popped
  · rename_i rest shape
    cases popped
    refine ⟨shape,plain.capacity,?_⟩
    simp only [plain.bytes,shape,List.map_cons,List.sum_cons]
    omega

theorem pop_empty {r : Ring} (none : r.pop = none) : r.batches = [] := by
  unfold Ring.pop at none
  split at none
  · assumption
  · cases none

def Serializer.carried : Serializer → List EventBatch
  | .pushing batches => batches
  | _ => []

def Serializer.claimed : Serializer → Nat
  | .roomy room => room
  | .pushing batches => batches.length
  | _ => 0

def Writer.Clear (p : Pipeline T) : Writer → Prop
  | .popping | .waiting => p.ring.batches = []
  | .writing false => p.ring.batches.length ≤ 1
  | .collecting => p.serializer = .finished ∧ p.ring.batches.length + p.fanin.length ≤ faninBatches
  | .writing true => p.serializer = .finished ∧ p.fanin = []
  | .joining | .returned true => p.serializer = .finished ∧ p.fanin = [] ∧ p.ring.batches = []
  | .returned false => True

-- What holds of the two threads and the ring between them, whatever the recording threads do.
structure Fan (p : Pipeline T) : Prop where
  order : p.exported ++ (p.ring.batches ++ (p.fanin ++ p.serializer.carried)) =
    p.world.ledger.drained.map (·.2)
  room : p.fanin.length + p.serializer.claimed ≤ faninBatches
  positive : ∀ room, p.serializer = .roomy room → 0 < room
  plain : PlainRing p.ring
  calm : p.serializer ≠ .panicked
  clear : p.writer.Clear p

omit [DecidableEq T] in
theorem fan_world {p : Pipeline T} (fan : Fan p) (ender : Ender T)
    (drained : w'.ledger.drained = p.world.ledger.drained) : Fan {p with world := w',ender := ender} := by
  refine ⟨by rw [drained]; exact fan.order,fan.room,fan.positive,fan.plain,fan.calm,?_⟩
  have clear := fan.clear
  cases writer : p.writer with
  | writing last => cases last <;> rw [writer] at clear <;> exact clear
  | returned ok => cases ok <;> rw [writer] at clear <;> exact clear
  | _ => rw [writer] at clear; exact clear

omit [DecidableEq T] in
theorem clear_running {p p' : Pipeline T} (running : p.serializer ≠ .finished)
    (clear : p.writer.Clear p) (ring : p'.ring = p.ring) (same : p'.writer = p.writer) : p'.writer.Clear p' := by
  rw [same]
  cases writer : p.writer with
  | returned ok =>
    rw [writer] at clear
    cases ok with
    | false => trivial
    | true => exact absurd clear.1 running
  | writing last =>
    rw [writer] at clear
    cases last with
    | false => simpa only [Writer.Clear,ring] using clear
    | true => exact absurd clear.1 running
  | collecting => rw [writer] at clear; exact absurd clear.1 running
  | joining => rw [writer] at clear; exact absurd clear.1 running
  | popping => rw [writer] at clear; simpa only [Writer.Clear,ring] using clear
  | waiting => rw [writer] at clear; simpa only [Writer.Clear,ring] using clear

structure WriterSide (p p' : Pipeline T) : Prop where
  ender : p'.ender = p.ender
  writer : p'.writer = p.writer
  ring : p'.ring = p.ring
  written : p'.written = p.written
  exported : p'.exported = p.exported
  finish : p'.finish = p.finish
  clock : p'.world.queue.clock = p.world.queue.clock

section Serializing

variable {p p' : Pipeline T}

theorem room_fan (fan : Fan p) (stepped : p.serializerStep tidOf .room = some p') :
    WriterSide p p' ∧ p'.world = p.world ∧ Fan p' ∧
      (p'.serializer = .finished → ∃ ok, p.writer = .returned ok ∧ p.serializer ≠ .finished) := by
  have order := fan.order
  simp only [Pipeline.serializerStep] at stepped
  split at stepped
  · rename_i looping
    rw [looping] at order
    have running : p.serializer ≠ .finished := by rw [looping]; simp
    split at stepped
    · rename_i ok writer
      cases stepped
      refine ⟨⟨rfl,rfl,rfl,rfl,rfl,rfl,rfl⟩,rfl,⟨order,?_,by simp,fan.plain,by simp,?_⟩,fun _ => ⟨ok,writer,running⟩⟩
      · simpa [looping,Serializer.claimed] using fan.room
      · exact clear_running running fan.clear rfl rfl
    · split at stepped
      · cases stepped
        exact ⟨⟨rfl,rfl,rfl,rfl,rfl,rfl,rfl⟩,rfl,fan,fun finished => absurd finished running⟩
      · rename_i some_
        cases stepped
        refine ⟨⟨rfl,rfl,rfl,rfl,rfl,rfl,rfl⟩,rfl,⟨order,?_,?_,fan.plain,by simp,clear_running running fan.clear rfl rfl⟩,
          by simp⟩
        · have room := fan.room
          simp only [Serializer.claimed]
          omega
        · intro room same
          cases same
          omega
  · cases stepped

theorem drain_fan (sound : Sound tidOf p.world) (fan : Fan p) (stepped : p.serializerStep tidOf .drain = some p') :
    WriterSide p p' ∧ Fan p' ∧ p'.serializer ≠ .finished ∧
      ∃ room, p.world.step tidOf (.drain room) = some p'.world := by
  have order := fan.order
  simp only [Pipeline.serializerStep] at stepped
  split at stepped
  · rename_i room roomy
    obtain ⟨w,moved,same⟩ := Option.map_eq_some_iff.mp stepped
    subst same
    have rest := step_rest sound moved
    have running : p.serializer ≠ .finished := by rw [roomy]; simp
    have most := drain_length p.world.queue (fan.positive room roomy)
    have claimed := fan.room
    rw [roomy] at order claimed
    have drained : w.ledger.drained = p.world.ledger.drained ++ (p.world.queue.drainBatches room).1 := by
      cases moved
      rfl
    refine ⟨⟨rfl,rfl,rfl,rfl,rfl,rfl,rest.clock⟩,⟨?_,?_,?_,fan.plain,?_,clear_running running fan.clear rfl rfl⟩,?_,
      room,moved⟩
    · simp only [Serializer.carried,List.append_nil] at order
      simp only [drained,List.map_append,← order,List.append_assoc]
      split <;> simp_all [Serializer.carried]
    · simp only [Serializer.claimed] at claimed
      by_cases none : (p.world.queue.drainBatches room).1.map (·.2) = []
      · simp only [none,if_true,Serializer.claimed]
        omega
      · simp only [none,if_false,Serializer.claimed,List.length_map]
        omega
    · intro other same
      dsimp only at same
      split at same <;> cases same
    · dsimp only
      split <;> simp
    · dsimp only
      split <;> simp
  · cases stepped

theorem isClosed_fan (fan : Fan p) (stepped : p.serializerStep tidOf .isClosed = some p') :
    WriterSide p p' ∧ p'.world = p.world ∧ Fan p' ∧
      (p'.serializer = .finished → p.world.queue.closed = true ∧ p.serializer ≠ .finished) := by
  have order := fan.order
  have claimed := fan.room
  simp only [Pipeline.serializerStep] at stepped
  split at stepped
  · rename_i emptied
    cases stepped
    rw [emptied] at order claimed
    have running : p.serializer ≠ .finished := by rw [emptied]; simp
    refine ⟨⟨rfl,rfl,rfl,rfl,rfl,rfl,rfl⟩,rfl,⟨?_,?_,?_,fan.plain,?_,clear_running running fan.clear rfl rfl⟩,?_⟩
    · dsimp only
      split <;> exact order
    · dsimp only
      split <;> exact claimed
    · intro room same
      dsimp only at same
      split at same <;> cases same
    · dsimp only
      split <;> simp
    · intro finished
      dsimp only at finished
      split at finished
      · rename_i closed
        exact ⟨closed,running⟩
      · cases finished
  · cases stepped

theorem fanIn_fan (fan : Fan p) (stepped : p.serializerStep tidOf .fanIn = some p') :
    WriterSide p p' ∧ p'.world = p.world ∧ Fan p' ∧ p'.serializer ≠ .finished := by
  have order := fan.order
  have claimed := fan.room
  simp only [Pipeline.serializerStep] at stepped
  split at stepped
  · rename_i pushing
    cases stepped
    rw [pushing] at order claimed
    have running : p.serializer ≠ .finished := by rw [pushing]; simp
    exact ⟨⟨rfl,rfl,rfl,rfl,rfl,rfl,rfl⟩,rfl,⟨order,claimed,by simp,fan.plain,by simp,
      clear_running running fan.clear rfl rfl⟩,by simp⟩
  · rename_i batch batches pushing
    rw [pushing] at order claimed
    have running : p.serializer ≠ .finished := by rw [pushing]; simp
    simp only [Serializer.claimed,List.length_cons] at claimed
    -- the room was counted before the drain, and only this side pushes
    rw [if_pos (by omega)] at stepped
    cases stepped
    refine ⟨⟨rfl,rfl,rfl,rfl,rfl,rfl,rfl⟩,rfl,⟨?_,?_,by simp,fan.plain,by simp,
      clear_running running fan.clear rfl rfl⟩,by simp⟩
    · simpa [Serializer.carried] using order
    · simp only [List.length_append,List.length_singleton,Serializer.claimed]
      omega
  · cases stepped

end Serializing

section Writing

variable {p p' : Pipeline T}

theorem fan_sized (sound : Sound tidOf p.world) (fan : Fan p) {b : EventBatch}
    (inside : b ∈ p.ring.batches ++ p.fanin) : b.capacity = batchN := by
  have member : b ∈ p.world.ledger.drained.map (·.2) := by
    rw [← fan.order]
    rcases List.mem_append.mp inside with here | here <;> simp [here]
  obtain ⟨x,present,rfl⟩ := List.mem_map.mp member
  exact (drained_shape sound x present).2

theorem fan_take {batch : EventBatch} {rest : List EventBatch} (sound : Sound tidOf p.world) (fan : Fan p)
    (head : p.fanin = batch :: rest) (few : p.ring.batches.length < faninBatches) (writer : Writer)
    (clear : (p.ring.push batch).batches = p.ring.batches ++ [batch] →
      writer.Clear {p with fanin := rest,ring := p.ring.push batch,writer := writer}) :
    Fan {p with fanin := rest,ring := p.ring.push batch,writer := writer} := by
  have sized : ∀ b ∈ p.ring.batches ++ [batch], b.capacity = batchN := fun b inside => by
    refine fan_sized sound fan (List.mem_append.mpr ?_)
    rcases List.mem_append.mp inside with here | here
    · exact .inl here
    · exact .inr (head ▸ List.mem_singleton.mp here ▸ List.mem_cons_self)
  obtain ⟨grown,plain⟩ := plain_push fan.plain sized few
  refine ⟨?_,?_,fan.positive,plain,fan.calm,clear grown⟩
  · have order := fan.order
    rw [head] at order
    simpa [grown] using order
  · have room := fan.room
    rw [head,List.length_cons] at room
    dsimp only
    omega

omit [DecidableEq T] in
theorem fan_writer (fan : Fan p) (writer : Writer) (clear : writer.Clear {p with writer := writer}) :
    Fan {p with writer := writer} := ⟨fan.order,fan.room,fan.positive,fan.plain,fan.calm,clear⟩

omit [DecidableEq T] in
theorem write_fan {ok : Bool} (fan : Fan p) (stepped : p.writerStep (.write ok) = some p') : Fan p' := by
  have clear := fan.clear
  simp only [Pipeline.writerStep] at stepped
  split at stepped
  · rename_i last writing
    rw [writing] at clear
    split at stepped
    · rename_i empty
      cases stepped
      apply fan_writer fan
      cases last with
      | false => exact pop_empty empty
      | true => exact ⟨clear.1,clear.2,pop_empty empty⟩
    · rename_i batch ring popped
      cases stepped
      obtain ⟨shape,plain⟩ := plain_pop fan.plain popped
      have order := fan.order
      rw [shape] at order
      refine ⟨by simpa using order,fan.room,fan.positive,plain,fan.calm,?_⟩
      cases ok with
      | false => trivial
      | true =>
        cases last with
        | false =>
          have few : (batch :: ring.batches).length ≤ 1 := shape ▸ clear
          exact Nat.le_trans (Nat.le_succ _) few
        | true => exact clear
  · cases stepped

theorem writer_fan (act : PipeAct T) (sound : Sound tidOf p.world) (fan : Fan p)
    (stepped : p.writerStep act = some p') : Fan p' := by
  have clear := fan.clear
  cases act with
  | pop =>
    simp only [Pipeline.writerStep] at stepped
    split at stepped
    · rename_i popping _
      rw [popping] at clear
      cases stepped
      exact fan_writer fan _ clear
    · rename_i batch rest popping head
      rw [popping] at clear
      have empty : p.ring.batches = [] := clear
      cases stepped
      refine fan_take sound fan head (by rw [empty]; decide) _ fun grown => ?_
      simp [Writer.Clear,grown,empty]
    · cases stepped
  | write ok => exact write_fan fan stepped
  | isFinished =>
    simp only [Pipeline.writerStep] at stepped
    split at stepped
    · rename_i waiting
      rw [waiting] at clear
      split at stepped
      · rename_i finished
        cases stepped
        apply fan_writer fan
        refine ⟨finished,?_⟩
        have empty : p.ring.batches = [] := clear
        have room := fan.room
        simp only [empty,List.length_nil]
        omega
      · rename_i panicked
        exact absurd panicked fan.calm
      · cases stepped
        exact fan_writer fan _ clear
    · cases stepped
  | collect =>
    simp only [Pipeline.writerStep] at stepped
    split at stepped
    · rename_i collecting none
      rw [collecting] at clear
      cases stepped
      exact fan_writer fan _ ⟨clear.1,none⟩
    · rename_i batch rest collecting head
      rw [collecting] at clear
      obtain ⟨finished,few⟩ := clear
      rw [head,List.length_cons] at few
      cases stepped
      refine fan_take sound fan head (by omega) _ fun grown => ?_
      rw [collecting]
      refine ⟨finished,?_⟩
      simp only [grown,List.length_append,List.length_singleton]
      omega
    · cases stepped
  | finish ok =>
    simp only [Pipeline.writerStep] at stepped
    split at stepped
    · rename_i joining finished
      rw [joining] at clear
      cases stepped
      refine ⟨fan.order,fan.room,fan.positive,fan.plain,fan.calm,?_⟩
      cases ok with
      | false => trivial
      | true => exact clear
    · rename_i panicked
      exact absurd panicked fan.calm
    · cases stepped
  | _ => cases stepped

omit [DecidableEq T] in
theorem writer_keeps (act : PipeAct T) (stepped : p.writerStep act = some p') :
    p'.world = p.world ∧ p'.ender = p.ender ∧ p'.serializer = p.serializer ∧ ∀ ok, p.writer ≠ .returned ok := by
  cases act with
  | pop => grind [Pipeline.writerStep]
  | write ok => grind [Pipeline.writerStep]
  | isFinished => grind [Pipeline.writerStep]
  | collect => grind [Pipeline.writerStep]
  | finish ok => grind [Pipeline.writerStep]
  | _ => cases stepped

end Writing

omit [DecidableEq T] in
theorem initial_fan (id : Nat) (clock : Clock) : Fan (Pipeline.initial (T := T) id clock) :=
  ⟨rfl,Nat.zero_le _,by simp [Pipeline.initial],⟨rfl,rfl⟩,by simp [Pipeline.initial],rfl⟩

end Trace0
