import Trace0.Pipeline

namespace Trace0

inductive ExporterCall where
  | write (batch : EventBatch) (ok : Bool)
  | finish (dropped : Nat) (ok : Bool)

def ExporterCall.batch? : ExporterCall → Option EventBatch
  | write batch _ => some batch
  | finish _ _ => none

-- Anything the recording threads and the ending do goes on beside the two threads.
inductive FanAct (T : Type) where
  | recording (a : Act T)
  | serializer (a : PipeAct T)
  | writer (a : PipeAct T)

structure FanRun (T : Type) where
  pipeline : Pipeline T
  calls : List ExporterCall

variable {T : Type} [DecidableEq T] {tidOf : T → UInt32}

namespace Pipeline

def exporterCalls (p : Pipeline T) : PipeAct T → List ExporterCall
  | .write ok =>
    match p.writer,p.ring.pop with
    | .writing _,some (batch,_) => [.write batch ok]
    | _,_ => []
  | .finish ok =>
    match p.writer,p.serializer with
    | .joining,.finished => [.finish p.world.queue.dropped ok]
    | _,_ => []
  | _ => []

end Pipeline

namespace FanRun

def initial (id : Nat) (clock : Clock) : FanRun T := ⟨.initial id clock,[]⟩

def step (tidOf : T → UInt32) (s : FanRun T) : FanAct T → Option (FanRun T)
  | .recording (.drain _) => none
  | .recording a => (s.pipeline.world.step tidOf a).map fun w => {s with pipeline := {s.pipeline with world := w}}
  | .serializer a => (s.pipeline.serializerStep tidOf a).map fun p => {s with pipeline := p}
  | .writer a => (s.pipeline.writerStep a).map fun p => ⟨p,s.calls ++ s.pipeline.exporterCalls a⟩

def written (s : FanRun T) : List EventBatch := s.calls.filterMap ExporterCall.batch?

def wrote (batches : List EventBatch) : List ExporterCall := batches.map (.write · true)

-- What the exporter has been called for, by where the writer stands.
def Told (exported : List EventBatch) (calls : List ExporterCall) : Writer → Prop
  | .returned true => ∃ dropped, calls = wrote exported ++ [.finish dropped true]
  | .returned false => (∃ front last, exported = front ++ [last] ∧ calls = wrote front ++ [.write last false]) ∨
      ∃ dropped, calls = wrote exported ++ [.finish dropped false]
  | _ => calls = wrote exported

structure Sound (tidOf : T → UInt32) (s : FanRun T) : Prop where
  world : Trace0.Sound tidOf s.pipeline.world
  fan : Fan s.pipeline
  told : Told s.pipeline.exported s.calls s.pipeline.writer

variable {s s' : FanRun T}

omit [DecidableEq T] in
theorem told_writer {p p' : Pipeline T} {calls : List ExporterCall} (act : PipeAct T) (calm : p.serializer ≠ .panicked)
    (told : Told p.exported calls p.writer) (stepped : p.writerStep act = some p') :
    Told p'.exported (calls ++ p.exporterCalls act) p'.writer := by
  cases act with
  | pop =>
    simp only [Pipeline.writerStep] at stepped
    split at stepped
    · rename_i popping _
      rw [popping] at told
      cases stepped
      exact (List.append_nil _).trans told
    · rename_i popping _
      rw [popping] at told
      cases stepped
      exact (List.append_nil _).trans told
    · cases stepped
  | write ok =>
    simp only [Pipeline.writerStep] at stepped
    split at stepped
    · rename_i last writing
      rw [writing] at told
      have told : calls = wrote p.exported := told
      split at stepped
      · rename_i empty
        cases stepped
        simp only [Pipeline.exporterCalls,writing,empty,List.append_nil]
        cases last <;> exact told
      · rename_i batch ring popped
        cases stepped
        simp only [Pipeline.exporterCalls,writing,popped]
        cases ok with
        | false => exact .inl ⟨p.exported,batch,rfl,by rw [told]⟩
        | true =>
          show calls ++ [ExporterCall.write batch true] = wrote (p.exported ++ [batch])
          rw [told,wrote,wrote,List.map_append,List.map_singleton]
    · cases stepped
  | isFinished =>
    simp only [Pipeline.writerStep] at stepped
    split at stepped
    · rename_i waiting
      rw [waiting] at told
      split at stepped <;> cases stepped <;> exact (List.append_nil _).trans told
    · cases stepped
  | collect =>
    simp only [Pipeline.writerStep] at stepped
    split at stepped
    · rename_i collecting _
      rw [collecting] at told
      cases stepped
      exact (List.append_nil _).trans told
    · rename_i collecting _
      cases stepped
      rw [collecting] at told ⊢
      exact (List.append_nil _).trans told
    · cases stepped
  | finish ok =>
    simp only [Pipeline.writerStep] at stepped
    split at stepped
    · rename_i joining finished
      rw [joining] at told
      have told : calls = wrote p.exported := told
      cases stepped
      simp only [Pipeline.exporterCalls,joining,finished]
      cases ok with
      | false => exact .inr ⟨p.world.queue.dropped,by rw [told]⟩
      | true => exact ⟨p.world.queue.dropped,by rw [told]⟩
    · rename_i panicked
      exact absurd panicked calm
    · cases stepped
  | _ => cases stepped

theorem serializer_sound {p : Pipeline T} {a : PipeAct T} (sound : s.Sound tidOf)
    (stepped : s.pipeline.serializerStep tidOf a = some p) :
    Sound tidOf {s with pipeline := p} ∧ p.writer = s.pipeline.writer := by
  have kept (side : WriterSide s.pipeline p) (world : Trace0.Sound tidOf p.world) (fan : Fan p) :
      Sound tidOf {s with pipeline := p} ∧ p.writer = s.pipeline.writer := by
    refine ⟨⟨world,fan,?_⟩,side.writer⟩
    dsimp only
    rw [side.exported,side.writer]
    exact sound.told
  cases a with
  | room =>
    obtain ⟨side,world,fan,_⟩ := room_fan sound.fan stepped
    exact kept side (world ▸ sound.world) fan
  | drain =>
    obtain ⟨side,fan,_,_,moved⟩ := drain_fan sound.world sound.fan stepped
    exact kept side (step_sound sound.world moved) fan
  | isClosed =>
    obtain ⟨side,world,fan,_⟩ := isClosed_fan sound.fan stepped
    exact kept side (world ▸ sound.world) fan
  | fanIn =>
    obtain ⟨side,world,fan,_⟩ := fanIn_fan sound.fan stepped
    exact kept side (world ▸ sound.world) fan
  | _ => cases stepped

theorem step_fan (sound : s.Sound tidOf) (act : FanAct T) (stepped : s.step tidOf act = some s') :
    s'.Sound tidOf ∧ ∀ ok, s.pipeline.writer = .returned ok → s'.pipeline.writer = .returned ok := by
  cases act with
  | recording a =>
    have undrained : ∀ limit, a ≠ .drain limit := by
      rintro limit rfl
      cases stepped
    have mapped : (s.pipeline.world.step tidOf a).map (fun w => {s with pipeline := {s.pipeline with world := w}}) =
        some s' := by
      cases a with
      | drain limit => exact absurd rfl (undrained limit)
      | _ => exact stepped
    obtain ⟨w,moved,same⟩ := Option.map_eq_some_iff.mp mapped
    subst same
    have rest := step_rest sound.world moved
    exact ⟨⟨step_sound sound.world moved,fan_world sound.fan s.pipeline.ender (rest.drained undrained),sound.told⟩,
      fun _ same => same⟩
  | serializer a =>
    obtain ⟨p,moved,rfl⟩ := Option.map_eq_some_iff.mp stepped
    obtain ⟨kept,writer⟩ := serializer_sound sound moved
    exact ⟨kept,fun ok same => writer.trans same⟩
  | writer a =>
    obtain ⟨p,moved,rfl⟩ := Option.map_eq_some_iff.mp stepped
    obtain ⟨world,_,_,going⟩ := writer_keeps a moved
    exact ⟨⟨world ▸ sound.world,writer_fan a sound.world sound.fan moved,told_writer a sound.fan.calm sound.told moved⟩,
      fun ok same => absurd same (going ok)⟩

theorem initial_sound (id : Nat) (clock : Clock) : (initial (T := T) id clock).Sound tidOf :=
  ⟨Trace0.initial_sound id clock,initial_fan id clock,rfl⟩

theorem runs_sound {acts : List (FanAct T)} (sound : s.Sound tidOf)
    (run : Machine.Runs (step tidOf) Machine.anything s acts s') :
    s'.Sound tidOf ∧ ∀ ok, s.pipeline.writer = .returned ok → s'.pipeline.writer = .returned ok := by
  refine run.invariant (I := fun m => m.Sound tidOf ∧ ∀ ok, s.pipeline.writer = .returned ok → m.pipeline.writer = .returned ok)
    ⟨sound,fun _ same => same⟩ ?_
  intro m act m' ⟨kept,returned⟩ _ stepped
  obtain ⟨next,stays⟩ := step_fan kept act stepped
  exact ⟨next,fun ok same => stays ok (returned ok same)⟩

omit [DecidableEq T] in
theorem told_shape {exported : List EventBatch} {calls : List ExporterCall} {writer : Writer} (told : Told exported calls writer) :
    ∃ front last, calls = wrote front ++ last ∧ calls.filterMap ExporterCall.batch? = exported ∧
      (last = [] ∨ (∃ batch, last = [.write batch false]) ∨ ∃ dropped ok, last = [.finish dropped ok]) := by
  have batches (front : List EventBatch) : (wrote front).filterMap ExporterCall.batch? = front := by
    induction front with
    | nil => rfl
    | cons batch front ih => exact congrArg (batch :: ·) ih
  have going (told : calls = wrote exported) : ∃ front last, calls = wrote front ++ last ∧
      calls.filterMap ExporterCall.batch? = exported ∧
        (last = [] ∨ (∃ batch, last = [.write batch false]) ∨ ∃ dropped ok, last = [.finish dropped ok]) :=
    ⟨exported,[],by rw [told,List.append_nil],by rw [told,batches],.inl rfl⟩
  cases writer with
  | returned ok =>
    cases ok with
    | true =>
      obtain ⟨dropped,rfl⟩ := told
      refine ⟨exported,_,rfl,?_,.inr (.inr ⟨dropped,true,rfl⟩)⟩
      rw [List.filterMap_append,batches]
      exact List.append_nil _
    | false =>
      rcases told with ⟨front,last,rfl,rfl⟩ | ⟨dropped,rfl⟩
      · refine ⟨front,_,rfl,?_,.inr (.inl ⟨last,rfl⟩)⟩
        rw [List.filterMap_append,batches]
        rfl
      · refine ⟨exported,_,rfl,?_,.inr (.inr ⟨dropped,false,rfl⟩)⟩
        rw [List.filterMap_append,batches]
        exact List.append_nil _
  | _ => exact going told

omit [DecidableEq T] in
theorem fan_prefix {p : Pipeline T} (fan : Fan p) : p.exported <+: p.world.ledger.drained.map (·.2) :=
  fan.order ▸ List.prefix_append _ _

omit [DecidableEq T] in
theorem fan_all {p : Pipeline T} (fan : Fan p) (returned : p.writer = .returned true) :
    p.exported = p.world.ledger.drained.map (·.2) := by
  have order := fan.order
  have clear := fan.clear
  rw [returned] at clear
  obtain ⟨finished,emptied,popped⟩ := clear
  rw [finished,emptied,popped] at order
  simpa [Serializer.carried] using order

theorem room_abandoned {ok : Bool} (returned : s.pipeline.writer = .returned ok)
    (stepped : s.step tidOf (.serializer .room) = some s') : s'.pipeline.serializer = .finished := by
  obtain ⟨p,moved,rfl⟩ := Option.map_eq_some_iff.mp stepped
  simp only [Pipeline.serializerStep,returned] at moved
  split at moved
  · cases moved
    rfl
  · cases moved

end FanRun

theorem fan_in_keeps (tidOf : T → UInt32) (id : Nat) (clock : Clock) {acts : List (FanAct T)} {s : FanRun T}
    (run : Machine.Runs (FanRun.step tidOf) Machine.anything (.initial id clock) acts s) :
    let p := s.pipeline
    let obtained := p.world.ledger.drained.map (·.2)
    p.serializer ≠ .panicked ∧
      (∀ batch rest, p.serializer = .pushing (batch :: rest) → p.fanin.length < faninBatches) ∧
      s.written <+: obtained ∧
      (p.writer = .returned true → ∃ dropped, s.calls = FanRun.wrote obtained ++ [.finish dropped true]) ∧
      (∃ front last, s.calls = FanRun.wrote front ++ last ∧
        (last = [] ∨ (∃ batch, last = [.write batch false]) ∨ ∃ dropped ok, last = [.finish dropped ok])) ∧
      ∀ later s', Machine.Runs (FanRun.step tidOf) Machine.anything s later s' → p.writer = .returned false →
        s'.pipeline.writer = .returned false ∧
          ∀ s'', s'.step tidOf (.serializer .room) = some s'' → s''.pipeline.serializer = .finished := by
  intro p obtained
  obtain ⟨sound,_⟩ := FanRun.runs_sound (FanRun.initial_sound id clock) run
  obtain ⟨front,last,calls,written,shape⟩ := FanRun.told_shape sound.told
  refine ⟨sound.fan.calm,?_,?_,?_,⟨front,last,calls,shape⟩,?_⟩
  · intro batch rest pushing
    have room := sound.fan.room
    rw [show s.pipeline.serializer = .pushing (batch :: rest) from pushing] at room
    simp only [Serializer.claimed,List.length_cons] at room
    show s.pipeline.fanin.length < faninBatches
    omega
  · rw [FanRun.written,written]
    exact FanRun.fan_prefix sound.fan
  · intro returned
    have told := sound.told
    rw [show s.pipeline.writer = .returned true from returned] at told
    obtain ⟨dropped,told⟩ := told
    exact ⟨dropped,by rw [told,FanRun.fan_all sound.fan returned]⟩
  · intro later s' onward failed
    have stays := (FanRun.runs_sound sound onward).2 false failed
    exact ⟨stays,fun s'' stepped => FanRun.room_abandoned stays stepped⟩

-- A first write that fails: the batch was written, nothing is finished, and the serializer leaves.
def writeFails : List (FanAct Unit) :=
  [.recording (.push () 1 100 7 .Begin),.recording (.arm ()),.recording (.write ()),.recording (.flush ()),
    .recording (.take ()),.recording (.arm ()),.recording (.handOver ()),.serializer .room,.serializer .drain,
    .serializer .fanIn,.writer .pop,.writer (.write false),.serializer .fanIn]

theorem fan_in_keeps_failed : ∃ s : FanRun Unit,
    Machine.Runs (FanRun.step fun _ => 1) Machine.anything (.initial 1 .mock) writeFails s ∧
      s.written.length = 1 ∧ s.written <+: s.pipeline.world.ledger.drained.map (·.2) ∧
      ∀ s'', s.step (fun _ => 1) (.serializer .room) = some s'' → s''.pipeline.serializer = .finished := by
  have ran : (Machine.checkedRun (FanRun.step fun _ => 1) (fun _ _ => true) (.initial 1 .mock) writeFails).map
      (fun s => (s.pipeline.writer,s.written.length)) = some (.returned false,1) := by decide
  obtain ⟨s,ran,facts⟩ := Option.map_eq_some_iff.mp ran
  simp only [Prod.mk.injEq] at facts
  have run : Machine.Runs (FanRun.step fun _ => 1) Machine.anything (.initial 1 .mock) writeFails s :=
    Machine.runs_of_checked (fun _ _ _ => trivial) ran
  obtain ⟨_,_,front,_,_,stops⟩ := fan_in_keeps (fun _ => 1) 1 .mock run
  exact ⟨s,run,facts.2,front,(stops [] s .nil facts.1).2⟩

end Trace0
