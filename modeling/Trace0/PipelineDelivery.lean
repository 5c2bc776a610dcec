import Trace0.Pipeline

namespace Trace0

variable {T : Type} [DecidableEq T] {tidOf : T → UInt32} {w w' : World T} {t u : T}

-- No thread has left or ever does: nothing is lost behind the counter's back.
def Staying (w : World T) : Prop := (∀ t, (w.stage t).gone = false) ∧ w.ledger.exitLost = 0

theorem step_staying {a : Act T} (sound : Sound tidOf w) (staying : Staying w)
    (stepped : w.step tidOf a = some w') (remains : ∀ t, a ≠ .leave t) : Staying w' := by
  obtain ⟨here,present⟩ := staying
  refine ⟨fun t => (step_moves sound stepped t).here (remains t) (here t),?_⟩
  refine ((step_rest sound stepped).exitLost fun t full hands stage => ?_).trans present
  have inside := here t
  rw [stage] at inside
  cases inside

theorem ender_staying {ender : Ender T} {act : EndAct} {next : World T × Ender T}
    (sound : Sound tidOf w) (staying : Staying w)
    (stepped : ender.step tidOf w act = some next) : Staying next.1 := by
  unfold Ender.step at stepped
  split at stepped
  · cases stepped
    exact staying
  · rename_i t rest inside lost
    obtain ⟨a,called,stepped⟩ := Option.bind_eq_some_iff.mp stepped
    obtain ⟨w',moved,same⟩ := Option.bind_eq_some_iff.mp stepped
    cases Option.some.inj same
    refine step_staying sound staying moved ?_
    cases inside with
    | false => cases Option.some.inj called; simp
    | true => exact (flushAct_thread called).2.1
  · split at stepped
    · cases stepped
      exact staying
    · cases stepped
  · obtain ⟨w',moved,same⟩ := Option.map_eq_some_iff.mp stepped
    subst same
    exact step_staying sound staying moved (by simp)
  · obtain ⟨w',moved,same⟩ := Option.map_eq_some_iff.mp stepped
    subst same
    exact step_staying sound staying moved (by simp)
  · cases stepped

structure Held (tidOf : T → UInt32) (p : Pipeline T) : Prop extends
    EndSound tidOf p.world p.ender where
  staying : Staying p.world

def Writer.Phase (p : Pipeline T) : Writer → Prop
  | .popping | .waiting => p.ring.batches = []
  | .writing false => p.ring.batches.length ≤ 1
  | .collecting => p.serializer = .finished ∧ p.ring.batches.length + p.fanin.length ≤ faninBatches
  | .writing true => p.serializer = .finished ∧ p.fanin = []
  | .joining => p.serializer = .finished ∧ p.fanin = [] ∧ p.ring.batches = []
  | .returned true => p.serializer = .finished ∧ p.fanin = [] ∧ p.ring.batches = [] ∧
      p.finish = some (rejectedEvents p.world.ledger.shipped)
  | .returned false => True

structure Flow (p : Pipeline T) : Prop where
  order : p.exported ++ (p.ring.batches ++ (p.fanin ++ p.serializer.carried)) =
    p.world.ledger.drained.map (·.2)
  decoded : p.written = p.exported.map (·.decodeInto p.world.queue.clock)
  room : p.fanin.length + p.serializer.claimed ≤ faninBatches
  positive : ∀ room, p.serializer = .roomy room → 0 < room
  plain : PlainRing p.ring
  calm : p.serializer ≠ .panicked
  phase : p.writer.Phase p
  stopped : p.serializer = .finished → p.writer = .returned false ∨
    p.ender = .closed ∧ ∀ t, p.world.queue.held t = []

omit [DecidableEq T] in
theorem clear_phase {p : Pipeline T} {writer : Writer} (clear : writer.Clear p)
    (told : writer = .returned true → p.finish = some (rejectedEvents p.world.ledger.shipped)) : writer.Phase p := by
  cases writer with
  | writing last => cases last <;> exact clear
  | returned ok =>
    cases ok with
    | false => trivial
    | true => exact ⟨clear.1,clear.2.1,clear.2.2,told rfl⟩
  | _ => exact clear

omit [DecidableEq T] in
theorem phase_clear {p : Pipeline T} {writer : Writer} (phase : writer.Phase p) : writer.Clear p := by
  cases writer with
  | writing last => cases last <;> exact phase
  | returned ok =>
    cases ok with
    | false => trivial
    | true => exact ⟨phase.1,phase.2.1,phase.2.2.1⟩
  | _ => exact phase

theorem Flow.fan {p : Pipeline T} (flow : Flow p) : Fan p :=
  ⟨flow.order,flow.room,flow.positive,flow.plain,flow.calm,phase_clear flow.phase⟩

theorem Flow.told {p : Pipeline T} (flow : Flow p) (returned : p.writer = .returned true) :
    p.finish = some (rejectedEvents p.world.ledger.shipped) := by
  have phase := flow.phase
  rw [returned] at phase
  exact phase.2.2.2

theorem Fan.flow {p : Pipeline T} (fan : Fan p)
    (decoded : p.written = p.exported.map (·.decodeInto p.world.queue.clock))
    (told : p.writer = .returned true → p.finish = some (rejectedEvents p.world.ledger.shipped))
    (stopped : p.serializer = .finished → p.writer = .returned false ∨
      p.ender = .closed ∧ ∀ t, p.world.queue.held t = []) : Flow p :=
  ⟨fan.order,decoded,fan.room,fan.positive,fan.plain,fan.calm,clear_phase fan.clear told,stopped⟩

theorem flow_world {p : Pipeline T} {w' : World T} (flow : Flow p) (ender : Ender T)
    (open_ : p.ender ≠ .closed) (drained : w'.ledger.drained = p.world.ledger.drained)
    (clock : w'.queue.clock = p.world.queue.clock) :
    Flow {p with world := w',ender := ender} := by
  have failed : p.serializer = .finished → p.writer = .returned false := fun finished =>
    (flow.stopped finished).resolve_right fun stopped => open_ stopped.1
  refine (fan_world flow.fan ender drained).flow (by rw [clock]; exact flow.decoded) ?_
    fun finished => .inl (failed finished)
  intro returned
  have returned : p.writer = .returned true := returned
  have phase := flow.phase
  rw [returned] at phase
  have contradiction := (failed phase.1).symm.trans returned
  cases contradiction

theorem end_step {p p' : Pipeline T} {act : EndAct} (held : Held tidOf p) (flow : Flow p)
    (stepped : p.step tidOf (.ender act) = some p') : Held tidOf p' ∧ Flow p' := by
  obtain ⟨next,moved,same⟩ := Option.map_eq_some_iff.mp stepped
  subst same
  obtain ⟨sound,open_,drained,clock⟩ := ender_step held.toEndSound moved
  exact ⟨⟨sound,ender_staying held.sound held.staying moved⟩,
    flow_world flow next.2 open_ drained clock⟩

-- The serializer leaves its loop for a closed queue with nothing left in any ring.
def LeavesEmpty (p : Pipeline T) : PipeAct T → Prop
  | .isClosed => p.world.queue.closed = true → ∀ t, p.world.queue.held t = []
  | _ => True

theorem flow_serializer {p p' : Pipeline T} (flow : Flow p) (side : WriterSide p p') (fan : Fan p')
    (shipped : p'.world.ledger.shipped = p.world.ledger.shipped)
    (stopped : p'.serializer = .finished → p'.writer = .returned false ∨
      p'.ender = .closed ∧ ∀ t, p'.world.queue.held t = []) : Flow p' := by
  refine fan.flow ?_ ?_ stopped
  · rw [side.written,side.exported,side.clock]
    exact flow.decoded
  · intro returned
    rw [side.finish,shipped]
    exact flow.told (side.writer.symm.trans returned)

theorem room_step {p p' : Pipeline T} (flow : Flow p)
    (stepped : p.serializerStep tidOf .room = some p') :
    p'.world = p.world ∧ p'.ender = p.ender ∧ Flow p' := by
  obtain ⟨side,world,fan,stops⟩ := room_fan flow.fan stepped
  refine ⟨world,side.ender,flow_serializer flow side fan (by rw [world]) fun finished => ?_⟩
  obtain ⟨ok,writer,running⟩ := stops finished
  cases ok with
  | false => exact .inl (side.writer.trans writer)
  | true =>
    have phase := flow.phase
    rw [writer] at phase
    exact absurd phase.1 running

theorem drain_step {p p' : Pipeline T} (sound : Held tidOf p) (flow : Flow p)
    (stepped : p.serializerStep tidOf .drain = some p') : Held tidOf p' ∧ Flow p' := by
  obtain ⟨side,fan,running,room,moved⟩ := drain_fan sound.sound flow.fan stepped
  refine ⟨⟨?_,step_staying sound.sound sound.staying moved (by simp)⟩,?_⟩
  · rw [side.ender]
    exact end_drain sound.toEndSound moved
  · refine flow_serializer flow side fan ?_ fun finished => absurd finished running
    exact congrArg (·.ledger.shipped) (Option.some.inj moved).symm

theorem isClosed_step {p p' : Pipeline T} (sound : Held tidOf p) (flow : Flow p)
    (met : LeavesEmpty p .isClosed) (stepped : p.serializerStep tidOf .isClosed = some p') :
    p'.world = p.world ∧ p'.ender = p.ender ∧ Flow p' := by
  obtain ⟨side,world,fan,stops⟩ := isClosed_fan flow.fan stepped
  refine ⟨world,side.ender,flow_serializer flow side fan (by rw [world]) fun finished => .inr ?_⟩
  obtain ⟨closed,_⟩ := stops finished
  rw [side.ender,world]
  exact ⟨sound.closed.mp closed,met closed⟩

theorem fanIn_step {p p' : Pipeline T} (flow : Flow p)
    (stepped : p.serializerStep tidOf .fanIn = some p') :
    p'.world = p.world ∧ p'.ender = p.ender ∧ Flow p' := by
  obtain ⟨side,world,fan,running⟩ := fanIn_fan flow.fan stepped
  exact ⟨world,side.ender,flow_serializer flow side fan (by rw [world]) fun finished => absurd finished running⟩

theorem finish_dropped (sound : EndSound tidOf w .closed) (staying : Staying w) :
    w.queue.dropped = rejectedEvents w.ledger.shipped := by
  have balance := sound.sound.balance
  have recorded := sound.quiet.1
  have present := staying.2
  omega

omit [DecidableEq T] in
theorem writer_decoded {p p' : Pipeline T} (act : PipeAct T)
    (decoded : p.written = p.exported.map (·.decodeInto p.world.queue.clock))
    (stepped : p.writerStep act = some p') : p'.written = p'.exported.map (·.decodeInto p'.world.queue.clock) := by
  cases act with
  | pop => grind [Pipeline.writerStep]
  | write ok =>
    simp only [Pipeline.writerStep] at stepped
    split at stepped
    · split at stepped
      · cases stepped
        exact decoded
      · cases stepped
        simp [decoded]
    · cases stepped
  | isFinished => grind [Pipeline.writerStep]
  | collect => grind [Pipeline.writerStep]
  | finish ok => grind [Pipeline.writerStep]
  | _ => cases stepped

omit [DecidableEq T] in
theorem writer_told {p p' : Pipeline T} (act : PipeAct T) (stepped : p.writerStep act = some p')
    (returned : p'.writer = .returned true) :
    p.serializer = .finished ∧ p.writer = .joining ∧ p'.finish = some p.world.queue.dropped ∨
      p.serializer = .panicked := by
  cases act with
  | pop => grind [Pipeline.writerStep]
  | write ok => grind [Pipeline.writerStep]
  | isFinished => grind [Pipeline.writerStep]
  | collect => grind [Pipeline.writerStep]
  | finish ok => grind [Pipeline.writerStep]
  | _ => cases stepped

theorem writer_step {p p' : Pipeline T} (act : PipeAct T) (sound : Held tidOf p)
    (flow : Flow p) (stepped : p.writerStep act = some p') :
    p'.world = p.world ∧ p'.ender = p.ender ∧ Flow p' := by
  obtain ⟨world,ender,serializer,going⟩ := writer_keeps act stepped
  have stopped (finished : p.serializer = .finished) : p.ender = .closed ∧ ∀ t, p.world.queue.held t = [] :=
    (flow.stopped finished).resolve_left (going false)
  refine ⟨world,ender,(writer_fan act sound.sound flow.fan stepped).flow (writer_decoded act flow.decoded stepped) ?_ ?_⟩
  · intro returned
    obtain ⟨finished,_,told⟩ := (writer_told act stepped returned).resolve_right flow.calm
    have closed := sound.toEndSound
    rw [(stopped finished).1] at closed
    rw [told,world]
    exact congrArg some (finish_dropped closed sound.staying)
  · rw [serializer,ender,world]
    exact fun finished => .inr (stopped finished)

theorem pipeline_step {p p' : Pipeline T} {act : PipeAct T} (held : Held tidOf p) (flow : Flow p)
    (met : LeavesEmpty p act) (stepped : p.step tidOf act = some p') : Held tidOf p' ∧ Flow p' := by
  have kept (same : p'.world = p.world ∧ p'.ender = p.ender ∧ Flow p') : Held tidOf p' ∧ Flow p' := by
    obtain ⟨world,ender,flow'⟩ := same
    exact ⟨⟨by rw [world,ender]; exact held.toEndSound,by rw [world]; exact held.staying⟩,flow'⟩
  cases act with
  | thread a =>
    obtain ⟨t,own,stepped⟩ := Option.bind_eq_some_iff.mp stepped
    split at stepped
    · rename_i admitted
      obtain ⟨w,moved,same⟩ := Option.map_eq_some_iff.mp stepped
      subst same
      have rest := step_rest held.sound moved
      obtain ⟨_,remains,_,_,_,undrained,_⟩ := recordedBy_thread own
      have open_ : p.ender ≠ .closed := fun closed => by simp [closed,Ender.admits] at admitted
      exact ⟨⟨end_record held.toEndSound own admitted moved,
        step_staying held.sound held.staying moved remains⟩,
        flow_world flow p.ender open_ (rest.drained undrained) rest.clock⟩
    · cases stepped
  | ender act => exact end_step held flow stepped
  | room =>
    have stepped : p.serializerStep tidOf .room = some p' := stepped
    exact kept (room_step flow stepped)
  | drain => exact drain_step held flow stepped
  | isClosed => exact kept (isClosed_step held flow met stepped)
  | fanIn =>
    have stepped : p.serializerStep tidOf .fanIn = some p' := stepped
    exact kept (fanIn_step flow stepped)
  | pop => exact kept (writer_step .pop held flow stepped)
  | write ok => exact kept (writer_step (.write ok) held flow stepped)
  | isFinished => exact kept (writer_step .isFinished held flow stepped)
  | collect => exact kept (writer_step .collect held flow stepped)
  | finish ok => exact kept (writer_step (.finish ok) held flow stepped)

theorem initial_held (id : Nat) (clock : Clock) : Held tidOf (Pipeline.initial (T := T) id clock) :=
  ⟨initial_end id clock,⟨fun _ => rfl,rfl⟩⟩

theorem initial_flow (id : Nat) (clock : Clock) : Flow (Pipeline.initial (T := T) id clock) :=
  ⟨rfl,rfl,Nat.zero_le _,by simp [Pipeline.initial],⟨rfl,rfl⟩,by simp [Pipeline.initial],rfl,
    by simp [Pipeline.initial]⟩

-- Every event pushed stands in the order it was pushed in a batch that was offered to a
-- ring; the accepted ones were each given to `write_batch` once, in one order that keeps
-- each thread's; the exporter is told the number of events in the rest.
structure Delivered (p : Pipeline T) : Prop where
  pushes : ∀ t, handed (ownedBy t p.world.ledger.shipped) = ownedBy t p.world.ledger.pushed
  accepted : ∀ t, acceptedOf (ownedBy t p.world.ledger.shipped) = ownedBy t p.world.ledger.drained
  exported : p.exported = p.world.ledger.drained.map (·.2)
  written : p.written = p.exported.map (·.decodeInto p.world.queue.clock)
  finish : p.finish = some (rejectedEvents p.world.ledger.shipped)

theorem flow_delivered {p : Pipeline T} (held : Held tidOf p) (flow : Flow p)
    (returned : p.writer = .returned true) : Delivered p := by
  have phase := flow.phase
  rw [returned] at phase
  obtain ⟨finished,drained,emptied,told⟩ := phase
  obtain ⟨closed,nothing⟩ := (flow.stopped finished).resolve_left (by rw [returned]; simp)
  have sound := held.toEndSound
  rw [closed] at sound
  refine ⟨fun t => ?_,fun t => ?_,?_,flow.decoded,told⟩
  · obtain ⟨idle,written⟩ := (sound.quiet.2 t).resolve_right (by simp [held.staying.1 t])
    have told := (sound.sound.threads t).told
    simp only [World.view,View.inHand,idle] at told
    rw [← told,written,List.append_nil]
  · have kept : acceptedOf (ownedBy t p.world.ledger.shipped) =
        ownedBy t p.world.ledger.drained ++ p.world.queue.held t := (sound.sound.threads t).kept
    rw [kept,nothing t,List.append_nil]
  · have order := flow.order
    rw [drained,emptied,finished] at order
    simpa [Serializer.carried] using order

theorem pipeline_delivers (tidOf : T → UInt32) (id : Nat) (clock : Clock) {acts : List (PipeAct T)}
    {p : Pipeline T}
    (run : Machine.Runs (Pipeline.step tidOf) LeavesEmpty (.initial id clock) acts p)
    (returned : p.writer = .returned true) : Delivered p := by
  obtain ⟨held,flow⟩ := run.invariant (I := fun p => Held tidOf p ∧ Flow p)
    ⟨initial_held id clock,initial_flow id clock⟩
    fun m act m' kept met stepped => pipeline_step kept.1 kept.2 met stepped
  exact flow_delivered held flow returned

def recorded : List (PipeAct Unit) :=
  [.thread (.push () 1 100 7 .Begin),.thread (.arm ()),.thread (.write ())]

def ended : List (PipeAct Unit) :=
  [.ender .flushAll,.ender .flush,.ender .flush,.ender .flush,.ender .flush,.ender .next,
    .ender .recordLost,.ender .close]

def serialized : List (PipeAct Unit) :=
  [.room,.drain,.fanIn,.fanIn,.room,.drain,.isClosed]

def exporting : List (PipeAct Unit) :=
  [.pop,.write true,.write true,.pop,.isFinished,.collect,.write true,.finish true]

def testsEmpty (p : Pipeline Unit) : PipeAct Unit → Bool
  | .isClosed => !p.world.queue.closed || (p.world.queue.held ()).isEmpty
  | _ => true

theorem pipeline_delivers_one : ∃ p : Pipeline Unit, p.exported.length = 1 ∧ Delivered p := by
  have ran : (Machine.checkedRun (Pipeline.step fun _ => 1) testsEmpty (.initial 1 .mock)
      (recorded ++ ended ++ serialized ++ exporting)).map (fun p => (p.writer,p.exported.length)) =
        some (.returned true,1) := by decide
  obtain ⟨p,run,facts⟩ := Option.map_eq_some_iff.mp ran
  simp only [Prod.mk.injEq] at facts
  refine ⟨p,facts.2,pipeline_delivers (fun _ => 1) 1 .mock
    (Machine.runs_of_checked (fun p act checked => ?_) run) facts.1⟩
  cases act with
  | isClosed =>
    intro closed t
    simpa [testsEmpty,closed] using checked
  | _ => trivial

-- The serializer drains nothing, the thread's batch is flushed and the queue closed, and the
-- serializer finds it closed.
theorem flushed_before_the_check_is_lost : ∃ p : Pipeline Unit,
    Machine.run (Pipeline.step fun _ => 1) (.initial 1 .mock)
      (recorded ++ [.room,.drain] ++ ended ++ [.isClosed,.pop,.isFinished,.collect,.write true,
        .finish true]) = some p ∧
    p.writer = .returned true ∧ p.world.ledger.pushed.length = 1 ∧ p.written = [] ∧
    p.finish = some 0 ∧ ¬Delivered p := by
  have ran : (Machine.run (Pipeline.step fun _ => 1) (.initial 1 .mock)
      (recorded ++ [.room,.drain] ++ ended ++ [.isClosed,.pop,.isFinished,.collect,.write true,
        .finish true])).map (fun p => (p.writer,p.world.ledger.pushed.length,p.written,p.finish,
          (acceptedOf (ownedBy () p.world.ledger.shipped)).length,
          (ownedBy () p.world.ledger.drained).length)) =
      some (.returned true,1,[],some 0,1,0) := by rfl
  obtain ⟨p,run,facts⟩ := Option.map_eq_some_iff.mp ran
  simp only [Prod.mk.injEq] at facts
  obtain ⟨returned,pushed,written,finish,accepted,drained⟩ := facts
  refine ⟨p,run,returned,pushed,written,finish,fun delivered => ?_⟩
  have same := congrArg List.length (delivered.accepted ())
  rw [accepted,drained] at same
  cases same

end Trace0
