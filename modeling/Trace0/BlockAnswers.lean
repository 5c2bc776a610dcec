import Trace0.BlockStates

namespace Trace0
namespace Blocks

variable {T : Type} [DecidableEq T] {tidOf : T → UInt32} {sinks : Nat → Sinks} {s : Snapshots T}
  {b c : SnapshotBlock} {i j k n : Nat} {run run' : Run T} {d d' : DumpRun T} {channel : Nat} {w : Nat × UInt64}

theorem dumps_sublist (sane : Sane tidOf (sinks k) run) :
    (run.recorder.dumps.map (·.order)).Sublist run.recorder.sent := by
  have tallied := sane.tallied
  rw [← tallied.sent,tallied.dumps]
  refine List.Sublist.append List.filter_sublist ?_
  cases run.recorder.stand with
  | handling order last at_ =>
    cases at_ with
    | dumped path => exact List.sublist_append_left [order] run.recorder.control
    | _ => exact List.nil_sublist _
  | _ => exact List.nil_sublist _

omit [DecidableEq T] in
theorem sent_once {tag : Control → Option Nat} {next : Nat} (apart : Tickets.Apart s.said tag next)
    (here : s.runs[k]? = some run) :
    run.recorder.sent.Pairwise fun x y => ∀ n, tag x.msg = some n → tag y.msg ≠ some n := by
  refine List.pairwise_iff_getElem.mpr ?_
  intro i j first second before n tagged tagged'
  have one := said_of here (List.getElem?_eq_getElem first)
  have two := said_of here (List.getElem?_eq_getElem second)
  have same := apart.once _ _ _ _ n one two tagged tagged'
  exact absurd (congrArg Prod.snd same) (Nat.ne_of_lt before)

theorem acked_dump (sane : Sane tidOf (sinks k) run) {file : String} (acked : (channel,file) ∈ run.recorder.acks) :
    ∃ (n : Nat) (d : DumpRun T), run.recorder.dumps[n]? = some d ∧ d.order.msg.done = some channel ∧ d.path = file := by
  have answered : (channel,file) ∈ run.recorder.dumps.filterMap DumpRun.ack := by
    rw [← sane.tallied.acks]
    exact List.mem_append_left _ acked
  obtain ⟨d,present,ack⟩ := List.mem_filterMap.mp answered
  obtain ⟨n,at_⟩ := List.mem_iff_getElem?.mp present
  obtain ⟨channel',done,same⟩ := Option.map_eq_some_iff.mp ack
  cases same
  exact ⟨n,d,at_,done,rfl⟩

theorem dump_said (sane : Sane tidOf (sinks k) run) (here : s.runs[k]? = some run) (present : d ∈ run.recorder.dumps) :
    s.said (k,d.handled.length) = some d.order.msg := by
  obtain ⟨rest,sent⟩ := sane.behind.finished d present
  refine said_of here ?_
  rw [← sent]
  simp

theorem dump_once (whole : Whole tidOf sinks s) (here : s.runs[k]? = some run) (at_ : run.recorder.dumps[n]? = some d)
    (done : d.order.msg.done = some channel) {k' n' : Nat} (here' : s.runs[k']? = some run')
    (at' : run'.recorder.dumps[n']? = some d') (done' : d'.order.msg.done = some channel) : k' = k ∧ n' = n := by
  have place := dump_said (whole.sane k run here) here (List.mem_of_getElem? at_)
  have place' := dump_said (whole.sane k' run' here') here' (List.mem_of_getElem? at')
  have same := whole.kept.channels.once _ _ _ _ channel place' place done' done
  obtain ⟨runs,_⟩ := Prod.mk.inj same
  subst k'
  cases here.symm.trans here'
  refine ⟨rfl,?_⟩
  have once := List.Pairwise.sublist (dumps_sublist (whole.sane k run here)) (sent_once whole.kept.channels here)
  rw [List.pairwise_map,List.pairwise_iff_getElem] at once
  obtain ⟨inside,shape⟩ := List.getElem?_eq_some_iff.mp at_
  obtain ⟨inside',shape'⟩ := List.getElem?_eq_some_iff.mp at'
  subst d d'
  rcases Nat.lt_trichotomy n' n with before | same | after
  · exact absurd done (once n' n inside' inside before channel done')
  · exact same
  · exact absurd done' (once n n' inside inside' after channel done)

-- A window begun in the same run was outstanding until the dump, so nothing that reaches into
-- it was evicted since its `Open` was handled, except to make room.
theorem dump_sheltered (whole : Whole tidOf sinks s) (here : s.runs[k]? = some run) (present : d ∈ run.recorder.dumps)
    (there : s.blocks[i]? = some b) {o : Nat × Nat} {id : Nat} {start : UInt64} (opened : b.opened = some o)
    (begun : s.said o = some (.open_ id start)) (asked : b.asked = some (k,d.handled.length)) (same : o.1 = k)
    (earlier : Earlier o (k,d.handled.length)) :
    ∃ order m, d.handled[o.2]? = some (order,m) ∧ order.msg = .open_ id start ∧
      ∀ e ∈ d.evicted, o.2 < e.handled →
        e.batch.endTicks < start ∨ Ring.Excess run.recorder.recorder.ring.capacity e.held := by
  have sane := whole.sane k run here
  obtain ⟨clock,capacity,watched⟩ := sane.watched
  have protected_ := watched.settled.2.2.finished d present
  obtain ⟨rest,sent⟩ := sane.behind.finished d present
  have inside : o.2 < d.handled.length := by
    rcases earlier with less | ⟨_,less⟩
    · exact absurd same (Nat.ne_of_lt less)
    · exact less
  have place {l : Nat} {order : Sent T} {m : Nat} (at_ : d.handled[l]? = some (order,m)) : s.said (k,l) = some order.msg := by
    refine said_of here ?_
    have first : (d.handled.map (·.1))[l]? = some order := by simp [at_]
    have bound : l < (d.handled.map (·.1)).length := (List.getElem?_eq_some_iff.mp first).1
    rw [← sent,List.append_assoc,List.getElem?_append_left bound]
    exact first
  obtain ⟨⟨order,m⟩,shape⟩ : ∃ x, d.handled[o.2] = x := ⟨_,rfl⟩
  have at_ : d.handled[o.2]? = some (order,m) := by rw [List.getElem?_eq_getElem inside,shape]
  have message : order.msg = .open_ id start := by
    have said := place at_
    rw [← same] at said
    exact Option.some.inj (said.symm.trans begun)
  have unended : ∀ x ∈ d.handled.drop (o.2+1), x.1.msg.ends ≠ some id := by
    intro x later ends
    obtain ⟨l,there'⟩ := List.mem_iff_getElem?.mp later
    rw [List.getElem?_drop] at there'
    have mine := ended_by whole.kept there opened begun (place there') ends
    rw [asked] at mine
    have short := (List.getElem?_eq_some_iff.mp there').1
    have equal : d.handled.length = o.2+1+l := congrArg Prod.snd (Option.some.inj mine)
    omega
  refine ⟨order,m,at_,message,?_⟩
  intro e evicted later
  have outstanding := RunRecorder.outstanding_take at_ message later unended
  have window := (protected_.marked e evicted).2 id start m outstanding
  rw [watched.guarded.room]
  exact protected_.spared e evicted (id,start) window

-- The dump a block's path leads to: the one asked for by its own exit, for the span between
-- its entry and that exit, made once and whole, with what it had to be able to show kept.
structure Answer (sinks : Nat → Sinks) (s : Snapshots T) (b : SnapshotBlock) (file : String) (k n : Nat)
    (run : Run T) (d : DumpRun T) : Prop where
  here : s.runs[k]? = some run
  finished : run.recorder.dumps[n]? = some d
  asked : ∃ o id start end_ why channel, b.opened = some o ∧ s.said o = some (.open_ id start) ∧ Named b.reason why ∧
    d.order.msg = .dump id start end_ why (some channel) ∧
    d.events = assemble d.history d.tails run.recorder.recorder.world.queue.clock d.horizonTicks start end_ ∧
    (o.1 = k → ∃ order m, d.handled[o.2]? = some (order,m) ∧ order.msg = .open_ id start ∧
      ∀ e ∈ d.evicted, o.2 < e.handled →
        e.batch.endTicks < start ∨ Ring.Excess run.recorder.recorder.ring.capacity e.held)
  works : (sinks k n d.order.msg.reason).failsAt = none
  path : file = (sinks k n d.order.msg.reason).path
  written : d.written.flatten = d.events
  once : ∀ (k' n' : Nat) run' d', s.runs[k']? = some run' → run'.recorder.dumps[n']? = some d' →
    d'.order.msg.done = d.order.msg.done → k' = k ∧ n' = n

theorem snapshots_answered (tidOf : T → UInt32) (sinks : Nat → Sinks) {acts : List (SnapshotAct T)} {s : Snapshots T}
    (path : Machine.Runs (Snapshots.step tidOf sinks) Below .initial acts s) :
    (∀ (i : Nat) b file, s.blocks[i]? = some b → b.written = some file →
      ∃ k n run d, Answer sinks s b file k n run d) ∧
    ∀ (i j : Nat) b c o o' id start start', s.blocks[i]? = some b → s.blocks[j]? = some c →
      b.opened = some o → c.opened = some o' → s.said o = some (.open_ id start) →
      s.said o' = some (.open_ id start') → i = j := by
  have whole := snapshots_whole path
  refine ⟨?_,?_⟩
  · intro i b file there written
    cases kept : whole.kept.course i b there with
    | returned reason o a channel path asked acked =>
      cases written
      obtain ⟨run,here,acked⟩ := acked
      have sane := whole.sane a.1 run here
      obtain ⟨n,d,at_,done,rfl⟩ := acked_dump sane acked
      have present := List.mem_of_getElem? at_
      obtain ⟨id,start,end_,why,named,begun,said⟩ := asked.said
      have place := dump_said sane here present
      have same : (a.1,d.handled.length) = a := whole.kept.channels.once _ _ _ _ channel place said done rfl
      have message : d.order.msg = .dump id start end_ why (some channel) := by
        rw [same] at place
        exact Option.some.inj (place.symm.trans said)
      obtain ⟨clock,capacity,watched⟩ := sane.watched
      obtain ⟨start',until_,rest,asks,events⟩ := (watched.settled.2.2.finished d present).asked
      rw [message] at asks
      cases asks
      have works := sane.tallied.works n d at_
      refine ⟨a.1,n,run,d,here,at_,⟨o,id,start,end_,why,channel,rfl,begun,named,message,?_,?_⟩,works.1,works.2,
        sane.tallied.written d present,?_⟩
      · rw [watched.timed]
        exact events
      · intro first
        have earlier := asked.earlier
        rw [← same] at earlier
        refine dump_sheltered whole here present there rfl begun ?_ first earlier
        rw [same]
      · intro k' n' run' d' here' at' done'
        exact dump_once whole here at_ done here' at' (done'.trans done)
    | _ => cases written
  · intro i j b c o o' id start start' there there' opened opened' begun begun'
    have same : o = o' := whole.kept.windows.once o o' _ _ id begun begun' rfl rfl
    subst o'
    exact whole.kept.apart i j b c o there there' opened opened'

-- A batch that the ring holds already, then two blocks, the first of which is left by an error
-- while the other is open; the window between theirs is another tracer's. The older batch is
-- evicted for what is recorded inside.
def recordedAt (ticks : UInt64) : List (SnapshotAct Unit) :=
  [.outside 0 (.push () 1 ticks 7 .Begin),.outside 0 (.flush ()),.outside 0 (.take ()),.outside 0 (.arm ()),
    .outside 0 (.handOver ())]

def twoBlocks : List (SnapshotAct Unit) :=
  [.begin_ 1 .mock 12000,.outside 0 (.push () 1 80 7 .Begin),.outside 0 (.arm ()),.outside 0 (.write ())] ++
    recordedAt 90 ++ List.replicate 3 (.own 0 300) ++
    [.snapshot "slow",.snapshot "left",.enter 0 100,.nextWindow,.enter 1 120] ++ List.replicate 4 (.own 0 300) ++
    recordedAt 150 ++ [.exit 0 (some (some "ValueError")),.ask 0 200] ++ List.replicate 22 (.own 0 300) ++ [.recv 0]

def testsBelow (s : Snapshots Unit) (_ : SnapshotAct Unit) : Bool := s.nextWindow < 2^64

theorem testsBelow_meets (s : Snapshots Unit) (act : SnapshotAct Unit) (checked : testsBelow s act = true) : Below s act := by
  have below : s.nextWindow < 2^64 := by simpa [testsBelow] using checked
  exact below

theorem snapshots_answered_raised : ∃ (s : Snapshots Unit) (b : SnapshotBlock),
    s.blocks[0]? = some b ∧ b.written = some "slow-ValueError" ∧
      ∃ k n run d, Answer (fun _ _ reason => ⟨reason,none⟩) s b "slow-ValueError" k n run d ∧
        d.evicted.map (fun e => (e.batch.endTicks,e.handled)) = [(90,2)] := by
  have ran : (Machine.checkedRun (Snapshots.step (fun _ => 1) fun _ _ reason => ⟨reason,none⟩) testsBelow
      .initial twoBlocks).map (fun s => (s.blocks[0]?.bind (·.written),s.runs.map fun run =>
        run.recorder.dumps.map fun d => d.evicted.map fun e => (e.batch.endTicks,e.handled))) =
      some (some "slow-ValueError",[[[(90,2)]]]) := by
    decide +kernel
  obtain ⟨s,path,facts⟩ := Option.map_eq_some_iff.mp ran
  obtain ⟨file,evictions⟩ := Prod.mk.inj facts
  obtain ⟨b,there,written⟩ := Option.bind_eq_some_iff.mp file
  obtain ⟨k,n,run,d,answer⟩ := (snapshots_answered (fun _ => 1) _
    (Machine.runs_of_checked testsBelow_meets path)).1 0 b _ there written
  refine ⟨s,b,there,written,k,n,run,d,answer,?_⟩
  obtain ⟨one,runs,dumps⟩ := List.map_eq_singleton_iff.mp evictions
  obtain ⟨only,dumps,evicted⟩ := List.map_eq_singleton_iff.mp dumps
  have mine : run = one := List.mem_singleton.mp (runs ▸ List.mem_of_getElem? answer.here)
  subst mine
  have same : d = only := List.mem_singleton.mp (dumps ▸ List.mem_of_getElem? answer.finished)
  rw [same]
  exact evicted

-- The run's recorder has handled what the block was opened with, and has not yet handled a
-- dump of it.
structure Holds (s : Snapshots T) (k : Nat) (run : Run T) (w : Nat × UInt64) (b : SnapshotBlock) : Prop where
  opened : ∃ j, b.opened = some (k,j) ∧ s.said (k,j) = some (.open_ w.1 w.2) ∧ j < run.recorder.handled.length
  pending : ∀ l, b.asked = some (k,l) → run.recorder.handled.length ≤ l

theorem outstanding_holds (whole : Whole tidOf sinks s) (here : s.runs[k]? = some run) {n : Nat}
    (outstanding : RunRecorder.Outstanding run.recorder.handled w.1 w.2 n) :
    ∃ (i : Nat) (b : SnapshotBlock), s.blocks[i]? = some b ∧ Holds s k run w b := by
  obtain ⟨before,order,after,split,opens,unended⟩ := outstanding
  have sane := whole.sane k run here
  have at_ : run.recorder.handled[before.length]? = some (order,n) := by simp [split]
  have said := handled_said sane here at_
  rw [opens] at said
  obtain ⟨i,b,there,opened⟩ := whole.kept.opens _ _ _ said
  refine ⟨i,b,there,⟨before.length,opened,said,(List.getElem?_eq_some_iff.mp at_).1⟩,?_⟩
  intro l asked
  by_contra inside
  -- a dump handled would stand behind the message that began its window
  obtain ⟨o,channel,opened',dump⟩ := (whole.kept.course i b there).asked_by asked
  cases opened.symm.trans opened'
  have later : before.length < l := by
    rcases dump.earlier with less | ⟨_,less⟩
    · exact absurd less (Nat.lt_irrefl k)
    · exact less
  obtain ⟨id,start,end_,why,_,begun,asks⟩ := dump.said
  cases said.symm.trans begun
  obtain ⟨⟨order',m⟩,at'⟩ : ∃ x, run.recorder.handled[l]? = some x := ⟨_,List.getElem?_eq_getElem (Nat.lt_of_not_le inside)⟩
  have theirs := (handled_said sane here at').symm.trans asks
  rw [split,List.getElem?_append_right (Nat.le_of_lt later)] at at'
  obtain ⟨x,gap⟩ := Nat.exists_eq_add_of_lt later
  rw [show l-before.length = x+1 by omega,List.getElem?_cons_succ] at at'
  refine unended _ (List.mem_of_getElem? at') ?_
  change order'.msg.ends = _
  rw [Option.some.inj theirs]
  rfl

theorem holds_outstanding (whole : Whole tidOf sinks s) (here : s.runs[k]? = some run) (there : s.blocks[i]? = some b)
    (holds : Holds s k run w b) : ∃ n, RunRecorder.Outstanding run.recorder.handled w.1 w.2 n := by
  obtain ⟨⟨j,opened,said,inside⟩,pending⟩ := holds
  have sane := whole.sane k run here
  obtain ⟨⟨order,n⟩,shape⟩ : ∃ x, run.recorder.handled[j] = x := ⟨_,rfl⟩
  have at_ : run.recorder.handled[j]? = some (order,n) := by rw [List.getElem?_eq_getElem inside,shape]
  refine ⟨n,run.recorder.handled.take j,order,run.recorder.handled.drop (j+1),?_,?_,?_⟩
  · rw [← shape,List.getElem_cons_drop,List.take_append_drop]
  · exact Option.some.inj ((handled_said sane here at_).symm.trans said)
  · intro x later ends
    obtain ⟨l,at'⟩ := List.mem_iff_getElem?.mp later
    rw [List.getElem?_drop] at at'
    have mine := ended_by whole.kept there opened said (handled_said sane here at') ends
    exact absurd (List.getElem?_eq_some_iff.mp at').1 (Nat.not_lt_of_le (pending _ mine))

-- The windows a recorder keeps the ring back for are those of the blocks whose dump it has
-- still to handle, once each. A block that raised before it could ask keeps its window.
theorem windows_held (tidOf : T → UInt32) (sinks : Nat → Sinks) {acts : List (SnapshotAct T)} {s : Snapshots T}
    (path : Machine.Runs (Snapshots.step tidOf sinks) Below .initial acts s) (k : Nat) (run : Run T)
    (here : s.runs[k]? = some run) :
    (∀ w, w ∈ run.recorder.recorder.windows ↔ ∃ (i : Nat) (b : SnapshotBlock), s.blocks[i]? = some b ∧ Holds s k run w b) ∧
    (run.recorder.recorder.windows.map (·.1)).Nodup ∧
    run.recorder.recorder.ring.floor = (run.recorder.recorder.windows.map (·.2)).min? := by
  have whole := snapshots_whole path
  have sane := whole.sane k run here
  obtain ⟨clock,capacity,watched⟩ := sane.watched
  refine ⟨?_,?_,watched.guarded.floor⟩
  · intro w
    rw [watched.windowed.windows]
    constructor
    · rintro ⟨n,outstanding⟩
      exact outstanding_holds whole here outstanding
    · rintro ⟨i,b,there,holds⟩
      exact holds_outstanding whole here there holds
  · have sent : (run.recorder.handled.map (·.1)).Sublist run.recorder.sent := by
      rw [← sane.tallied.sent]
      exact List.sublist_append_left _ _
    have once := sent_once whole.kept.windows here
    have handled : (run.recorder.handled.filterMap (·.1.msg.begins)).Nodup := by
      have apart := List.Pairwise.sublist sent once
      rw [List.pairwise_map] at apart
      refine (List.pairwise_filterMap).mpr (apart.imp ?_)
      intro x y unlike n tagged m tagged' same
      subst m
      exact unlike n tagged tagged'
    exact handled.sublist sane.begun

theorem windows_held_left : ∃ (s : Snapshots Unit) (run : Run Unit), s.runs[0]? = some run ∧
    run.recorder.recorder.windows = [(3,120)] ∧
    ∃ (i : Nat) (b : SnapshotBlock), s.blocks[i]? = some b ∧ Holds s 0 run (3,120) b := by
  have ran : (Machine.checkedRun (Snapshots.step (fun _ => 1) fun _ _ reason => ⟨reason,none⟩) testsBelow
      .initial twoBlocks).map (fun s => s.runs[0]?.map (·.recorder.recorder.windows)) = some (some [(3,120)]) := by
    decide +kernel
  obtain ⟨s,ran,windows⟩ := Option.map_eq_some_iff.mp ran
  obtain ⟨run,here,windows⟩ := Option.map_eq_some_iff.mp windows
  refine ⟨s,run,here,windows,?_⟩
  apply ((windows_held (fun _ => 1) _ (Machine.runs_of_checked testsBelow_meets ran) 0 run here).1 (3,120)).mp
  rw [windows]
  exact List.mem_singleton_self _

open RunRecorder (alone Failing Kempt)

theorem Sane.kempt (sane : Sane tidOf (sinks k) run) : Kempt tidOf (sinks k) run.recorder.sent run.recorder := by
  obtain ⟨clock,capacity,watched⟩ := sane.watched
  exact ⟨sane.staged,⟨watched.settled.1,watched.settled.2.1,⟨fun _ _ _ _ => trivial,fun _ _ => trivial⟩⟩,
    ⟨sane.shut,watched.sound⟩,rfl⟩

-- An exit that has asked for its dump gets the path, or the sink of its run is one that fails:
-- it raises for no other reason, and while it waits the recorder comes round to it.
theorem exits_answered (tidOf : T → UInt32) (sinks : Nat → Sinks) {acts : List (SnapshotAct T)} {s : Snapshots T}
    (path : Machine.Runs (Snapshots.step tidOf sinks) Below .initial acts s) (i : Nat) (b : SnapshotBlock)
    (there : s.blocks[i]? = some b) :
    (∀ k l, b.exit_ = some .raised → b.asked = some (k,l) →
      ∃ run, s.runs[k]? = some run ∧ Failing (sinks k) run.recorder) ∧
    ∀ k channel, b.exit_ = some (.waiting k channel) → ∃ run, s.runs[k]? = some run ∧
      ∀ nows : Nat → UInt64, ∃ n m, Machine.run (alone tidOf (sinks k)) run.recorder ((List.range n).map nows) = some m ∧
        ((∃ file, m.acks.lookup channel = some file) ∨ Failing (sinks k) m) := by
  have whole := snapshots_whole path
  refine ⟨?_,?_⟩
  · intro k l raised asked
    cases whole.kept.course i b there with
    | unanswered reason o a channel dump failed =>
      cases asked
      obtain ⟨run,order,here,stand,fails⟩ := failed
      exact ⟨run,here,order,stand,fails⟩
    | unasked reason id start o opened => cases asked
    | _ => cases raised
  · intro k channel waiting
    cases whole.kept.course i b there with
    | waiting reason o a channel' dump =>
      cases waiting
      obtain ⟨id,start,end_,why,_,_,said⟩ := dump.said
      obtain ⟨run,here,_⟩ := Option.bind_eq_some_iff.mp said
      obtain ⟨order,sent,msg⟩ := said_sent here said
      refine ⟨run,here,?_⟩
      intro nows
      obtain ⟨n,m,ran,answered | failing⟩ := (RunRecorder.answers_eventually (whole.sane a.1 run here).kempt).reached nows
      · refine ⟨n,m,ran,.inl ?_⟩
        have asks : order ∈ m.dumps.map (·.order) := by
          rw [answered.dumps]
          refine List.mem_filter.mpr ⟨List.mem_of_getElem? sent,?_⟩
          rw [msg]
          rfl
        obtain ⟨d,present,same⟩ := List.mem_map.mp asks
        have acked : (channel,d.path) ∈ m.acks := by
          rw [answered.acks]
          refine List.mem_filterMap.mpr ⟨d,present,?_⟩
          rw [same,msg]
          rfl
        cases found : m.acks.lookup channel with
        | some file => exact ⟨file,rfl⟩
        | none =>
          have unlike := List.lookup_eq_none_iff.mp found _ acked
          simp at unlike
      · exact ⟨n,m,ran,.inr failing⟩
    | _ => cases waiting

theorem exits_answered_waiting : ∃ (s : Snapshots Unit) (run : Run Unit), s.runs[0]? = some run ∧
    (∃ b, s.blocks[0]? = some b ∧ b.exit_ = some (.waiting 0 0)) ∧
    ∀ nows : Nat → UInt64, ∃ n m, Machine.run (alone (fun _ => 1) fun _ reason => ⟨reason,none⟩) run.recorder
        ((List.range n).map nows) = some m ∧
      ((∃ file, m.acks.lookup 0 = some file) ∨ Failing (fun _ reason => ⟨reason,none⟩) m) := by
  have ran : (Machine.checkedRun (Snapshots.step (fun _ => 1) fun _ _ reason => ⟨reason,none⟩) testsBelow .initial
      [.begin_ 1 .mock 1000000,.snapshot "slow",.enter 0 100,.exit 0 none,.ask 0 200]).map
        (fun s : Snapshots Unit => s.blocks[0]?.bind (·.exit_)) = some (some (.waiting 0 0)) := by
    decide +kernel
  obtain ⟨s,begun,exit⟩ := Option.map_eq_some_iff.mp ran
  obtain ⟨b,there,waiting⟩ := Option.bind_eq_some_iff.mp exit
  obtain ⟨run,here,answers⟩ := (exits_answered (fun _ => 1) (fun _ _ reason => ⟨reason,none⟩)
    (Machine.runs_of_checked testsBelow_meets begun) 0 b there).2 0 0 waiting
  exact ⟨s,run,here,⟨b,there,waiting⟩,answers⟩

end Blocks
end Trace0
