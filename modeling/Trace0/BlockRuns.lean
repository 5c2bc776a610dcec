import Trace0.Blocks
import Trace0.RecorderStaged

namespace Trace0

def Control.begins : Control → Option Nat
  | .open_ id _ => some id
  | _ => none

namespace Blocks

section Recorders

variable {T : Type} [DecidableEq T] {tidOf : T → UInt32} {sinks : Sinks} {r r' : RunRecorder T} {run : Run T}
  {act : RunAct T}

open RunRecorder

def Behind (sent : List (Sent T)) (d : DumpRun T) : Prop := d.handled.map (·.1) ++ [d.order] <+: sent

theorem behind_step (tallied : Tallied sinks r) (held : Dumps (Behind r.sent) r)
    (stepped : r.step tidOf sinks act = some r') : Dumps (Behind r'.sent) r' := by
  rcases step_cases stepped with ⟨a,w,_,_,_,rfl⟩ | ⟨msg,_,rfl⟩ | ⟨_,own⟩
  · exact ⟨held.writing,held.finished⟩
  · have more {d : DumpRun T} (before : Behind r.sent d) : Behind (r.sent ++ [⟨msg,r.recorder.world.accepted⟩]) d :=
      List.IsPrefix.trans before (List.prefix_append _ _)
    exact ⟨fun order last run here => more (held.writing order last run here),fun d present => more (held.finished d present)⟩
  · rw [own_sent own]
    refine dumps_own (fun d written dropped before => before) ?_ held own
    intro order last start end_ tails path here _
    have sent := tallied.sent
    rw [here] at sent
    change r.handled.map (·.1) ++ [order] <+: r.sent
    rw [← sent,← List.append_assoc]
    exact List.prefix_append _ _

def Begun (r : RunRecorder T) : Prop :=
  (r.recorder.windows.map (·.1)).Sublist (r.handled.filterMap (·.1.msg.begins))

omit [DecidableEq T] in
theorem begun_same (begun : Begun r) (windows : r'.recorder.windows = r.recorder.windows)
    (handled : r'.handled = r.handled) : Begun r' := by
  unfold Begun
  rw [windows,handled]
  exact begun

omit [DecidableEq T] in
theorem begun_closed (begun : Begun r) (order : Sent T) (id : Nat) (stand : Stand T) :
    Begun (r.rewindowed order (r.recorder.windows.filter (·.1 ≠ id)) stand) := by
  have fewer : ((r.recorder.windows.filter (·.1 ≠ id)).map (·.1)).Sublist (r.recorder.windows.map (·.1)) :=
    List.filter_sublist.map _
  have more : (r.handled.filterMap (·.1.msg.begins)).Sublist
      ((r.rewindowed order (r.recorder.windows.filter (·.1 ≠ id)) stand).handled.filterMap (·.1.msg.begins)) :=
    (List.sublist_append_left _ _).filterMap _
  exact fewer.trans (begun.trans more)

theorem begun_step (begun : Begun r) (stepped : r.step tidOf sinks act = some r') : Begun r' := by
  rcases step_cases stepped with ⟨a,w,_,_,_,rfl⟩ | ⟨msg,_,rfl⟩ | ⟨_,own⟩
  · exact begun_same begun rfl rfl
  · exact begun_same begun rfl rfl
  · cases own with
    | absorb limit stand recorder here there closing open_ absorbed =>
      obtain ⟨_,_,_,shape⟩ := absorb_some absorbed
      exact begun_same begun (by rw [shape]) rfl
    | jobAbsorb recorder absorbed busy =>
      obtain ⟨next,absorbed⟩ := absorbStep_absorb absorbed busy
      obtain ⟨_,_,_,shape⟩ := absorb_some absorbed
      exact begun_same begun (by rw [shape]) rfl
    | job act recorder next jobbed =>
      obtain ⟨_,windows,_⟩ := job_same next jobbed
      exact begun_same begun windows rfl
    | floor now recorder ticker started here =>
      obtain ⟨_,rfl⟩ := floor_some started
      exact begun_same begun rfl rfl
    | floorLast now recorder order last path started here =>
      obtain ⟨_,rfl⟩ := floor_some started
      exact begun_same begun rfl rfl
    | opened order last id start here msg =>
      unfold Begun rewindowed
      dsimp only [Recorder.refloor]
      rw [List.map_append,List.filterMap_append]
      refine List.Sublist.append begun ?_
      simp [msg,Control.begins]
    | cancelled order last id here msg => exact begun_closed begun order id _
    | ended order last id path here msg => exact begun_closed begun order id _
    | unwindowed order last path here msg =>
      unfold Begun
      rw [List.filterMap_append]
      exact begun.trans (List.sublist_append_left _ _)
    | _ => exact begun_same begun rfl rfl

-- A run's recorder, with its channel hung up only once the thread is over and its queue closed
-- only behind the last message.
structure Sane (tidOf : T → UInt32) (sinks : Sinks) (run : Run T) : Prop where
  watched : ∃ clock capacity, Watched tidOf sinks capacity clock run.recorder
  shut : Shut run.recorder
  closed : run.recorder.recorder.world.queue.closed = true → run.ended = true
  gone : run.gone = true → run.stopped = true
  behind : Dumps (Behind run.recorder.sent) run.recorder
  begun : Begun run.recorder
  staged : run.recorder.stand.Staged run.recorder.recorder.phase

theorem Sane.tallied (sane : Sane tidOf sinks run) : Tallied sinks run.recorder := by
  obtain ⟨clock,capacity,watched⟩ := sane.watched
  exact watched.settled.1

theorem step_closed (sound : Sound tidOf r.recorder.world) (open_ : act ≠ .outside .close)
    (stepped : r.step tidOf sinks act = some r') :
    r'.recorder.world.queue.closed = r.recorder.world.queue.closed := by
  rcases step_cases stepped with ⟨a,w,rfl,_,moved,rfl⟩ | ⟨msg,_,rfl⟩ | ⟨_,own⟩
  · exact (step_rest sound moved).closed (by simpa using open_)
  · rfl
  · rcases own_world own with ⟨limit,drained⟩ | ⟨floor,same⟩
    · exact (step_rest sound drained).closed (by simp)
    · rw [same]
      rfl

theorem step_stopped (stopped : run.stopped = true) (stepped : run.recorder.step tidOf sinks act = some r') :
    r'.stand = run.recorder.stand := by
  cases act with
  | own now =>
    change run.recorder.ownStep tidOf sinks now = some r' at stepped
    unfold ownStep at stepped
    unfold Run.stopped at stopped
    cases here : run.recorder.stand <;> simp [here] at stopped stepped
  | _ =>
    rcases step_cases stepped with ⟨a,w,_,_,_,rfl⟩ | ⟨msg,_,rfl⟩ | ⟨⟨now,other⟩,_⟩
    · rfl
    · rfl
    · cases other

theorem sane_step (sane : Sane tidOf sinks run) (prompt : Prompt run.recorder act)
    (closing : act = .outside .close → run.ended = true) (stepped : run.recorder.step tidOf sinks act = some r') :
    Sane tidOf sinks {run with recorder := r'} := by
  obtain ⟨clock,capacity,watched⟩ := sane.watched
  refine ⟨⟨clock,capacity,watched_step watched stepped⟩,?_,?_,?_,?_,?_,staged_step sane.staged stepped⟩
  · exact (shut_step ⟨sane.shut,watched.sound⟩ prompt stepped).1
  · intro closed
    by_cases close : act = .outside .close
    · exact closing close
    · change r'.recorder.world.queue.closed = true at closed
      rw [step_closed watched.sound close stepped] at closed
      exact sane.closed closed
  · intro gone
    have same : Run.stopped {run with recorder := r'} = run.stopped := by
      simp only [Run.stopped,step_stopped (sane.gone gone) stepped]
    exact same.trans (sane.gone gone)
  · exact behind_step sane.tallied sane.behind stepped
  · exact begun_step sane.begun stepped

theorem sane_told (sane : Sane tidOf sinks run) (first : run.ended = false) (msg : Control) :
    Sane tidOf sinks {run with recorder := told run.recorder msg} := by
  have sends : run.recorder.step tidOf sinks (.send msg) = some (told run.recorder msg) := rfl
  refine sane_step sane ?_ (by simp) sends
  cases closed : run.recorder.recorder.world.queue.closed with
  | false => exact closed
  | true =>
    rw [sane.closed closed] at first
    cases first

theorem sane_ended (sane : Sane tidOf sinks run) : Sane tidOf sinks {run with ended := true} :=
  ⟨sane.watched,sane.shut,fun _ => rfl,sane.gone,sane.behind,sane.begun,sane.staged⟩

theorem sane_hungUp (sane : Sane tidOf sinks run) (stopped : run.stopped = true) :
    Sane tidOf sinks {run with gone := true} :=
  ⟨sane.watched,sane.shut,sane.closed,fun _ => stopped,sane.behind,sane.begun,sane.staged⟩

theorem initial_sane (id : Nat) (clock : Clock) (capacityBytes : Nat) :
    Sane tidOf sinks ⟨.initial (T := T) id clock capacityBytes,false,false⟩ := by
  have shut : Shut (RunRecorder.initial (T := T) id clock capacityBytes) ∧
      Sound tidOf (RunRecorder.initial (T := T) id clock capacityBytes).recorder.world :=
    initial_shut id clock capacityBytes
  have settled : Tallied sinks (RunRecorder.initial (T := T) id clock capacityBytes) ∧
      Poised (RunRecorder.initial (T := T) id clock capacityBytes) ∧
      Dumps (Behind []) (RunRecorder.initial (T := T) id clock capacityBytes) :=
    initial_settled id clock capacityBytes
  refine ⟨⟨clock,capacityBytes,initial_watched id clock capacityBytes⟩,shut.1,?_,?_,settled.2.2,List.nil_sublist _,rfl⟩
  · intro closed
    cases closed
  · intro gone
    cases gone

end Recorders

variable {T : Type} [DecidableEq T]

-- The message at a place: one of the runs', and how many that run had been sent before.
def Snapshots.said (s : Snapshots T) (p : Nat × Nat) : Option Control :=
  s.runs[p.1]?.bind fun run => run.recorder.sent[p.2]?.map (·.msg)

def Snapshots.acked (s : Snapshots T) (k channel : Nat) (path : String) : Prop :=
  ∃ run, s.runs[k]? = some run ∧ (channel,path) ∈ run.recorder.acks

def Snapshots.failed (sinks : Nat → Sinks) (s : Snapshots T) (k : Nat) : Prop :=
  ∃ run order, s.runs[k]? = some run ∧ run.recorder.stand = .failed order ∧
    (sinks k run.recorder.dumps.length order.msg.reason).failsAt ≠ none

def Earlier (o a : Nat × Nat) : Prop := o.1 < a.1 ∨ o.1 = a.1 ∧ o.2 < a.2

-- The `Open` and the `Dump` of one block.
structure Asked (s : Snapshots T) (reason : String) (o a : Nat × Nat) (channel : Nat) : Prop where
  earlier : Earlier o a
  said : ∃ id start end_ why, Named reason why ∧ s.said o = some (.open_ id start) ∧
    s.said a = some (.dump id start end_ why (some channel))

-- The life of a block, and what has been sent for it at each point.
inductive Course (sinks : Nat → Sinks) (s : Snapshots T) : SnapshotBlock → Prop where
  | ready (reason : String) : Course sinks s (.new reason)
  | open_ (reason : String) (id : Nat) (start : UInt64) (o : Nat × Nat) (opened : s.said o = some (.open_ id start)) :
      Course sinks s ⟨reason,.open_ id start,none,none,some o,none⟩
  | asking (reason : String) (id : Nat) (start : UInt64) (why : String) (o : Nat × Nat)
      (opened : s.said o = some (.open_ id start)) (named : Named reason why) :
      Course sinks s ⟨reason,.done,some (.asking id start why),none,some o,none⟩
  | unasked (reason : String) (id : Nat) (start : UInt64) (o : Nat × Nat) (opened : s.said o = some (.open_ id start)) :
      Course sinks s ⟨reason,.done,some .raised,none,some o,none⟩
  | waiting (reason : String) (o a : Nat × Nat) (channel : Nat) (asked : Asked s reason o a channel) :
      Course sinks s ⟨reason,.done,some (.waiting a.1 channel),none,some o,some a⟩
  | unanswered (reason : String) (o a : Nat × Nat) (channel : Nat) (asked : Asked s reason o a channel)
      (failed : s.failed sinks a.1) : Course sinks s ⟨reason,.done,some .raised,none,some o,some a⟩
  | returned (reason : String) (o a : Nat × Nat) (channel : Nat) (path : String) (asked : Asked s reason o a channel)
      (acked : s.acked a.1 channel path) : Course sinks s ⟨reason,.done,some .returned,some path,some o,some a⟩

structure Kept (sinks : Nat → Sinks) (s : Snapshots T) : Prop where
  windows : Tickets.Apart s.said Control.begins s.nextWindow
  channels : Tickets.Apart s.said Control.done s.nextChannel
  course : ∀ (i : Nat) b, s.blocks[i]? = some b → Course sinks s b
  opens : ∀ p id start, s.said p = some (.open_ id start) → ∃ (i : Nat) (b : SnapshotBlock), s.blocks[i]? = some b ∧ b.opened = some p
  asks : ∀ p msg channel, s.said p = some msg → msg.done = some channel →
    ∃ (i : Nat) (b : SnapshotBlock), s.blocks[i]? = some b ∧ b.asked = some p
  ends : ∀ p msg id, s.said p = some msg → msg.ends = some id → ∃ channel, msg.done = some channel
  apart : ∀ (i j : Nat) (b c : SnapshotBlock) p, s.blocks[i]? = some b → s.blocks[j]? = some c → b.opened = some p → c.opened = some p → i = j

structure Ordered (s : Snapshots T) : Prop where
  latest : ∀ k, s.running = some k → k+1 = s.runs.length
  going : ∀ (k : Nat) run, s.running = some k → s.runs[k]? = some run → run.ended = false

variable {tidOf : T → UInt32} {sinks : Nat → Sinks} {s s' : Snapshots T}

omit [DecidableEq T] in
theorem said_inside {p : Nat × Nat} {msg : Control} (said : s.said p = some msg) : p.1 < s.runs.length := by
  obtain ⟨run,here,_⟩ := Option.bind_eq_some_iff.mp said
  exact (List.getElem?_eq_some_iff.mp here).1

omit [DecidableEq T] in
theorem said_sent {k j : Nat} {run : Run T} {msg : Control} (here : s.runs[k]? = some run) (said : s.said (k,j) = some msg) :
    ∃ order, run.recorder.sent[j]? = some order ∧ order.msg = msg := by
  simp only [Snapshots.said,here,Option.bind_some,Option.map_eq_some_iff] at said
  exact said

omit [DecidableEq T] in
theorem said_of {k j : Nat} {run : Run T} {order : Sent T} (here : s.runs[k]? = some run)
    (sent : run.recorder.sent[j]? = some order) : s.said (k,j) = some order.msg := by
  simp [Snapshots.said,here,sent]

omit [DecidableEq T] in
theorem said_free {k : Nat} {run : Run T} (here : s.runs[k]? = some run) : s.said (k,run.recorder.sent.length) = none := by
  simp [Snapshots.said,here]

omit [DecidableEq T] in
theorem said_withRun {k : Nat} {run : Run T} (run' : Run T) (here : s.runs[k]? = some run)
    (sent : run'.recorder.sent = run.recorder.sent) : (s.withRun k run').said = s.said := by
  funext p
  have inside := (List.getElem?_eq_some_iff.mp here).1
  by_cases same : p.1 = k
  · rw [← same] at here inside
    have before : s.said p = run.recorder.sent[p.2]?.map (·.msg) := by simp [Snapshots.said,here]
    rw [before]
    simp [Snapshots.said,Snapshots.withRun,same ▸ inside,same,sent]
  · simp [Snapshots.said,Snapshots.withRun,List.getElem?_set_ne (Ne.symm same)]

omit [DecidableEq T] in
theorem said_withTold {k : Nat} {run run' : Run T} (msg : Control) (here : s.runs[k]? = some run)
    (same : run'.recorder = run.recorder) :
    (withTold s k run' msg).said = Function.update s.said (k,run.recorder.sent.length) (some msg) := by
  funext p
  have inside := (List.getElem?_eq_some_iff.mp here).1
  by_cases run_ : p.1 = k
  · subst run_
    have place : (withTold s p.1 run' msg).said p =
        (run.recorder.sent ++ [(⟨msg,run.recorder.recorder.world.accepted⟩ : Sent T)])[p.2]?.map (·.msg) := by
      simp [Snapshots.said,withTold,Snapshots.withRun,inside,told,same]
    have before : s.said p = run.recorder.sent[p.2]?.map (·.msg) := by simp [Snapshots.said,here]
    rw [place]
    by_cases last : p.2 = run.recorder.sent.length
    · rw [← last,Function.update_self,last]
      simp
    · have other : p ≠ (p.1,run.recorder.sent.length) := fun equal => last (congrArg Prod.snd equal)
      rw [Function.update_of_ne other,before]
      rcases Nat.lt_or_ge p.2 run.recorder.sent.length with early | late
      · rw [List.getElem?_append_left early]
      · have beyond : run.recorder.sent.length < p.2 := Nat.lt_of_le_of_ne late (Ne.symm last)
        simp [late,beyond]
  · have other : p ≠ (k,run.recorder.sent.length) := fun equal => run_ (congrArg Prod.fst equal)
    rw [Function.update_of_ne other]
    simp [Snapshots.said,withTold,Snapshots.withRun,List.getElem?_set_ne (Ne.symm run_)]

structure Onward (sinks : Nat → Sinks) (s s' : Snapshots T) : Prop where
  said : ∀ p msg, s.said p = some msg → s'.said p = some msg
  acked : ∀ k channel path, s.acked k channel path → s'.acked k channel path
  failed : ∀ k, s.failed sinks k → s'.failed sinks k

omit [DecidableEq T] in
theorem Asked.onward {reason : String} {o a : Nat × Nat} {channel : Nat} (asked : Asked s reason o a channel)
    (onward : Onward sinks s s') : Asked s' reason o a channel := by
  obtain ⟨earlier,id,start,end_,why,named,opened,dumped⟩ := asked
  exact ⟨earlier,id,start,end_,why,named,onward.said _ _ opened,onward.said _ _ dumped⟩

omit [DecidableEq T] in
theorem Course.onward {b : SnapshotBlock} (course : Course sinks s b) (onward : Onward sinks s s') : Course sinks s' b := by
  cases course with
  | ready reason => exact .ready reason
  | open_ reason id start o opened => exact .open_ reason id start o (onward.said _ _ opened)
  | asking reason id start why o opened named => exact .asking reason id start why o (onward.said _ _ opened) named
  | unasked reason id start o opened => exact .unasked reason id start o (onward.said _ _ opened)
  | waiting reason o a channel asked => exact .waiting reason o a channel (asked.onward onward)
  | unanswered reason o a channel asked failed =>
    exact .unanswered reason o a channel (asked.onward onward) (onward.failed _ failed)
  | returned reason o a channel path asked acked =>
    exact .returned reason o a channel path (asked.onward onward) (onward.acked _ _ _ acked)

end Blocks

end Trace0
