import Trace0.DumpRuns
import Trace0.Lib.Machine
import Trace0.WindowFloor

namespace Trace0
namespace RunRecorder

section Failing

open Machine

variable {T : Type} [DecidableEq T]

def wanted (r : RunRecorder T) : List (Sent T) := r.sent.filter asking

def Works (sinks : Sinks) (k : Nat) (order : Sent T) : Prop := (sinks k order.msg.reason).failsAt = none

-- The dump is written out and whoever asked for it is told where.
def Lands (sinks : Sinks) (r : RunRecorder T) (k : Nat) (order : Sent T) : Prop :=
  ∃ d, r.dumps[k]? = some d ∧ d.order = order ∧ d.written.flatten = d.events ∧
    ∀ reply, order.msg.done = some reply → (reply,(sinks k order.msg.reason).path) ∈ r.acks

def over_ (r : RunRecorder T) : Bool :=
  match r.stand with
  | .returned | .failed _ => true
  | _ => false

variable {tidOf : T → UInt32} {sinks : Sinks} {r : RunRecorder T}

omit [DecidableEq T] in
theorem over_cases (ended : r.over_ = true) : r.stand = .returned ∨ ∃ order, r.stand = .failed order := by
  unfold over_ at ended
  split at ended
  · rename_i done
    exact .inl done
  · rename_i order gone
    exact .inr ⟨order,gone⟩
  · cases ended

omit [DecidableEq T] in
theorem finished_lands (tallied : Tallied sinks r) (settled : r.stand.owed = []) {k : Nat} {d : DumpRun T}
    (present : r.dumps[k]? = some d) : Lands sinks r k d.order := by
  have acks := tallied.acks
  rw [settled,List.append_nil] at acks
  refine ⟨d,present,rfl,tallied.written d (List.mem_of_getElem? present),?_⟩
  intro reply asked
  rw [acks,List.mem_filterMap]
  refine ⟨d,List.mem_of_getElem? present,?_⟩
  simp [DumpRun.ack,asked,(tallied.works k d present).2]

omit [DecidableEq T] in
theorem wanted_split (tallied : Tallied sinks r) (shut : Shut r) (ended : r.over_ = true) : r.stand.owed = [] ∧
    ∃ rest, r.wanted = r.dumps.map (·.order) ++ rest ∧
      (rest = [] ∨ ∃ order more, rest = order :: more ∧ ¬Works sinks r.dumps.length order) := by
  have sent := tallied.sent
  have dumps := tallied.dumps
  rcases over_cases ended with done | ⟨order,gone⟩
  · rw [done] at sent dumps
    rw [shut.empty done] at sent
    refine ⟨by rw [done]; rfl,[],?_,.inl rfl⟩
    rw [wanted,← sent,dumps]
    simp [Stand.taken,Stand.dumped]
  · have fits := tallied.fits
    rw [gone] at sent dumps fits
    obtain ⟨asks,fails⟩ := fits
    refine ⟨by rw [gone]; rfl,order :: r.control.filter asking,?_,.inr ⟨order,_,rfl,fails⟩⟩
    have wants : asking order = true := asks
    rw [wanted,← sent,dumps]
    simp [Stand.taken,Stand.dumped,wants]

theorem others_land (tidOf : T → UInt32) (sinks : Sinks) (id : Nat) (clock : Clock) (capacityBytes : Nat)
    {acts : List (RunAct T)} (path : Runs (step tidOf sinks) Prompt (initial id clock capacityBytes) acts r)
    (ended : r.over_ = true) :
    (∀ k order, r.wanted[k]? = some order → Works sinks k order → Lands sinks r k order) ↔
      ∀ j k earlier later, j < k → r.wanted[j]? = some earlier → r.wanted[k]? = some later →
        Works sinks k later → Works sinks j earlier := by
  have shut := (path.invariant (initial_shut id clock capacityBytes) fun _ _ _ => shut_step).1
  have tallied := (path.invariant (initial_settled (Q := fun _ => True) id clock capacityBytes)
    fun _ _ _ settled _ stepped => settled_step (by simp) (by simp) settled stepped).1
  obtain ⟨settled,rest,split,shape⟩ := wanted_split tallied shut ended
  have early {k : Nat} {order : Sent T} (inside : k < r.dumps.length) (place : r.wanted[k]? = some order) :
      Works sinks k order ∧ Lands sinks r k order := by
    rw [split,List.getElem?_append_left (by simpa using inside),List.getElem?_map,
      Option.map_eq_some_iff] at place
    obtain ⟨d,present,rfl⟩ := place
    exact ⟨(tallied.works k d present).1,finished_lands tallied settled present⟩
  have beyond {k : Nat} {order : Sent T} (outside : ¬k < r.dumps.length) (place : r.wanted[k]? = some order) :
      ∃ failing, r.wanted[r.dumps.length]? = some failing ∧ ¬Works sinks r.dumps.length failing := by
    rcases shape with none | ⟨failing,more,rfl,fails⟩
    · have inside := (List.getElem?_eq_some_iff.mp place).1
      rw [split,none,List.append_nil,List.length_map] at inside
      exact absurd inside outside
    · refine ⟨failing,?_,fails⟩
      rw [split,List.getElem?_append_right (by simp)]
      simp
  constructor
  · intro lands j k earlier later before first second works
    obtain ⟨d,present,_⟩ := lands k later second works
    exact (early (before.trans (List.getElem?_eq_some_iff.mp present).1) first).1
  · intro last k order place works
    by_cases inside : k < r.dumps.length
    · exact (early inside place).2
    · obtain ⟨failing,first,fails⟩ := beyond inside place
      rcases Nat.lt_or_eq_of_le (Nat.not_lt.mp inside) with before | same
      · exact absurd (last _ k failing order before first place works) fails
      · subst same
        rw [first] at place
        cases place
        exact absurd works fails

-- A snapshot block, then the end of the run.
def snapshotThenEnd : List (RunAct Unit) :=
  [.send (.open_ 1 0),.send (.dump 1 0 50 "checkout" (some 0)),.send (.dumpAll 90 "exit" none),.outside .close]

def failingAt (n : Nat) : Sinks := fun k reason => ⟨reason,if k = n then some 0 else none⟩

-- The last `open` fails: the snapshot landed before it.
theorem others_land_last : ∃ (r : RunRecorder Unit) (order : Sent Unit), r.over_ = true ∧
    r.wanted.length = 2 ∧ r.wanted[0]? = some order ∧ Lands (failingAt 1) r 0 order := by
  have ran : (checkedRun (step (fun _ => 1) (failingAt 1)) testsPrompt (initial 1 .mock 1000000)
      (snapshotThenEnd ++ List.replicate 25 (.own 100))).map (fun r => (r.over_,r.wanted.length)) =
        some (true,2) := by decide +kernel
  obtain ⟨r,run,facts⟩ := Option.map_eq_some_iff.mp ran
  simp only [Prod.mk.injEq] at facts
  obtain ⟨ended,two⟩ := facts
  have first : r.wanted[0]? = some r.wanted[0] := List.getElem?_eq_getElem (by omega)
  refine ⟨r,_,ended,two,first,?_⟩
  refine (others_land (fun _ => 1) (failingAt 1) 1 .mock 1000000 (runs_of_checked testsPrompt_meets run) ended).mpr
    ?_ 0 _ first rfl
  intro j k earlier later before _ place works
  have inside := (List.getElem?_eq_some_iff.mp place).1
  have last : k = 1 := by omega
  rw [last] at works
  cases works

-- The first `open` fails: the dump that ends the run is not even begun.
theorem failed_open_ends_the_rest : ∃ (r : RunRecorder Unit) (order : Sent Unit),
    checkedRun (step (fun _ => 1) (failingAt 0)) testsPrompt (initial 1 .mock 1000000)
      (snapshotThenEnd ++ List.replicate 9 (.own 100)) = some r ∧ r.over_ = true ∧
    r.wanted[1]? = some order ∧ Works (failingAt 0) 1 order ∧ ¬Lands (failingAt 0) r 1 order := by
  have ran : (checkedRun (step (fun _ => 1) (failingAt 0)) testsPrompt (initial 1 .mock 1000000)
      (snapshotThenEnd ++ List.replicate 9 (.own 100))).map
        (fun r => (r.over_,r.wanted.length,r.dumps.length)) = some (true,2,0) := by decide +kernel
  obtain ⟨r,run,facts⟩ := Option.map_eq_some_iff.mp ran
  simp only [Prod.mk.injEq] at facts
  obtain ⟨ended,two,none⟩ := facts
  refine ⟨r,_,run,ended,List.getElem?_eq_getElem (by omega),rfl,?_⟩
  rintro ⟨d,present,_⟩
  have inside := (List.getElem?_eq_some_iff.mp present).1
  omega

end Failing

variable {T : Type} [DecidableEq T] {tidOf : T → UInt32} {sinks : Sinks} {r r' : RunRecorder T}
  {act : RunAct T} {clock : Clock}

-- What the rings had been given when a message was sent, they have been given since, and a
-- dump that is about to assemble has drained it.
structure Entitled (r : RunRecorder T) : Prop where
  given : ∀ order ∈ r.sent, ∀ t,
    ownedBy t order.shipped <+: acceptedOf (ownedBy t r.recorder.world.ledger.shipped)
  fetched : ∀ order last goal tails, r.stand = .handling order last .gathering →
    r.recorder.phase = .collected goal tails → ∀ t,
      ownedBy t order.shipped <+: ownedBy t r.recorder.world.ledger.drained

theorem accepted_owned (w : World T) (t : T) : ownedBy t w.accepted = acceptedOf (ownedBy t w.ledger.shipped) := by
  simp only [Keyed.ownedBy,World.accepted,acceptedOf,List.filter_map,List.map_map,List.filter_filter]
  congr 1
  apply List.filter_congr
  intro s _
  simp [Bool.and_comm]

theorem accepted_grows {w w' : World T} {a : Act T} (sound : Sound tidOf w) (stepped : w.step tidOf a = some w') (t : T) :
    acceptedOf (ownedBy t w.ledger.shipped) <+: acceptedOf (ownedBy t w'.ledger.shipped) := by
  have shipped : ownedBy t w.ledger.shipped <+: ownedBy t w'.ledger.shipped := moves_shipped (step_moves sound stepped t)
  exact (shipped.filter _).map _

theorem own_given (sound : Sound tidOf r.recorder.world) (own : Own tidOf sinks r r') (t : T) :
    acceptedOf (ownedBy t r.recorder.world.ledger.shipped) <+:
      acceptedOf (ownedBy t r'.recorder.world.ledger.shipped) := by
  rcases own_world own with ⟨limit,drained⟩ | ⟨floor,same⟩
  · exact accepted_grows sound drained t
  · rw [same]
    exact List.prefix_rfl

theorem own_sent (own : Own tidOf sinks r r') : r'.sent = r.sent := by
  cases own <;> rfl

-- A job collects what it works on from a drain that finds nothing, so all the rings had been
-- given is drained.
theorem entitled_absorb (entitled : Entitled r) (sound : Sound tidOf r.recorder.world) (tallied : Tallied sinks r)
    {recorder : Recorder T} (absorbed : r.recorder.absorbStep tidOf = some recorder)
    {order : Sent T} {last : Bool} {goal : Goal} {tails : List (T × EventBatch)}
    (here : r.stand = .handling order last .gathering) (phase : recorder.phase = .collected goal tails) (t : T) :
    ownedBy t order.shipped <+: ownedBy t recorder.world.ledger.drained := by
  have stepped : r.recorder.step tidOf .absorb = some recorder := absorbed
  rcases reaches_collected stepped phase with
    ⟨_,a,w,_,_,_,_,record | ⟨u,exit,_⟩⟩ | ⟨_,_,nothing,_,drained,_⟩
  · cases record
  · cases exit
  · have waiting : order ∈ r.sent := by
      rw [← tallied.sent,here]
      simp [Stand.taken]
    have kept : acceptedOf (ownedBy t r.recorder.world.ledger.shipped) =
        ownedBy t r.recorder.world.ledger.drained ++ r.recorder.world.queue.held t := (sound.threads t).kept
    rw [drain_none nothing t,List.append_nil] at kept
    rw [drained,← kept]
    exact entitled.given order waiting t

theorem entitled_own (entitled : Entitled r) (sound : Sound tidOf r.recorder.world) (tallied : Tallied sinks r)
    (own : Own tidOf sinks r r') : Entitled r' := by
  refine ⟨?_,?_⟩
  · rw [own_sent own]
    exact fun order waiting t => (entitled.given order waiting t).trans (own_given sound own t)
  · intro order last goal tails here phase t
    cases own with
    | turn stand ticker free there closing empty =>
      rw [show stand = _ from here] at there
      cases there
    | absorb limit stand recorder free there closing open_ absorbed =>
      rw [show stand = _ from here] at there
      cases there
    | jobAbsorb recorder absorbed busy => exact entitled_absorb entitled sound tallied absorbed here phase t
    | job act recorder next stepped => exact absurd phase (jobStep_collected stepped)
    | dump order' last' start end_ rest before asks => cases phase
    | opened order' last' id start before msg => exact absurd here (back_other last')
    | cancelled order' last' id before msg => exact absurd here (back_other last')
    | acked order' last' path before => exact absurd here (back_other last')
    | _ => cases here

structure Answers (clock : Clock) (d : DumpRun T) : Prop extends Told clock d where
  fetched : ∀ t, ownedBy t d.order.shipped <+: ownedBy t d.absorbed

structure Closing (tidOf : T → UInt32) (sinks : Sinks) (capacity : Nat) (clock : Clock) (r : RunRecorder T) : Prop where
  shut : Shut r ∧ Sound tidOf r.recorder.world
  timed : r.recorder.world.queue.clock = clock
  guarded : Guarded capacity r
  entitled : Entitled r
  settled : Tallied sinks r ∧ Poised r ∧ Dumps (Answers clock) r

theorem closing_step {capacity : Nat} (closing : Closing tidOf sinks capacity clock r) (prompt : Prompt r act)
    (stepped : r.step tidOf sinks act = some r') : Closing tidOf sinks capacity clock r' := by
  obtain ⟨⟨shut,sound⟩,same,guarded,entitled,settled⟩ := closing
  have next := settled_step (Q := Answers clock)
    (fun d _ _ held => ⟨⟨held.asked,held.split⟩,held.fetched⟩)
    (fun order last start end_ tails path here phase =>
      ⟨gathered_told same guarded settled.2.1 here phase,entitled.fetched order last _ tails here phase⟩) settled stepped
  have closed := shut_step ⟨shut,sound⟩ prompt stepped
  rcases step_cases stepped with ⟨a,w,_,undrained,moved,rfl⟩ | ⟨msg,_,rfl⟩ | ⟨_,own⟩
  · have rest := step_rest sound moved
    have drained : w.ledger.drained = r.recorder.world.ledger.drained := rest.drained undrained
    refine ⟨closed,rest.clock.trans same,guarded_same guarded rfl rfl drained rfl,⟨?_,?_⟩,next⟩
    · exact fun order waiting t => (entitled.given order waiting t).trans (accepted_grows sound moved t)
    · intro order last goal tails here phase t
      simp only [Recorder.withWorld,drained]
      exact entitled.fetched order last goal tails here phase t
  · refine ⟨closed,same,guarded_same guarded rfl rfl rfl rfl,⟨?_,entitled.fetched⟩,next⟩
    intro order present t
    rcases List.mem_append.mp present with earlier | now
    · exact entitled.given order earlier t
    · rw [List.mem_singleton.mp now,accepted_owned]
  · exact ⟨closed,(own_clock sound own).trans same,guarded_own guarded own,
      entitled_own entitled sound settled.1 own,next⟩

theorem initial_closing (id : Nat) (clock : Clock) (capacity : Nat) :
    Closing tidOf sinks capacity clock (initial (T := T) id clock capacity) :=
  ⟨initial_shut id clock capacity,rfl,⟨rfl,rfl,rfl,by simp [initial]⟩,
    ⟨by simp [initial],by simp [initial]⟩,initial_settled id clock capacity⟩

theorem recorder_closes (tidOf : T → UInt32) (sinks : Sinks) (id : Nat) (clock : Clock) (capacityBytes : Nat)
    {acts : List (RunAct T)} (path : Machine.Runs (step tidOf sinks) Prompt (initial id clock capacityBytes) acts r) :
    r.acks <+: r.dumps.filterMap (fun d => d.order.msg.done.map (·,d.path)) ∧
      (∀ d ∈ r.dumps, d.written.flatten = d.events ∧
        (∃ start end_ rest, d.order.msg.asks = some (start,end_,rest) ∧
          d.events = assemble d.history d.tails clock d.horizonTicks start end_) ∧
        d.absorbed.map (·.2) = d.evicted.map (·.batch) ++ d.history ∧
        ∀ t, ownedBy t d.order.shipped <+: ownedBy t d.absorbed) ∧
      ((∀ k reason, (sinks k reason).failsAt = none) → ∀ order, r.stand ≠ .failed order) ∧
      (r.stand = .returned → r.handled.map (·.1) = r.sent ∧
        r.dumps.map (·.order) = r.sent.filter (·.msg.asks.isSome) ∧
        r.acks = r.dumps.filterMap fun d => d.order.msg.done.map (·,d.path)) := by
  have start : Closing tidOf sinks capacityBytes clock (initial (T := T) id clock capacityBytes) :=
    initial_closing id clock capacityBytes
  have closing := path.invariant start
    fun _ _ _ closing prompt stepped => closing_step closing prompt stepped
  obtain ⟨tallied,_,answers⟩ := closing.settled
  have acks : r.acks ++ r.stand.owed = r.dumps.filterMap fun d => d.order.msg.done.map (·,d.path) := tallied.acks
  refine ⟨⟨_,acks⟩,?_,?_,?_⟩
  · intro d present
    have held := answers.finished d present
    exact ⟨tallied.written d present,held.asked,held.split,held.fetched⟩
  · intro works order gone
    have fits := tallied.fits
    rw [gone] at fits
    exact fits.2 (works _ _)
  · intro done
    have sent := tallied.sent
    have dumps := tallied.dumps
    rw [done] at sent dumps acks
    rw [closing.shut.1.empty done] at sent
    have handled : r.handled.map (·.1) = r.sent := by simpa [Stand.taken] using sent
    refine ⟨handled,?_,by simpa [Stand.owed] using acks⟩
    rw [dumps,handled]
    simp only [Stand.dumped,List.append_nil]
    rfl

-- A flush, a last dump and the close, before the recorder thread has looked once.
def flushThenEnd : List (RunAct Unit) :=
  [.outside (.push () 1 100 7 .Begin),.outside (.arm ()),.outside (.write ()),.outside (.flush ()),
    .outside (.take ()),.outside (.arm ()),.outside (.handOver ()),.send (.dumpAll 200 "exit" (some 0)),
    .outside .close] ++ List.replicate 27 (.own 300)

theorem recorder_closes_flushed : ∃ r : RunRecorder Unit, r.stand = .returned ∧ r.sent.length = 1 ∧
    r.handled.map (·.1) = r.sent ∧ r.dumps.map (·.order) = r.sent.filter (·.msg.asks.isSome) ∧
    r.acks = r.dumps.filterMap fun d => d.order.msg.done.map (·,d.path) := by
  have ran : (Machine.checkedRun (step (fun _ => 1) fun _ reason => ⟨reason,none⟩) testsPrompt
      (initial 1 .mock 1000000) flushThenEnd).map
        (fun r => (match r.stand with | .returned => true | _ => false,r.sent.length)) = some (true,1) := by
    decide +kernel
  obtain ⟨r,run,facts⟩ := Option.map_eq_some_iff.mp ran
  simp only [Prod.mk.injEq] at facts
  obtain ⟨done,one⟩ := facts
  have returned : r.stand = .returned := by
    split at done
    · assumption
    · cases done
  exact ⟨r,returned,one,(recorder_closes (fun _ => 1) _ 1 .mock 1000000
    (Machine.runs_of_checked testsPrompt_meets run)).2.2.2 returned⟩

end RunRecorder
end Trace0
