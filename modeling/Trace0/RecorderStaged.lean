import Trace0.RecorderClose
import Trace0.RecorderReturns

namespace Trace0
namespace RunRecorder
open Machine

variable {T : Type} [DecidableEq T] {tidOf : T → UInt32} {sinks : Sinks} {r r' : RunRecorder T} {order : Sent T}
  {last : Bool}

theorem staged_job {act : RecorderAct T} {goal : Goal} (next : r.recorder.phase.act = some act)
    (at_ : r.recorder.phase.goal = some goal) (stepped : r.job tidOf = some r') :
    r'.stand = r.stand ∧ (r'.recorder.phase.goal = some goal ∨ r'.recorder.phase = .idle ∧ ∃ now, goal = .floor now) := by
  obtain ⟨recorder,evictions,job,_,after⟩ := job_goes tidOf next at_
  cases stepped.symm.trans job
  exact ⟨rfl,after⟩

theorem staged_floor {now : UInt64} (at_ : r.recorder.phase.goal = some (.floor now)) (stepped : r.job tidOf = some r') :
    r'.stand = r.stand ∧ (r'.recorder.phase = .idle ∨ ∃ now, r'.recorder.phase.goal = some (.floor now)) := by
  rcases goal_acts at_ with ⟨act,next⟩ | ⟨_,_,_,other,_⟩
  · obtain ⟨same,still | ⟨idle,_⟩⟩ := staged_job next at_ stepped
    · exact ⟨same,.inr ⟨now,still⟩⟩
    · exact ⟨same,.inl idle⟩
  · cases other

omit [DecidableEq T] in
theorem staged_rewindow {act : RecorderAct T} {stand : Stand T} (idle : r.recorder.phase = .idle)
    (windows : (∃ id start, act = .open_ id start) ∨ ∃ id, act = .cancel id) (free : stand.Staged .idle)
    (stepped : r.rewindow order act stand = some r') : r'.stand.Staged r'.recorder.phase := by
  obtain ⟨m,goes,stands,_,phase⟩ := rewindow_goes idle order windows stand
  cases stepped.symm.trans goes
  rw [stands,phase]
  exact free

theorem staged_handle {now : UInt64} {at_ : Handling T} (here : r.stand = .handling order last at_)
    (staged : (Stand.handling order last at_).Staged r.recorder.phase)
    (stepped : r.handleStep tidOf sinks now order last at_ = some r') : r'.stand.Staged r'.recorder.phase := by
  have free : (back last : Stand T).Staged .idle := by cases last <;> rfl
  cases at_ with
  | begun =>
    have idle : r.recorder.phase = .idle := staged
    cases msg : order.msg with
    | open_ id start =>
      simp only [handleStep,msg] at stepped
      exact staged_rewindow idle (.inl ⟨id,start,rfl⟩) free stepped
    | cancel id =>
      simp only [handleStep,msg] at stepped
      exact staged_rewindow idle (.inr ⟨id,rfl⟩) free stepped
    | dump id start end_ reason done =>
      simp only [handleStep,msg,Recorder.jobStep,idle,Option.map_some] at stepped
      cases stepped
      exact ⟨start,end_,rfl⟩
    | dumpAll end_ reason done =>
      simp only [handleStep,msg,Recorder.jobStep,idle,Option.map_some] at stepped
      cases stepped
      exact ⟨0,end_,rfl⟩
  | gathering =>
    obtain ⟨start,end_,goal⟩ := staged
    rcases goal_acts goal with ⟨act,next⟩ | ⟨_,_,tails,_,phase⟩
    · have job : r.job tidOf = some r' := by
        simp only [handleStep] at stepped
        split at stepped
        · rename_i phase
          rw [phase] at next
          cases next
        · exact stepped
      obtain ⟨same,still | ⟨_,_,other⟩⟩ := staged_job next goal job
      · rw [same,here]
        exact ⟨start,end_,still⟩
      · cases other
    · simp only [handleStep,phase,Recorder.jobStep,Option.map_some] at stepped
      split at stepped
      · cases stepped
        change _ ∨ _
        unfold nextChunk
        split
        · exact .inl rfl
        · exact .inr (.inl ⟨_,_,rfl⟩)
      · cases stepped
        trivial
  | writing run =>
    rcases staged with idle | ⟨chunk,rest,phase⟩ | ⟨rest,phase⟩
    · simp only [handleStep,idle] at stepped
      split at stepped
      · cases stepped
        exact idle
      · cases stepped
        trivial
    · simp only [handleStep,phase,Recorder.jobStep,Option.map_some] at stepped
      cases stepped
      split
      · dsimp only
        exact .inr (.inr ⟨rest,rfl⟩)
      · trivial
    · obtain ⟨recorder,got,absorbed,after,_,_⟩ := absorb_goes tidOf r.recorder usizeMax fun _ => nextChunk rest
      have absorbs : r.recorder.step tidOf .absorb = some recorder := by
        simp only [Recorder.step,Recorder.absorbStep,phase]
        exact absorbed
      simp only [handleStep,phase,job,Phase.act,Option.bind_eq_bind,Option.bind_some,absorbs] at stepped
      cases stepped
      change (r.stand).Staged recorder.phase
      rw [here,after]
      unfold nextChunk
      split
      · exact .inl rfl
      · exact .inr (.inl ⟨_,_,rfl⟩)
  | dumped path =>
    have idle : r.recorder.phase = .idle := staged
    simp only [handleStep] at stepped
    have windowed : (Stand.handling order last (.windowed path)).Staged (.idle : Phase T) := rfl
    split at stepped
    · exact staged_rewindow idle (.inr ⟨_,rfl⟩) windowed stepped
    · cases stepped
      exact idle
  | windowed path =>
    have idle : r.recorder.phase = .idle := staged
    simp only [handleStep,Recorder.jobStep,idle,Option.map_some] at stepped
    cases stepped
    exact .inr ⟨now,rfl⟩
  | flooring path =>
    rcases staged with idle | ⟨when_,goal⟩
    · simp only [handleStep,idle] at stepped
      cases stepped
      exact idle
    · have job : r.job tidOf = some r' := by
        simp only [handleStep] at stepped
        split at stepped
        · rename_i idle
          rw [idle] at goal
          cases goal
        · exact stepped
      obtain ⟨same,after⟩ := staged_floor goal job
      rw [same,here]
      exact after
  | acking path =>
    have idle : r.recorder.phase = .idle := staged
    simp only [handleStep] at stepped
    cases stepped
    change (back last).Staged r.recorder.phase
    rw [idle]
    exact free

theorem staged_own {now : UInt64} (staged : r.stand.Staged r.recorder.phase) (stepped : r.ownStep tidOf sinks now = some r') :
    r'.stand.Staged r'.recorder.phase := by
  have received {last : Bool} {empty : Stand T} (idle : r.recorder.phase = .idle) (free : empty.Staged .idle) :
      (r.receive last empty).stand.Staged (r.receive last empty).recorder.phase := by
    unfold receive
    split
    · change empty.Staged r.recorder.phase
      rw [idle]
      exact free
    · exact idle
  have absorbed {limit : Nat} {stand : Nat → Stand T} (free : ∀ got, (stand got).Staged .idle)
      (stepped : r.absorb tidOf limit stand = some r') : r'.stand.Staged r'.recorder.phase := by
    obtain ⟨m,got,absorbed,next,_,idle,_⟩ := absorb_alone tidOf limit stand r
    cases stepped.symm.trans absorbed
    rw [next,idle]
    exact free got
  unfold ownStep at stepped
  cases here : r.stand with
  | polling =>
    rw [here] at staged stepped
    cases stepped
    exact received staged rfl
  | ticking =>
    rw [here] at staged stepped
    have idle : r.recorder.phase = .idle := staged
    dsimp only at stepped
    split at stepped
    · simp only [Recorder.jobStep,idle,Option.map_some] at stepped
      cases stepped
      exact .inr ⟨now,rfl⟩
    · cases stepped
      exact idle
  | flooring =>
    rw [here] at staged stepped
    rcases staged with idle | ⟨when_,goal⟩
    · simp only [idle] at stepped
      cases stepped
      exact idle
    · have job : r.job tidOf = some r' := by
        dsimp only at stepped
        split at stepped
        · rename_i idle
          rw [idle] at goal
          cases goal
        · exact stepped
      obtain ⟨same,after⟩ := staged_floor goal job
      rw [same,here]
      exact after
  | absorbing =>
    rw [here] at stepped
    refine absorbed ?_ stepped
    intro got
    split <;> rfl
  | asking =>
    rw [here] at staged stepped
    cases stepped
    dsimp only
    split <;> exact staged
  | absorbingAll =>
    rw [here] at stepped
    refine absorbed ?_ stepped
    intro got
    split <;> rfl
  | lastPolling =>
    rw [here] at staged stepped
    cases stepped
    exact received staged rfl
  | handling order last at_ =>
    rw [here] at staged stepped
    exact staged_handle here staged stepped
  | failed order =>
    rw [here] at stepped
    cases stepped
  | returned =>
    rw [here] at stepped
    cases stepped

theorem staged_step {act : RunAct T} (staged : r.stand.Staged r.recorder.phase) (stepped : r.step tidOf sinks act = some r') :
    r'.stand.Staged r'.recorder.phase := by
  cases act with
  | own now => exact staged_own staged stepped
  | _ =>
    rcases step_cases stepped with ⟨a,w,_,_,_,rfl⟩ | ⟨msg,_,rfl⟩ | ⟨⟨now,other⟩,_⟩
    · exact staged
    · exact staged
    · cases other

-- What is known of a recorder whatever came before, and stays so while it is alone.
structure Kempt (tidOf : T → UInt32) (sinks : Sinks) (sent : List (Sent T)) (r : RunRecorder T) : Prop where
  staged : r.stand.Staged r.recorder.phase
  settled : Tallied sinks r ∧ Poised r ∧ Dumps (fun _ => True) r
  shut : Shut r ∧ Sound tidOf r.recorder.world
  sent : r.sent = sent

theorem kempt_alone {sent : List (Sent T)} {now : UInt64} (kempt : Kempt tidOf sinks sent r)
    (stepped : alone tidOf sinks r now = some r') : Kempt tidOf sinks sent r' := by
  have step : r.step tidOf sinks (.own now) = some r' := stepped
  have prompt : Prompt r (.own now) := trivial
  exact ⟨staged_own kempt.staged stepped,
    settled_step (fun _ _ _ held => held) (fun _ _ _ _ _ _ _ _ => trivial) kempt.settled step,
    shut_step kempt.shut prompt step,(own_sent (own_cases stepped)).trans kempt.sent⟩

def Failing (sinks : Sinks) (r : RunRecorder T) : Prop :=
  ∃ order, r.stand = .failed order ∧ (sinks r.dumps.length order.msg.reason).failsAt ≠ none

structure Answered (sent : List (Sent T)) (r : RunRecorder T) : Prop where
  handled : r.handled.map (·.1) = sent
  dumps : r.dumps.map (·.order) = sent.filter (·.msg.asks.isSome)
  acks : r.acks = r.dumps.filterMap fun d => d.order.msg.done.map (·,d.path)

omit [DecidableEq T] in
theorem lost_failing (tallied : Tallied sinks r) (lost : Lost r) : Failing sinks r := by
  obtain ⟨order,stand⟩ := lost
  have fits := tallied.fits
  rw [stand] at fits
  exact ⟨order,stand,fits.2⟩

omit [DecidableEq T] in
theorem free_answered (tallied : Tallied sinks r) (free : r.stand.order = none) (empty : r.control = []) :
    Answered r.sent r := by
  obtain ⟨taken,dumped,owed,_⟩ := free_stand sinks free r.dumps.length
  have sent := tallied.sent
  have dumps := tallied.dumps
  have acks := tallied.acks
  rw [taken,empty,List.append_nil,List.append_nil] at sent
  rw [dumped,List.append_nil,sent] at dumps
  rw [owed,List.append_nil] at acks
  exact ⟨sent,dumps,acks⟩

theorem answers_eventually {sent : List (Sent T)} (kempt : Kempt tidOf sinks sent r) :
    Eventually (alone tidOf sinks) (fun m => Answered sent m ∨ Failing sinks m) r := by
  have rests : Eventually (alone tidOf sinks) Rests r := rests_eventually kempt.staged
  refine (rests.keeping kempt fun _ _ _ inv stepped => kempt_alone inv stepped).mono ?_
  rintro m ⟨⟨⟨last,stands⟩,empty,_⟩ | lost | returned,kept⟩
  · left
    rw [← kept.sent]
    refine free_answered kept.settled.1 ?_ empty
    rw [stands]
    exact back_order last
  · exact .inr (lost_failing kept.settled.1 lost)
  · left
    rw [← kept.sent]
    refine free_answered kept.settled.1 ?_ (kept.shut.1.empty returned)
    rw [returned]
    rfl

theorem returns_eventually {sent : List (Sent T)} (kempt : Kempt tidOf sinks sent r)
    (closed : r.recorder.world.queue.closed = true) :
    Eventually (alone tidOf sinks) (fun m => m.stand = .returned ∨ Failing sinks m) r := by
  have rests : Eventually (alone tidOf sinks) (fun m => Lost m ∨ m.stand = .returned) r := by
    have rests : Eventually (alone tidOf sinks) Rests r := rests_eventually kempt.staged
    have spent := rests.keeping
      (I := Spent r.recorder.world.queue.closed r.recorder.world.queue.loaded) ⟨rfl,Nat.le_refl _⟩
      fun _ now _ inv stepped => spent_step now inv stepped
    refine spent.bind ?_
    rintro m ⟨idle | lost | returned,shut,_⟩
    · exact idle_returns _ idle (shut.trans closed) (Nat.le_refl _)
    · exact .now (.inl lost)
    · exact .now (.inr returned)
  refine (rests.keeping kempt fun _ _ _ inv stepped => kempt_alone inv stepped).mono ?_
  rintro m ⟨lost | returned,kept⟩
  · exact .inr (lost_failing kept.settled.1 lost)
  · exact .inl returned

theorem kempt_runs {id : Nat} {clock : Clock} {capacityBytes : Nat} {acts : List (RunAct T)}
    (path : Machine.Runs (step tidOf sinks) Prompt (initial id clock capacityBytes) acts r) :
    Kempt tidOf sinks r.sent r := by
  have start : Kempt tidOf sinks (initial (T := T) id clock capacityBytes).sent (initial id clock capacityBytes) :=
    ⟨rfl,initial_settled id clock capacityBytes,initial_shut id clock capacityBytes,rfl⟩
  refine path.invariant (I := fun r => Kempt tidOf sinks r.sent r) start ?_
  intro m act m' kept prompt stepped
  exact ⟨staged_step kept.staged stepped,
    settled_step (fun _ _ _ held => held) (fun _ _ _ _ _ _ _ _ => trivial) kept.settled stepped,
    shut_step kept.shut prompt stepped,rfl⟩

theorem recorder_returns (tidOf : T → UInt32) (sinks : Sinks) (id : Nat) (clock : Clock) (capacityBytes : Nat)
    {acts : List (RunAct T)} (path : Machine.Runs (step tidOf sinks) Prompt (initial id clock capacityBytes) acts r)
    (nows : Nat → UInt64) :
    (∃ n m, run (alone tidOf sinks) r ((List.range n).map nows) = some m ∧ (Answered r.sent m ∨ Failing sinks m)) ∧
    (r.recorder.world.queue.closed = true →
      ∃ n m, run (alone tidOf sinks) r ((List.range n).map nows) = some m ∧ (m.stand = .returned ∨ Failing sinks m)) := by
  have kempt := kempt_runs path
  exact ⟨(answers_eventually kempt).reached nows,fun closed => (returns_eventually kempt closed).reached nows⟩

theorem recorder_returns_last : ∃ r m : RunRecorder Unit, r.stand.order = none ∧ r.control.length = 1 ∧
    ∃ n, run (alone (fun _ => 1) fun _ reason => ⟨reason,none⟩) r ((List.range n).map fun _ => 300) = some m ∧
      (m.stand = .returned ∨ Failing (fun _ reason => ⟨reason,none⟩) m) := by
  have ran : (Machine.checkedRun (step (fun _ => 1) fun _ reason => ⟨reason,none⟩) testsPrompt (initial 1 .mock 1000000)
      [.outside (.push () 1 100 7 .Begin),.send (.dumpAll 200 "exit" none),.outside .close]).map
        (fun r => ((match r.stand with | .polling => true | _ => false),r.control.length,r.recorder.world.queue.closed)) =
          some (true,1,true) := by
    decide +kernel
  obtain ⟨r,begun,facts⟩ := Option.map_eq_some_iff.mp ran
  simp only [Prod.mk.injEq] at facts
  obtain ⟨polls,one,closed⟩ := facts
  have polling : r.stand = .polling := by
    split at polls
    · assumption
    · cases polls
  obtain ⟨n,m,path,over_⟩ := (recorder_returns (fun _ => 1) (fun _ reason => ⟨reason,none⟩) 1 .mock 1000000
    (Machine.runs_of_checked testsPrompt_meets begun) fun _ => 300).2 closed
  exact ⟨r,m,by rw [polling]; rfl,one,n,path,over_⟩

end RunRecorder

end Trace0
