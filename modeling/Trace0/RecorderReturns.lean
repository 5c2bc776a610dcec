import Trace0.RecorderAlone

namespace Trace0

def Phase.left : Phase T → Nat
  | .writing _ rest => 2*rest.length+2
  | .wrote rest => 2*rest.length+1
  | _ => 0

def Stand.Staged (phase : Phase T) : Stand T → Prop
  | .flooring | .handling _ _ (.flooring _) => phase = .idle ∨ ∃ now, phase.goal = some (.floor now)
  | .handling _ _ .gathering => ∃ start end_, phase.goal = some (.dump start end_)
  | .handling _ _ (.writing _) => phase = .idle ∨ (∃ chunk rest, phase = .writing chunk rest) ∨ ∃ rest, phase = .wrote rest
  | .failed _ => True
  | _ => phase = .idle

namespace RunRecorder
open Machine

variable {T : Type} [DecidableEq T] {tidOf : T → UInt32} {sinks : Sinks} {r r' : RunRecorder T} {order : Sent T}
  {last : Bool} {control : List (Sent T)}

def Lost (r : RunRecorder T) : Prop := ∃ order, r.stand = .failed order

omit [DecidableEq T] in
theorem nextChunk_left (rest : List Event) : (nextChunk (T := T) rest).left < 2*rest.length+1 := by
  unfold nextChunk
  split
  · exact Nat.succ_pos _
  · rename_i some_
    have length := List.length_pos_iff.mpr some_
    simp only [Phase.left,List.length_drop,writeChunk]
    omega

omit [DecidableEq T] in
theorem goal_acts {phase : Phase T} {goal : Goal} (at_ : phase.goal = some goal) :
    (∃ act, phase.act = some act) ∨ ∃ start end_ tails, goal = .dump start end_ ∧ phase = .collected goal tails := by
  cases phase with
  | idle | writing | wrote | stopped => cases at_
  | reading goal' todo tails =>
    cases todo with
    | nil => exact .inl ⟨_,rfl⟩
    | cons => exact .inl ⟨_,rfl⟩
  | collected goal' tails =>
    cases at_
    cases goal with
    | dump start end_ => exact .inr ⟨start,end_,tails,rfl,rfl⟩
    | floor now => exact .inl ⟨_,rfl⟩
  | _ => exact .inl ⟨_,rfl⟩

theorem floor_eventually {stand : Stand T}
    (waits : ∀ (r : RunRecorder T) now, r.stand = stand → r.recorder.phase ≠ .idle → alone tidOf sinks r now = r.job tidOf)
    (here : r.stand = stand) (at_ : r.recorder.phase = .idle ∨ ∃ now, r.recorder.phase.goal = some (.floor now)) :
    Eventually (alone tidOf sinks) (fun r' => r'.stand = stand ∧ r'.control = r.control ∧ r'.recorder.phase = .idle) r := by
  refine Eventually.measure (I := fun m => m.stand = stand ∧ m.control = r.control ∧
    (m.recorder.phase = .idle ∨ ∃ now, m.recorder.phase.goal = some (.floor now))) (fun m => m.recorder.ahead) ?_
    ⟨here,rfl,at_⟩
  rintro m ⟨stands,control,idle | ⟨now,goal⟩⟩
  · exact .inl ⟨stands,control,idle⟩
  · right
    intro given
    have busy : m.recorder.phase ≠ .idle := by
      intro idle
      rw [idle] at goal
      cases goal
    obtain ⟨act,next⟩ : ∃ act, m.recorder.phase.act = some act := by
      rcases goal_acts goal with next | ⟨_,_,_,other,_⟩
      · exact next
      · cases other
    obtain ⟨recorder,evictions,job,less,after⟩ := job_goes tidOf next goal
    refine ⟨_,(waits m given stands busy).trans job,⟨stands,control,?_⟩,less⟩
    rcases after with still | ⟨idle,_⟩
    · exact .inr ⟨now,still⟩
    · exact .inl idle

theorem gather_eventually (here : r.stand = .handling order last .gathering)
    (at_ : ∃ start end_, r.recorder.phase.goal = some (.dump start end_)) :
    Eventually (alone tidOf sinks) (fun r' => r'.stand = .handling order last .gathering ∧ r'.control = r.control ∧
      ∃ start end_ tails, r'.recorder.phase = .collected (.dump start end_) tails) r := by
  refine Eventually.measure (I := fun m => m.stand = .handling order last .gathering ∧ m.control = r.control ∧
    ∃ start end_, m.recorder.phase.goal = some (.dump start end_)) (fun m => m.recorder.ahead) ?_ ⟨here,rfl,at_⟩
  rintro m ⟨stands,control,start,end_,goal⟩
  rcases goal_acts goal with ⟨act,next⟩ | ⟨_,_,tails,same,phase⟩
  · right
    intro given
    obtain ⟨recorder,evictions,job,less,after⟩ := job_goes tidOf next goal
    have stepped : alone tidOf sinks m given = m.job tidOf := by
      simp only [alone,ownStep,stands,handleStep]
      split
      · rename_i phase
        rw [phase] at next
        cases next
      · rfl
    refine ⟨_,stepped.trans job,⟨stands,control,?_⟩,less⟩
    rcases after with still | ⟨_,now,floor⟩
    · exact ⟨start,end_,still⟩
    · cases floor
  · exact .inl ⟨stands,control,start,end_,tails,phase⟩

theorem write_eventually {run : DumpRun T} (here : r.stand = .handling order last (.writing run))
    (at_ : (Stand.handling order last (.writing run)).Staged r.recorder.phase) :
    Eventually (alone tidOf sinks) (fun r' => (∃ run, r'.stand = .handling order last (.writing run) ∧
      r'.control = r.control ∧ r'.recorder.phase = .idle) ∨ Lost r') r := by
  refine Eventually.measure (I := fun m => (∃ run, m.stand = .handling order last (.writing run) ∧ m.control = r.control ∧
    (Stand.handling order last (.writing run)).Staged m.recorder.phase) ∨ Lost m) (fun m => m.recorder.phase.left) ?_
    (.inl ⟨run,here,rfl,at_⟩)
  rintro m (⟨run,stands,control,idle | ⟨chunk,rest,phase⟩ | ⟨rest,phase⟩⟩ | lost)
  · exact .inl (.inl ⟨run,stands,control,idle⟩)
  · right
    intro given
    simp only [alone,ownStep,stands,handleStep,phase,Recorder.jobStep,Option.map_some]
    by_cases ok : (sinks m.dumps.length order.msg.reason).writes run.written.length = true
    · simp only [ok,if_true]
      refine ⟨_,rfl,.inl ⟨_,rfl,control,.inr (.inr ⟨rest,rfl⟩)⟩,?_⟩
      simp [Phase.left]
    · rw [Bool.not_eq_true] at ok
      simp only [ok]
      refine ⟨_,rfl,.inr ⟨order,rfl⟩,?_⟩
      simp [Phase.left]
  · right
    intro given
    obtain ⟨recorder,got,absorbed,after,_,_⟩ := absorb_goes tidOf m.recorder usizeMax
      fun _ => nextChunk rest
    have stepped : m.recorder.step tidOf .absorb = some recorder := by
      simp only [Recorder.step,Recorder.absorbStep,phase]
      exact absorbed
    simp only [alone,ownStep,stands,handleStep,phase,job,Phase.act,Option.bind_eq_bind,Option.bind_some,stepped]
    refine ⟨_,rfl,.inl ⟨run,rfl,control,?_⟩,?_⟩
    · change recorder.phase = _ ∨ _
      rw [after]
      unfold nextChunk
      split
      · exact .inl rfl
      · exact .inr (.inl ⟨_,_,rfl⟩)
    · change recorder.phase.left < _
      rw [after]
      exact nextChunk_left rest
  · exact .inl (.inr lost)

omit [DecidableEq T] in
theorem rewindow_goes (idle : r.recorder.phase = .idle) (order : Sent T) {act : RecorderAct T}
    (windows : (∃ id start, act = .open_ id start) ∨ ∃ id, act = .cancel id) (stand : Stand T) :
    ∃ r', r.rewindow order act stand = some r' ∧ r'.stand = stand ∧ r'.control = r.control ∧
      r'.recorder.phase = .idle := by
  obtain ⟨recorder,stepped,phase⟩ : ∃ recorder, r.recorder.jobStep act = some recorder ∧ recorder.phase = .idle := by
    rcases windows with ⟨id,start,rfl⟩ | ⟨id,rfl⟩
    · simp only [Recorder.jobStep,idle]
      exact ⟨_,rfl,rfl⟩
    · simp only [Recorder.jobStep,idle]
      exact ⟨_,rfl,rfl⟩
  exact ⟨_,Option.map_eq_some_iff.mpr ⟨recorder,stepped,rfl⟩,rfl,rfl,phase⟩

def Handled (last : Bool) (control : List (Sent T)) (r : RunRecorder T) : Prop :=
  (r.stand = back last ∧ r.control = control ∧ r.recorder.phase = .idle) ∨ Lost r

theorem acking_eventually {path : String} (here : r.stand = .handling order last (.acking path))
    (idle : r.recorder.phase = .idle) (held : r.control = control) : Eventually (alone tidOf sinks) (Handled last control) r := by
  refine .once fun now => ⟨{r with
    acks := r.acks ++ (order.msg.done.map (·,path)).toList
    stand := back last},?_,.now (.inl ⟨rfl,held,idle⟩)⟩
  simp only [alone,ownStep,here,handleStep]

theorem flooring_eventually {path : String} (here : r.stand = .handling order last (.flooring path))
    (at_ : r.recorder.phase = .idle ∨ ∃ now, r.recorder.phase.goal = some (.floor now)) (held : r.control = control) :
    Eventually (alone tidOf sinks) (Handled last control) r := by
  have waits (r : RunRecorder T) (now : UInt64) (stands : r.stand = .handling order last (.flooring path))
      (busy : r.recorder.phase ≠ .idle) : alone tidOf sinks r now = r.job tidOf := by
    simp only [alone,ownStep,stands,handleStep]
  refine (floor_eventually waits here at_).bind ?_
  rintro m ⟨stands,same,idle⟩
  refine .once fun now => ⟨{m with stand := .handling order last (.acking path)},?_,
    acking_eventually rfl idle (same.trans held)⟩
  simp only [alone,ownStep,stands,handleStep,idle]

theorem windowed_eventually {path : String} (here : r.stand = .handling order last (.windowed path))
    (idle : r.recorder.phase = .idle) (held : r.control = control) : Eventually (alone tidOf sinks) (Handled last control) r := by
  refine .once fun now => ⟨{r with
    recorder := r.recorder.begin_ (.locking (.floor now))
    stand := .handling order last (.flooring path)},?_,flooring_eventually rfl (.inr ⟨now,rfl⟩) held⟩
  simp [alone,ownStep,here,handleStep,Recorder.jobStep,idle]

theorem dumped_eventually {path : String} (here : r.stand = .handling order last (.dumped path))
    (idle : r.recorder.phase = .idle) (held : r.control = control) : Eventually (alone tidOf sinks) (Handled last control) r := by
  refine .once fun now => ?_
  cases ends : order.msg.ends with
  | none =>
    refine ⟨{r with
      handled := r.handled ++ [(order,r.recorder.world.ledger.drained.length)]
      stand := .handling order last (.windowed path)},?_,windowed_eventually rfl idle held⟩
    simp only [alone,ownStep,here,handleStep,ends]
  | some id =>
    obtain ⟨m,stepped,stands,same,phase⟩ := rewindow_goes idle order (.inr ⟨id,rfl⟩)
      (.handling order last (.windowed path))
    refine ⟨m,?_,windowed_eventually stands phase (same.trans held)⟩
    simp only [alone,ownStep,here,handleStep,ends]
    exact stepped

theorem writing_eventually {run : DumpRun T} (here : r.stand = .handling order last (.writing run))
    (at_ : (Stand.handling order last (.writing run)).Staged r.recorder.phase) (held : r.control = control) :
    Eventually (alone tidOf sinks) (Handled last control) r := by
  refine (write_eventually here at_).bind ?_
  rintro m (⟨run,stands,same,idle⟩ | lost)
  · refine .once fun now => ?_
    simp only [alone,ownStep,stands,handleStep,idle]
    split
    · exact ⟨_,rfl,dumped_eventually rfl idle (same.trans held)⟩
    · exact ⟨_,rfl,.now (.inr ⟨order,rfl⟩)⟩
  · exact .now (.inr lost)

theorem gathering_eventually (here : r.stand = .handling order last .gathering)
    (at_ : ∃ start end_, r.recorder.phase.goal = some (.dump start end_)) (held : r.control = control) :
    Eventually (alone tidOf sinks) (Handled last control) r := by
  refine (gather_eventually here at_).bind ?_
  rintro m ⟨stands,same,start,end_,tails,phase⟩
  refine .once fun now => ?_
  simp only [alone,ownStep,stands,handleStep,phase,Recorder.jobStep,Option.map_some]
  split
  · refine ⟨_,rfl,writing_eventually rfl ?_ (same.trans held)⟩
    change _ ∨ _
    unfold nextChunk
    split
    · exact .inl rfl
    · exact .inr (.inl ⟨_,_,rfl⟩)
  · exact ⟨_,rfl,.now (.inr ⟨order,rfl⟩)⟩

theorem begun_eventually (here : r.stand = .handling order last .begun) (idle : r.recorder.phase = .idle)
    (held : r.control = control) : Eventually (alone tidOf sinks) (Handled last control) r := by
  refine .once fun now => ?_
  cases msg : order.msg with
  | open_ id start =>
    obtain ⟨m,stepped,stands,same,phase⟩ := rewindow_goes idle order (.inl ⟨id,start,rfl⟩) (back last)
    refine ⟨m,?_,.now (.inl ⟨stands,same.trans held,phase⟩)⟩
    simp only [alone,ownStep,here,handleStep,msg]
    exact stepped
  | cancel id =>
    obtain ⟨m,stepped,stands,same,phase⟩ := rewindow_goes idle order (.inr ⟨id,rfl⟩) (back last)
    refine ⟨m,?_,.now (.inl ⟨stands,same.trans held,phase⟩)⟩
    simp only [alone,ownStep,here,handleStep,msg]
    exact stepped
  | dump id start end_ reason done =>
    simp only [alone,ownStep,here,handleStep,msg,Recorder.jobStep,idle,Option.map_some]
    exact ⟨_,rfl,gathering_eventually rfl ⟨start,end_,rfl⟩ held⟩
  | dumpAll end_ reason done =>
    simp only [alone,ownStep,here,handleStep,msg,Recorder.jobStep,idle,Option.map_some]
    exact ⟨_,rfl,gathering_eventually rfl ⟨0,end_,rfl⟩ held⟩

theorem handling_eventually {at_ : Handling T} (here : r.stand = .handling order last at_)
    (staged : r.stand.Staged r.recorder.phase) : Eventually (alone tidOf sinks) (Handled last r.control) r := by
  rw [here] at staged
  cases at_ with
  | begun => exact begun_eventually here staged rfl
  | gathering => exact gathering_eventually here staged rfl
  | writing run => exact writing_eventually here staged rfl
  | dumped path => exact dumped_eventually here staged rfl
  | windowed path => exact windowed_eventually here staged rfl
  | flooring path => exact flooring_eventually here staged rfl
  | acking path => exact acking_eventually here staged rfl

def Idle (r : RunRecorder T) : Prop := (∃ last, r.stand = back last) ∧ r.control = [] ∧ r.recorder.phase = .idle

def Rests (r : RunRecorder T) : Prop := Idle r ∨ Lost r ∨ r.stand = .returned

theorem receive_goes (here : r.stand = back last) (now : UInt64) :
    alone tidOf sinks r now = some (r.receive last (if last then .returned else .ticking)) := by
  cases last with
  | false =>
    have stands : r.stand = .polling := here
    simp only [alone,ownStep,stands,Bool.false_eq_true,if_false]
  | true =>
    have stands : r.stand = .lastPolling := here
    simp only [alone,ownStep,stands,if_true]

theorem waiting_eventually (control : List (Sent T)) {r : RunRecorder T} {last : Bool} (here : r.stand = back last)
    (idle : r.recorder.phase = .idle) (held : r.control = control) : Eventually (alone tidOf sinks) Rests r := by
  induction control generalizing r last with
  | nil => exact .now (.inl ⟨⟨last,here⟩,held,idle⟩)
  | cons order rest ih =>
    refine .once fun now => ⟨_,receive_goes here now,?_⟩
    unfold receive
    rw [held]
    have begun : Eventually (alone tidOf sinks) (Handled last rest)
        {r with control := rest,stand := .handling order last .begun} := begun_eventually rfl idle rfl
    refine begun.bind ?_
    rintro m (⟨stands,same,phase⟩ | lost)
    · exact ih stands phase same
    · exact .now (.inr (.inl lost))

theorem absorb_alone (tidOf : T → UInt32) (limit : Nat) (stand : Nat → Stand T) (r : RunRecorder T) :
    ∃ r' got, r.absorb tidOf limit stand = some r' ∧ r'.stand = stand got ∧ r'.control = r.control ∧
      r'.recorder.phase = .idle ∧ got + r'.recorder.world.queue.loaded = r.recorder.world.queue.loaded := by
  obtain ⟨recorder,got,absorbed,phase,split,_⟩ := absorb_goes tidOf r.recorder limit fun _ => .idle
  have shape := absorb_some absorbed
  refine ⟨_,_,Option.map_eq_some_iff.mpr ⟨recorder,absorbed,rfl⟩,rfl,rfl,phase,?_⟩
  rw [shape.2.2.1]
  exact drain_loaded _ _

theorem absorbingAll_eventually (here : r.stand = .absorbingAll) :
    Eventually (alone tidOf sinks) (fun m => m.stand = back true ∧ m.recorder.phase = .idle ∧ m.control = r.control) r := by
  refine Eventually.measure (I := fun m => m.control = r.control ∧ (m.stand = .absorbingAll ∨
      m.stand = back true ∧ m.recorder.phase = .idle))
    (fun m => match m.stand with
      | .absorbingAll => m.recorder.world.queue.loaded+1
      | _ => 0) ?_ ⟨rfl,.inl here⟩
  rintro m ⟨same,stands | ⟨stands,idle⟩⟩
  · right
    intro now
    obtain ⟨m',got,absorbed,next,kept,idle,split⟩ := absorb_alone tidOf usizeMax
      (fun got => if got = 0 then .lastPolling else .absorbingAll) m
    have stepped : alone tidOf sinks m now = some m' := by
      simp only [alone,ownStep,stands]
      exact absorbed
    refine ⟨m',stepped,⟨kept.trans same,?_⟩,?_⟩
    · rw [next]
      by_cases none : got = 0
      · exact .inr ⟨by rw [if_pos none]; rfl,idle⟩
      · exact .inl (if_neg none)
    · rw [next,stands]
      by_cases none : got = 0
      · rw [if_pos none]
        exact Nat.succ_pos _
      · rw [if_neg none]
        dsimp only
        omega
  · exact .inl ⟨stands,idle,same⟩

def Returns (r m : RunRecorder T) : Prop :=
  m.recorder.phase = .idle ∧ m.control = r.control ∧
    (m.stand = back true ∨ m.stand = back false ∧ (r.recorder.world.queue.closed = true →
      m.recorder.world.queue.loaded < r.recorder.world.queue.loaded))

theorem asking_eventually (here : r.stand = .asking) (idle : r.recorder.phase = .idle) :
    Eventually (alone tidOf sinks) (fun m => m.recorder.phase = .idle ∧ m.control = r.control ∧
      (m.stand = back true ∨ m.stand = back false ∧ r.recorder.world.queue.closed = false)) r := by
  refine .once fun now => ⟨{r with
    stand := if r.recorder.world.queue.closed then .absorbingAll else .polling},by simp only [alone,ownStep,here],?_⟩
  cases closed : r.recorder.world.queue.closed with
  | true =>
    refine (absorbingAll_eventually rfl).mono ?_
    rintro m ⟨stands,phase,same⟩
    exact ⟨phase,same,.inl stands⟩
  | false => exact .now ⟨idle,rfl,.inr ⟨rfl,rfl⟩⟩

theorem absorbing_eventually (here : r.stand = .absorbing) : Eventually (alone tidOf sinks) (Returns r) r := by
  refine .once fun now => ?_
  obtain ⟨m,got,absorbed,next,kept,idle,split⟩ := absorb_alone tidOf drainLimit
    (fun got => if got = 0 then .asking else .polling) r
  have closed : m.recorder.world.queue.closed = r.recorder.world.queue.closed := by
    obtain ⟨recorder,moved,rfl⟩ := Option.map_eq_some_iff.mp absorbed
    have shape := absorb_some moved
    change recorder.world.queue.closed = _
    rw [shape.2.2.1]
    exact (drain_frame _ _).2.2.1
  have stepped : alone tidOf sinks r now = some m := by
    simp only [alone,ownStep,here]
    exact absorbed
  refine ⟨m,stepped,?_⟩
  by_cases none : got = 0
  · rw [if_pos none] at next
    refine (asking_eventually next idle).mono ?_
    rintro m' ⟨phase,same,last | ⟨stands,open_⟩⟩
    · exact ⟨phase,same.trans kept,.inl last⟩
    · refine ⟨phase,same.trans kept,.inr ⟨stands,fun shut => ?_⟩⟩
      rw [closed,shut] at open_
      cases open_
  · rw [if_neg none] at next
    exact .now ⟨idle,kept,.inr ⟨next,fun _ => by omega⟩⟩

def Spent (closed : Bool) (loaded : Nat) (r : RunRecorder T) : Prop :=
  r.recorder.world.queue.closed = closed ∧ r.recorder.world.queue.loaded ≤ loaded

theorem spent_step {closed : Bool} {loaded : Nat} (now : UInt64) (spent : Spent closed loaded r)
    (stepped : alone tidOf sinks r now = some r') : Spent closed loaded r' := by
  obtain ⟨shut,less⟩ := spent
  rcases own_world (own_cases stepped) with ⟨limit,drained⟩ | ⟨floor,same⟩
  · have queue : r'.recorder.world.queue = (r.recorder.world.queue.drainBatches limit).2 :=
      congrArg World.queue (Option.some.inj drained).symm
    have split := drain_loaded r.recorder.world.queue limit
    unfold Spent
    rw [queue]
    exact ⟨(drain_frame _ _).2.2.1.trans shut,by omega⟩
  · unfold Spent
    rw [same]
    exact ⟨shut,less⟩

theorem polling_returns (here : r.stand = .ticking ∨ r.stand = .flooring) (staged : r.stand.Staged r.recorder.phase) :
    Eventually (alone tidOf sinks) (Returns r) r := by
  have floors {m : RunRecorder T} (here : m.stand = .flooring)
      (at_ : m.recorder.phase = .idle ∨ ∃ now, m.recorder.phase.goal = some (.floor now)) (held : m.control = r.control) :
      Eventually (alone tidOf sinks) (fun m' => m'.stand = .absorbing ∧ m'.control = r.control) m := by
    have waits (r : RunRecorder T) (now : UInt64) (stands : r.stand = .flooring) (busy : r.recorder.phase ≠ .idle) :
        alone tidOf sinks r now = r.job tidOf := by
      simp only [alone,ownStep,stands]
    refine (floor_eventually waits here at_).bind ?_
    rintro m' ⟨stands,same,idle⟩
    refine .once fun now => ⟨{m' with stand := .absorbing},?_,.now ⟨rfl,same.trans held⟩⟩
    simp only [alone,ownStep,stands,idle]
  have absorbs : Eventually (alone tidOf sinks) (fun m => m.stand = .absorbing ∧ m.control = r.control) r := by
    rcases here with ticking | flooring
    · rw [ticking] at staged
      have idle : r.recorder.phase = .idle := staged
      refine .once fun now => ?_
      simp only [alone,ownStep,ticking]
      split
      · simp only [Recorder.jobStep,idle,Option.map_some]
        exact ⟨_,rfl,floors rfl (.inr ⟨now,rfl⟩) rfl⟩
      · exact ⟨_,rfl,.now ⟨rfl,rfl⟩⟩
    · rw [flooring] at staged
      exact floors flooring staged rfl
  have spent := absorbs.keeping (I := Spent r.recorder.world.queue.closed r.recorder.world.queue.loaded) ⟨rfl,Nat.le_refl _⟩
    fun _ now _ inv stepped => spent_step now inv stepped
  refine spent.bind ?_
  rintro m ⟨⟨stands,same⟩,shut,less⟩
  refine (absorbing_eventually stands).mono ?_
  rintro m' ⟨phase,kept,last | ⟨back,fewer⟩⟩
  · exact ⟨phase,kept.trans same,.inl last⟩
  · exact ⟨phase,kept.trans same,.inr ⟨back,fun closed => Nat.lt_of_lt_of_le (fewer (shut.trans closed)) less⟩⟩

theorem rests_eventually (staged : r.stand.Staged r.recorder.phase) : Eventually (alone tidOf sinks) Rests r := by
  have goes {m : RunRecorder T} (returns : Returns r m) : Eventually (alone tidOf sinks) Rests m := by
    obtain ⟨idle,_,last | ⟨back,_⟩⟩ := returns
    · exact waiting_eventually m.control last idle rfl
    · exact waiting_eventually m.control back idle rfl
  cases here : r.stand with
  | polling =>
    rw [here] at staged
    have stands : r.stand = back false := here
    exact waiting_eventually r.control stands staged rfl
  | lastPolling =>
    rw [here] at staged
    have stands : r.stand = back true := here
    exact waiting_eventually r.control stands staged rfl
  | ticking => exact (polling_returns (.inl here) staged).bind fun m => goes
  | flooring => exact (polling_returns (.inr here) staged).bind fun m => goes
  | absorbing => exact (absorbing_eventually here).bind fun m => goes
  | asking =>
    rw [here] at staged
    refine (asking_eventually here staged).bind ?_
    rintro m ⟨idle,_,last | ⟨back,_⟩⟩
    · exact waiting_eventually m.control last idle rfl
    · exact waiting_eventually m.control back idle rfl
  | absorbingAll =>
    refine (absorbingAll_eventually here).bind ?_
    rintro m ⟨stands,idle,_⟩
    exact waiting_eventually m.control stands idle rfl
  | handling order last at_ =>
    refine (handling_eventually here staged).bind ?_
    rintro m (⟨stands,_,idle⟩ | lost)
    · exact waiting_eventually m.control stands idle rfl
    · exact .now (.inr (.inl lost))
  | failed order => exact .now (.inr (.inl ⟨order,here⟩))
  | returned => exact .now (.inr (.inr here))

theorem idle_returns (loaded : Nat) {r : RunRecorder T} (idle : Idle r) (closed : r.recorder.world.queue.closed = true)
    (bound : r.recorder.world.queue.loaded ≤ loaded) :
    Eventually (alone tidOf sinks) (fun m => Lost m ∨ m.stand = .returned) r := by
  induction loaded using Nat.strong_induction_on generalizing r with
  | _ n ih =>
    have returns {m : RunRecorder T} (stands : m.stand = back true) (empty : m.control = []) :
        Eventually (alone tidOf sinks) (fun m => Lost m ∨ m.stand = .returned) m := by
      refine .once fun now => ⟨_,receive_goes stands now,.now (.inr ?_)⟩
      simp [receive,empty]
    obtain ⟨⟨last,stands⟩,empty,phase⟩ := idle
    cases last with
    | true => exact returns stands empty
    | false =>
      refine .once fun now => ⟨_,receive_goes stands now,?_⟩
      have ticking : r.receive false (if false then .returned else .ticking) = {r with stand := .ticking} := by
        simp [receive,empty]
      rw [ticking]
      have round : Eventually (alone tidOf sinks) (Returns {r with stand := .ticking}) {r with stand := .ticking} :=
        polling_returns (.inl rfl) phase
      have spent := round.keeping (I := Spent r.recorder.world.queue.closed r.recorder.world.queue.loaded)
        ⟨rfl,Nat.le_refl _⟩ fun _ now _ inv stepped => spent_step now inv stepped
      refine spent.bind ?_
      rintro m ⟨⟨idle,same,last | ⟨again,fewer⟩⟩,shut,_⟩
      · exact returns last (same.trans empty)
      · have less : m.recorder.world.queue.loaded < r.recorder.world.queue.loaded := fewer closed
        exact ih _ (Nat.lt_of_lt_of_le less bound) ⟨⟨false,again⟩,same.trans empty,idle⟩ (shut.trans closed) (Nat.le_refl _)

end RunRecorder

end Trace0
