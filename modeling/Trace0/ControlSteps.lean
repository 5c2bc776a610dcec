import Trace0.Control
import Trace0.Scanning

namespace Trace0

def Stand.order : Stand T → Option (Sent T)
  | .handling order _ _ | .failed order => some order
  | _ => none

def Stand.last : Stand T → Bool
  | .absorbingAll | .lastPolling | .returned => true
  | .handling _ last _ => last
  | _ => false

def Handling.exposed : Handling T → Bool
  | .gathering | .writing _ => true
  | _ => false

namespace RunRecorder

variable {T : Type} [DecidableEq T]

def rewindowed (r : RunRecorder T) (order : Sent T) (windows : List (Nat × UInt64)) (stand : Stand T) :
    RunRecorder T :=
  {r with
    recorder := ({r.recorder with windows := windows} : Recorder T).refloor
    stand := stand
    handled := r.handled ++ [(order,r.recorder.world.ledger.drained.length)]
    evictions := r.noted (r.recorder.ring.floorEvictions (windows.map (·.2)).min?) (r.handled.length+1) windows}

inductive Own (tidOf : T → UInt32) (sinks : Sinks) (r : RunRecorder T) : RunRecorder T → Prop where
  | turn (stand : Stand T) (ticker : Nat) (here : r.stand.order = none) (there : stand.order = none)
      (closing : stand.last = true → r.stand.last = true ∨ r.recorder.world.queue.closed = true)
      (empty : stand = .returned → r.control = []) : Own tidOf sinks r {r with ticker := ticker,stand := stand}
  | receive (order : Sent T) (rest : List (Sent T)) (last : Bool) (waiting : r.control = order :: rest)
      (here : r.stand = back last) :
      Own tidOf sinks r {r with control := rest,stand := .handling order last .begun}
  | absorb (limit : Nat) (stand : Stand T) (recorder : Recorder T) (here : r.stand.order = none)
      (there : stand.order = none) (closing : stand.last = true → r.stand.last = true)
      (open_ : stand ≠ .returned)
      (absorbed : r.recorder.absorb tidOf limit (fun _ => .idle) = some recorder) :
      Own tidOf sinks r {r with recorder := recorder,evictions := r.pushed limit,stand := stand}
  | jobAbsorb (recorder : Recorder T) (absorbed : r.recorder.absorbStep tidOf = some recorder)
      (busy : r.recorder.phase ≠ .idle) :
      Own tidOf sinks r {r with recorder := recorder,evictions := r.pushed usizeMax}
  | job (act : RecorderAct T) (recorder : Recorder T) (next : r.recorder.phase.act = some act)
      (stepped : r.recorder.jobStep act = some recorder) : Own tidOf sinks r {r with recorder := recorder}
  | floor (now : UInt64) (recorder : Recorder T) (ticker : Nat)
      (begun : r.recorder.jobStep (.floor now) = some recorder) (here : r.stand = .ticking) :
      Own tidOf sinks r {r with recorder := recorder,ticker := ticker,stand := .flooring}
  | floorLast (now : UInt64) (recorder : Recorder T) (order : Sent T) (last : Bool) (path : String)
      (begun : r.recorder.jobStep (.floor now) = some recorder)
      (here : r.stand = .handling order last (.windowed path)) :
      Own tidOf sinks r {r with recorder := recorder,stand := .handling order last (.flooring path)}
  | opened (order : Sent T) (last : Bool) (id : Nat) (start : UInt64)
      (here : r.stand = .handling order last .begun) (msg : order.msg = .open_ id start) :
      Own tidOf sinks r (r.rewindowed order (r.recorder.windows ++ [(id,start)]) (back last))
  | cancelled (order : Sent T) (last : Bool) (id : Nat)
      (here : r.stand = .handling order last .begun) (msg : order.msg = .cancel id) :
      Own tidOf sinks r (r.rewindowed order (r.recorder.windows.filter (·.1 ≠ id)) (back last))
  | ended (order : Sent T) (last : Bool) (id : Nat) (path : String)
      (here : r.stand = .handling order last (.dumped path)) (msg : order.msg.ends = some id) :
      Own tidOf sinks r (r.rewindowed order (r.recorder.windows.filter (·.1 ≠ id))
        (.handling order last (.windowed path)))
  | unwindowed (order : Sent T) (last : Bool) (path : String)
      (here : r.stand = .handling order last (.dumped path)) (msg : order.msg.ends = none) :
      Own tidOf sinks r {r with
        handled := r.handled ++ [(order,r.recorder.world.ledger.drained.length)]
        stand := .handling order last (.windowed path)}
  | dump (order : Sent T) (last : Bool) (start end_ : UInt64) (rest : String × Option Nat)
      (here : r.stand = .handling order last .begun) (asks : order.msg.asks = some (start,end_,rest)) :
      Own tidOf sinks r {r with
        recorder := r.recorder.begin_ (.absorbing (.dump start end_))
        stand := .handling order last .gathering}
  | assembled (order : Sent T) (last : Bool) (start end_ : UInt64) (tails : List (T × EventBatch)) (run : DumpRun T)
      (here : r.stand = .handling order last .gathering)
      (phase : r.recorder.phase = .collected (.dump start end_) tails)
      (shape : run = r.gathered order tails start end_ (sinks r.dumps.length order.msg.reason).path) :
      Own tidOf sinks r {r with
        recorder := {r.recorder with phase := nextChunk run.events}
        stand := .handling order last (.writing run)}
  | wrote (order : Sent T) (last : Bool) (run : DumpRun T) (chunk rest : List Event)
      (here : r.stand = .handling order last (.writing run)) (phase : r.recorder.phase = .writing chunk rest) :
      Own tidOf sinks r {r with
        recorder := {r.recorder with phase := .wrote rest}
        stand := .handling order last (.writing {run with written := run.written ++ [chunk]})}
  | finished (order : Sent T) (last : Bool) (run : DumpRun T)
      (here : r.stand = .handling order last (.writing run)) (phase : r.recorder.phase = .idle)
      (works : (sinks r.dumps.length order.msg.reason).failsAt = none) :
      Own tidOf sinks r {r with
        dumps := r.dumps ++ [{run with dropped := r.recorder.world.queue.dropped}]
        stand := .handling order last (.dumped run.path)}
  | failed (order : Sent T) (last : Bool) (at_ : Handling T) (phase : Phase T)
      (here : r.stand = .handling order last at_) (exposed : at_.exposed = true)
      (fails : (sinks r.dumps.length order.msg.reason).failsAt ≠ none) :
      Own tidOf sinks r {r with recorder := {r.recorder with phase := phase},stand := .failed order}
  | floored (order : Sent T) (last : Bool) (path : String)
      (here : r.stand = .handling order last (.flooring path)) :
      Own tidOf sinks r {r with stand := .handling order last (.acking path)}
  | acked (order : Sent T) (last : Bool) (path : String)
      (here : r.stand = .handling order last (.acking path)) :
      Own tidOf sinks r {r with
        acks := r.acks ++ (order.msg.done.map (·,path)).toList
        stand := back last}

variable {tidOf : T → UInt32} {sinks : Sinks} {r r' : RunRecorder T} {now : UInt64}

omit [DecidableEq T] in
theorem back_order (last : Bool) : (back last : Stand T).order = none := by
  cases last <;> rfl

omit [DecidableEq T] in
theorem dump_some {recorder recorder' : Recorder T} {start end_ : UInt64}
    (begun : recorder.jobStep (.dump start end_) = some recorder') :
    recorder' = recorder.begin_ (.absorbing (.dump start end_)) := by
  simp only [Recorder.jobStep] at begun
  split at begun
  · exact (Option.some.inj begun).symm
  · cases begun

omit [DecidableEq T] in
theorem assemble_some {recorder recorder' : Recorder T} {start end_ : UInt64} {tails : List (T × EventBatch)}
    {ok : Bool} (phase : recorder.phase = .collected (.dump start end_) tails)
    (stepped : recorder.jobStep (.assemble ok) = some recorder') :
    recorder' = {recorder with phase := if ok then nextChunk (assemble recorder.ring.batches (tails.map (·.2))
      recorder.world.queue.clock recorder.ring.horizonTicks start end_) else .stopped} := by
  simp only [Recorder.jobStep,phase] at stepped
  exact (Option.some.inj stepped).symm

omit [DecidableEq T] in
theorem write_some {recorder recorder' : Recorder T} {chunk rest : List Event} {ok : Bool}
    (phase : recorder.phase = .writing chunk rest) (stepped : recorder.jobStep (.write ok) = some recorder') :
    recorder' = {recorder with phase := if ok then .wrote rest else .stopped} := by
  simp only [Recorder.jobStep,phase] at stepped
  exact (Option.some.inj stepped).symm

omit [DecidableEq T] in
theorem open_rewindowed {order : Sent T} {id : Nat} {start : UInt64} {stand : Stand T}
    (stepped : r.rewindow order (.open_ id start) stand = some r') :
    r' = r.rewindowed order (r.recorder.windows ++ [(id,start)]) stand := by
  obtain ⟨recorder,moved,rfl⟩ := Option.map_eq_some_iff.mp stepped
  simp only [Recorder.jobStep] at moved
  split at moved
  · cases Option.some.inj moved
    simp only [rewindowed,Recorder.refloor,(Ring.setFloor_same _ _).1]
  · cases moved

omit [DecidableEq T] in
theorem cancel_rewindowed {order : Sent T} {id : Nat} {stand : Stand T}
    (stepped : r.rewindow order (.cancel id) stand = some r') :
    r' = r.rewindowed order (r.recorder.windows.filter (·.1 ≠ id)) stand := by
  obtain ⟨recorder,moved,rfl⟩ := Option.map_eq_some_iff.mp stepped
  simp only [Recorder.jobStep] at moved
  split at moved
  · cases Option.some.inj moved
    simp only [rewindowed,Recorder.refloor,(Ring.setFloor_same _ _).1]
  · cases moved

theorem job_own (stepped : r.job tidOf = some r') : Own tidOf sinks r r' := by
  obtain ⟨act,next,rest⟩ := Option.bind_eq_some_iff.mp stepped
  obtain ⟨recorder,moved,shape⟩ := Option.bind_eq_some_iff.mp rest
  cases Option.some.inj shape
  have busy : r.recorder.phase ≠ .idle := by
    intro idle
    rw [idle] at next
    cases next
  cases act with
  | absorb => exact .jobAbsorb recorder moved busy
  | lock => exact .job .lock recorder next moved
  | readTail => exact .job .readTail recorder next moved
  | unlock => exact .job .unlock recorder next moved
  | publish => exact .job .publish recorder next moved
  | _ =>
    unfold Phase.act at next
    split at next <;> cases next

theorem receive_own (last : Bool) (empty : Stand T) (here : r.stand = back last)
    (there : empty.order = none) (closing : empty.last = true → r.stand.last = true) :
    Own tidOf sinks r (r.receive last empty) := by
  unfold receive
  split
  · rename_i waiting
    exact .turn empty r.ticker (here ▸ back_order last) there (fun closed => .inl (closing closed)) fun _ => waiting
  · rename_i order rest waiting
    exact .receive order rest last waiting here

theorem handle_own {order : Sent T} {last : Bool} {at_ : Handling T}
    (here : r.stand = .handling order last at_)
    (stepped : r.handleStep tidOf sinks now order last at_ = some r') : Own tidOf sinks r r' := by
  unfold handleStep at stepped
  split at stepped
  · split at stepped
    · rename_i id start msg
      rw [open_rewindowed stepped]
      exact .opened order last id start here msg
    · rename_i id msg
      rw [cancel_rewindowed stepped]
      exact .cancelled order last id here msg
    · rename_i id start end_ reason done msg
      obtain ⟨recorder,begun,rfl⟩ := Option.map_eq_some_iff.mp stepped
      rw [dump_some begun]
      exact .dump order last start end_ (reason,done) here (by rw [msg]; rfl)
    · rename_i end_ reason done msg
      obtain ⟨recorder,begun,rfl⟩ := Option.map_eq_some_iff.mp stepped
      rw [dump_some begun]
      exact .dump order last 0 end_ (reason,done) here (by rw [msg]; rfl)
  · split at stepped
    · rename_i start end_ tails phase
      obtain ⟨recorder,moved,rfl⟩ := Option.map_eq_some_iff.mp stepped
      rw [assemble_some phase moved]
      split
      · exact .assembled order last start end_ tails _ here phase rfl
      · rename_i unopened
        refine .failed order last .gathering .stopped here rfl ?_
        intro works
        simp [SinkRun.opens,works] at unopened
    · exact job_own stepped
  · rename_i run
    split at stepped
    · rename_i chunk rest phase
      obtain ⟨recorder,moved,rfl⟩ := Option.map_eq_some_iff.mp stepped
      rw [write_some phase moved]
      split
      · exact .wrote order last run chunk rest here phase
      · rename_i unwritten
        refine .failed order last (.writing run) .stopped here rfl ?_
        intro works
        simp [SinkRun.writes,works] at unwritten
    · rename_i phase
      dsimp only at stepped
      split at stepped
      · rename_i works
        cases stepped
        exact .finished order last run here phase (by simpa [SinkRun.finishes] using works)
      · rename_i fails
        cases stepped
        exact .failed order last (.writing run) r.recorder.phase here rfl (by simpa [SinkRun.finishes] using fails)
    · exact job_own stepped
  · rename_i path
    split at stepped
    · rename_i id msg
      rw [cancel_rewindowed stepped]
      exact .ended order last id path here msg
    · rename_i msg
      cases stepped
      exact .unwindowed order last path here msg
  · rename_i path
    obtain ⟨recorder,begun,rfl⟩ := Option.map_eq_some_iff.mp stepped
    exact .floorLast now recorder order last path begun here
  · rename_i path
    split at stepped
    · cases stepped
      exact .floored order last path here
    · exact job_own stepped
  · rename_i path
    cases stepped
    exact .acked order last path here

theorem own_cases (stepped : r.ownStep tidOf sinks now = some r') : Own tidOf sinks r r' := by
  unfold ownStep at stepped
  split at stepped
  · rename_i here
    cases stepped
    exact receive_own false .ticking here rfl (by simp [Stand.last])
  · rename_i here
    split at stepped
    · obtain ⟨recorder,begun,rfl⟩ := Option.map_eq_some_iff.mp stepped
      exact .floor now recorder 0 begun here
    · cases stepped
      exact .turn .absorbing (r.ticker+1) (by rw [here]; rfl) rfl (by simp [Stand.last]) (by simp)
  · rename_i here
    split at stepped
    · cases stepped
      exact .turn .absorbing r.ticker (by rw [here]; rfl) rfl (by simp [Stand.last]) (by simp)
    · exact job_own stepped
  · rename_i here
    obtain ⟨recorder,absorbed,rfl⟩ := Option.map_eq_some_iff.mp stepped
    refine .absorb drainLimit _ recorder (by rw [here]; rfl) ?_ ?_ ?_ absorbed
    all_goals
      dsimp only
      split <;> simp [Stand.order,Stand.last]
  · rename_i here
    cases stepped
    refine .turn _ r.ticker (by rw [here]; rfl) ?_ ?_ ?_
    · split <;> rfl
    · intro _
      right
      split at *
      · assumption
      · simp_all [Stand.last]
    · split <;> simp
  · rename_i here
    obtain ⟨recorder,absorbed,rfl⟩ := Option.map_eq_some_iff.mp stepped
    refine .absorb usizeMax _ recorder (by rw [here]; rfl) ?_ ?_ ?_ absorbed
    all_goals
      dsimp only
      split <;> simp [Stand.order,Stand.last,here]
  · rename_i here
    cases stepped
    exact receive_own true .returned here rfl fun _ => by rw [here]; rfl
  · rename_i order last at_ here
    exact handle_own here stepped
  · cases stepped
  · cases stepped

theorem step_cases {act : RunAct T} (stepped : r.step tidOf sinks act = some r') :
    (∃ a w, act = .outside a ∧ (∀ limit, a ≠ .drain limit) ∧ r.recorder.world.step tidOf a = some w ∧
      r' = {r with recorder := r.recorder.withWorld w}) ∨
    (∃ msg, act = .send msg ∧ r' = {r with
      control := r.control ++ [⟨msg,r.recorder.world.accepted⟩]
      sent := r.sent ++ [⟨msg,r.recorder.world.accepted⟩]}) ∨
    (∃ now, act = .own now) ∧ Own tidOf sinks r r' := by
  cases act with
  | outside a =>
    left
    cases a with
    | drain limit => cases stepped
    | _ =>
      simp only [step] at stepped
      split at stepped
      · cases stepped
      · obtain ⟨w,moved,rfl⟩ := Option.map_eq_some_iff.mp stepped
        exact ⟨_,w,rfl,by simp,moved,rfl⟩
  | send msg =>
    cases Option.some.inj stepped
    exact .inr (.inl ⟨msg,rfl,rfl⟩)
  | own now => exact .inr (.inr ⟨⟨now,rfl⟩,own_cases stepped⟩)

theorem absorbStep_absorb {recorder recorder' : Recorder T} (absorbed : recorder.absorbStep tidOf = some recorder')
    (busy : recorder.phase ≠ .idle) : ∃ next, recorder.absorb tidOf usizeMax next = some recorder' := by
  unfold Recorder.absorbStep at absorbed
  split at absorbed
  · rename_i idle
    exact absurd idle busy
  · exact ⟨_,absorbed⟩
  · exact ⟨_,absorbed⟩
  · exact ⟨_,absorbed⟩
  · cases absorbed

omit [DecidableEq T] in
theorem job_same {recorder recorder' : Recorder T} {act : RecorderAct T} (next : recorder.phase.act = some act)
    (stepped : recorder.jobStep act = some recorder') :
    recorder'.ring = recorder.ring ∧ recorder'.windows = recorder.windows ∧
      recorder'.world.ledger = recorder.world.ledger := by
  cases act with
  | lock | readTail | unlock | publish =>
    simp only [Recorder.jobStep] at stepped
    split at stepped
    · cases stepped
      exact ⟨rfl,rfl,rfl⟩
    · cases stepped
  | absorb => simp [Recorder.jobStep] at stepped
  | _ =>
    unfold Phase.act at next
    split at next <;> cases next

omit [DecidableEq T] in
theorem floor_some {recorder recorder' : Recorder T} {now : UInt64}
    (begun : recorder.jobStep (.floor now) = some recorder') :
    recorder.phase = .idle ∧ recorder' = recorder.begin_ (.locking (.floor now)) := by
  simp only [Recorder.jobStep] at begun
  split at begun
  · rename_i idle
    exact ⟨idle,(Option.some.inj begun).symm⟩
  · cases begun

end RunRecorder

end Trace0
