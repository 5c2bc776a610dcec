import Trace0.DumpRuns
import Trace0.Lib.Machine

namespace Trace0

def EventQueue.loaded (q : EventQueue T) : Nat := (q.consumers.map (·.batches.length)).sum

theorem drainFrom_loaded (limit : Nat) (cs : List (Consumer T)) (got : Nat) :
    (drainFrom limit cs got).1.length + ((drainFrom limit cs got).2.map (·.batches.length)).sum =
      (cs.map (·.batches.length)).sum := by
  induction cs generalizing got with
  | nil => rfl
  | cons c rest ih =>
    have split := congrArg List.length (popLoop_splits limit c.batches got)
    rw [List.length_append] at split
    unfold drainFrom
    dsimp only
    split
    · simp only [List.length_map,List.map_cons,List.sum_cons]
      omega
    · have later := ih (popLoop limit c.batches got).2.2.1
      simp only [List.length_append,List.length_map,List.map_cons,List.sum_cons]
      omega

theorem drain_loaded (q : EventQueue T) (limit : Nat) :
    (q.drainBatches limit).1.length + (q.drainBatches limit).2.loaded = q.loaded := by
  unfold EventQueue.drainBatches
  dsimp only
  split
  · simp
  · set start := q.nextConsumer % q.consumers.length
    have visited := drainFrom_loaded limit (q.consumers.drop start ++ q.consumers.take start) 0
    have turned (n : Nat) (cs : List (Consumer T)) :
        ((cs.drop n ++ cs.take n).map (·.batches.length)).sum = (cs.map (·.batches.length)).sum := by
      rw [List.map_append,List.sum_append,Nat.add_comm,← List.sum_append,← List.map_append,List.take_append_drop]
    rw [turned] at visited
    unfold EventQueue.loaded
    dsimp only
    rw [turned]
    exact visited

variable {T : Type} [DecidableEq T]

def Recorder.ahead (r : Recorder T) : Nat :=
  match r.phase with
  | .absorbing _ => 2*r.world.queue.loaded+r.world.recorders.length+5
  | .locking _ => r.world.queue.loaded+r.world.recorders.length+4
  | .reading _ todo _ => r.world.queue.loaded+todo.length+3
  | .settling _ _ => r.world.queue.loaded+2
  | .collected _ _ => 1
  | _ => 0

namespace RunRecorder

variable {tidOf : T → UInt32} {sinks : Sinks} {r r' : RunRecorder T}

def alone (tidOf : T → UInt32) (sinks : Sinks) (r : RunRecorder T) (now : UInt64) : Option (RunRecorder T) :=
  r.ownStep tidOf sinks now

theorem absorb_goes (tidOf : T → UInt32) (recorder : Recorder T) (limit : Nat) (next : Nat → Phase T) :
    ∃ recorder' got, recorder.absorb tidOf limit next = some recorder' ∧ recorder'.phase = next got ∧
      got + recorder'.world.queue.loaded = recorder.world.queue.loaded ∧
      recorder'.world.recorders = recorder.world.recorders :=
  ⟨_,(recorder.world.queue.drainBatches limit).1.length,rfl,rfl,drain_loaded _ _,rfl⟩

theorem job_goes (tidOf : T → UInt32) {act : RecorderAct T} {goal : Goal} (next : r.recorder.phase.act = some act)
    (at_ : r.recorder.phase.goal = some goal) :
    ∃ recorder evictions, r.job tidOf = some {r with recorder := recorder,evictions := evictions} ∧
      recorder.ahead < r.recorder.ahead ∧
      (recorder.phase.goal = some goal ∨ recorder.phase = .idle ∧ ∃ now, goal = .floor now) := by
  have does {recorder : Recorder T} (stepped : r.recorder.step tidOf act = some recorder) :
      ∃ evictions, r.job tidOf = some {r with recorder := recorder,evictions := evictions} := by
    simp only [job,next,Option.bind_eq_bind,Option.bind_some,stepped]
    exact ⟨_,rfl⟩
  cases phase : r.recorder.phase with
  | idle | writing | wrote | stopped =>
    rw [phase] at at_
    cases at_
  | absorbing goal' =>
    rw [phase] at at_ next
    cases at_
    cases next
    obtain ⟨recorder,got,absorbed,after,split,same⟩ := absorb_goes tidOf r.recorder usizeMax
      fun got => if got = 0 then .locking goal else .absorbing goal
    have stepped : r.recorder.step tidOf .absorb = some recorder := by
      simp only [Recorder.step,Recorder.absorbStep,phase]
      exact absorbed
    obtain ⟨evictions,job⟩ := does stepped
    refine ⟨recorder,evictions,job,?_,.inl ?_⟩
    · by_cases none : got = 0
      · rw [if_pos none] at after
        simp only [Recorder.ahead,phase,after,same]
        omega
      · rw [if_neg none] at after
        simp only [Recorder.ahead,phase,after,same]
        omega
    · rw [after]
      split <;> rfl
  | locking goal' =>
    rw [phase] at at_ next
    cases at_
    cases next
    have stepped : r.recorder.step tidOf .lock = some {r.recorder with
        phase := .reading goal r.recorder.world.recorders [],seen := r.recorder.world.ledger.drained.length} := by
      simp [Recorder.step,Recorder.jobStep,phase]
    obtain ⟨evictions,job⟩ := does stepped
    refine ⟨_,evictions,job,?_,.inl rfl⟩
    simp [Recorder.ahead,phase]
  | reading goal' todo tails =>
    cases todo with
    | nil =>
      rw [phase] at at_ next
      cases at_
      cases next
      have stepped : r.recorder.step tidOf .unlock = some {r.recorder with phase := .settling goal tails} := by
        simp [Recorder.step,Recorder.jobStep,phase]
      obtain ⟨evictions,job⟩ := does stepped
      refine ⟨_,evictions,job,?_,.inl rfl⟩
      simp [Recorder.ahead,phase]
    | cons t todo =>
      rw [phase] at at_ next
      cases at_
      cases next
      have stepped : r.recorder.step tidOf .readTail = some {r.recorder with
          phase := .reading goal todo (tails ++
            (((r.recorder.world.threads t).readTail r.recorder.world.queue.id).map (t,·)).toList)} := by
        simp [Recorder.step,Recorder.jobStep,phase]
      obtain ⟨evictions,job⟩ := does stepped
      refine ⟨_,evictions,job,?_,.inl rfl⟩
      simp [Recorder.ahead,phase]
  | settling goal' tails =>
    rw [phase] at at_ next
    cases at_
    cases next
    obtain ⟨recorder,got,absorbed,after,split,same⟩ := absorb_goes tidOf r.recorder usizeMax
      fun got => if got = 0 then .collected goal tails else .settling goal tails
    have stepped : r.recorder.step tidOf .absorb = some recorder := by
      simp only [Recorder.step,Recorder.absorbStep,phase]
      exact absorbed
    obtain ⟨evictions,job⟩ := does stepped
    refine ⟨recorder,evictions,job,?_,.inl ?_⟩
    · by_cases none : got = 0
      · rw [if_pos none] at after
        simp only [Recorder.ahead,phase,after]
        omega
      · rw [if_neg none] at after
        simp only [Recorder.ahead,phase,after]
        omega
    · rw [after]
      split <;> rfl
  | collected goal' tails =>
    rw [phase] at at_ next
    cases at_
    cases goal with
    | dump start end_ => cases next
    | floor now =>
      cases next
      have stepped : r.recorder.step tidOf .publish = some {r.recorder with
          world := r.recorder.world.withQueue {r.recorder.world.queue with
            recycleFloor := Trace0.recycleFloor now (tails.map (·.2)) r.recorder.ring.batches}
          phase := .idle} := by
        simp [Recorder.step,Recorder.jobStep,phase]
      obtain ⟨evictions,job⟩ := does stepped
      refine ⟨_,evictions,job,?_,.inr ⟨rfl,now,rfl⟩⟩
      simp [Recorder.ahead,phase]

end RunRecorder

end Trace0
