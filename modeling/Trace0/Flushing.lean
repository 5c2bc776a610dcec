import Trace0.Lib.Machine
import Trace0.Reopening
import Trace0.Scanning

namespace Trace0

variable {T : Type} [DecidableEq T]

-- Whole calls of the recording threads, which flush as well, and the recorder's own steps.
inductive Live (T : Type) where
  | call (c : Call T)
  | job (a : RecorderAct T)

def callsOf (acts : List (Live T)) : List (Call T) :=
  acts.filterMap fun
    | .call c => some c
    | .job _ => none

def Recorder.live (tidOf : T → UInt32) (r : Recorder T) : Live T → Option (Recorder T)
  | .call (.drain _) | .job (.record _) | .job (.exit _) => none
  | .call c => (r.world.call tidOf c).map r.withWorld
  | .job a => r.step tidOf a

-- The threads call only while no job runs, and their ticks do not go back.
def Resting (r : Recorder T) : Live T → Prop
  | .call c => r.phase = .idle ∧ ∀ t run ticks codeId kind, c = .push t run ticks codeId kind →
      ∀ e ∈ ownedBy t r.world.ledger.pushed, e.1 ≤ ticks
  | .job _ => True

def tailsOf (w : World T) (threads : List T) : List (T × EventBatch) :=
  threads.flatMap fun t => (((w.threads t).readTail w.queue.id).map (t,·)).toList

-- Everyone who has a ring is in the registry.
structure Entered (w : World T) : Prop where
  owners : ∀ t ∈ w.queue.owners, t ∈ w.recorders
  distinct : w.recorders.Nodup

structure Rested (tidOf : T → UInt32) (id : Nat) (acts : List (Live T)) (r : Recorder T) : Prop where
  calm : Calm tidOf r.world
  entered : Entered r.world
  own : r.world.queue.id = id
  opens : ∀ t, Opens (r.world.view t) (opening id t (callsOf acts))
  pushed : r.world.ledger.pushed = (callsOf acts).flatMap Call.logged
  read : ∀ todo tails, r.phase.scan = some (todo,tails) →
    ∃ done, r.world.recorders = done ++ todo ∧ tails = tailsOf r.world done
  emptied : ∀ goal tails, r.phase = .collected goal tails → ∀ t, r.world.queue.held t = []

variable {tidOf : T → UInt32} {id : Nat} {w w' : World T} {r r' : Recorder T} {acts : List (Live T)}

omit [DecidableEq T] in
theorem Moves.seats {v v' : View T} (sound : ThreadSound qid t tid v) (moves : Moves qid t tid a v v') (seated : v'.seated) :
    v.seated ∨ v.stage = .idle ∧ Unseated v.l ∧ ∃ run ticks codeId kind, a = .push t run ticks codeId kind := by
  cases moves with
  | seat idle miss first direct =>
    refine .inr ⟨idle,?_,_,_,_,_,rfl⟩
    rcases sound.seat with absent | present
    · exact absent.2
    · simp [first] at present
  | _ => exact .inl seated

theorem step_entered (sound : Sound tidOf w) (entered : Entered w) (staying : ∀ u, a ≠ .leave u)
    (stepped : w.step tidOf a = some w') : Entered w' := by
  have rest := step_rest sound stepped
  refine ⟨fun t owner => ?_,rest.distinct entered.distinct⟩
  have seated : (w'.view t).seated := owner
  rcases (step_moves sound stepped t).seats (sound.threads t) seated with before | ⟨idle,unseated,_,_,_,_,rfl⟩
  · exact rest.kept (staying t) (entered.owners t before)
  · have idle : w.stage t = .idle := idle
    simp only [World.step,idle,if_true] at stepped
    exact unseated_push sound idle unseated stepped

theorem call_entered {c : Call T} (sound : Sound tidOf w) (entered : Entered w) (called : w.call tidOf c = some w') :
    Entered w' ∧ w'.queue.id = w.queue.id := by
  obtain ⟨acts,run⟩ := call_runs called
  have kept := run.invariant (I := fun m => Sound tidOf m ∧ Entered m ∧ m.queue.id = w.queue.id) ⟨sound,entered,rfl⟩ ?_
  · exact kept.2
  · intro m a m' before within stepped
    obtain ⟨sound,entered,own⟩ := before
    exact ⟨step_sound sound stepped,step_entered sound entered within.2 stepped,(step_frame sound stepped).id.trans own⟩

theorem absorb_rested {next : Nat → Phase T} (rested : Rested tidOf id acts r)
    (absorbed : r.absorb tidOf limit next = some r') (same : ∀ n, (next n).scan = r.phase.scan)
    (empty : ∀ goal tails, next (r.world.queue.drainBatches limit).1.length = .collected goal tails →
      (r.world.queue.drainBatches limit).1 = []) : Rested tidOf id acts r' := by
  obtain ⟨moved,_,queue,shape⟩ := absorb_some absorbed
  obtain ⟨m,again,calm,logged⟩ := call_calm rested.calm (.drain limit)
  have called : r.world.call tidOf (.drain limit) = some r'.world := moved
  rw [called,Option.some.injEq] at again
  subst m
  obtain ⟨entered,own⟩ := call_entered rested.calm.sound rested.entered called
  have phase : r'.phase = next (r.world.queue.drainBatches limit).1.length := by rw [shape]
  have threads : r'.world.threads = r.world.threads ∧ r'.world.recorders = r.world.recorders := by
    have world := Option.some.inj moved
    rw [← world]
    exact ⟨rfl,rfl⟩
  have tails (done : List T) : tailsOf r'.world done = tailsOf r.world done := by
    rw [tailsOf,tailsOf,threads.1,own]
  have pushed : r'.world.ledger.pushed = r.world.ledger.pushed := logged.trans (List.append_nil _)
  refine ⟨calm,entered,own.trans rested.own,fun t => ?_,pushed.trans rested.pushed,fun todo tails' here => ?_,
    fun goal tails' collected t => ?_⟩
  · obtain ⟨local_,pushed,shipped⟩ := call_bystander (u := t) rested.calm.sound called (by simp [Call.thread])
    have local_ : (r'.world.view t).l = (r.world.view t).l := local_
    have pushed : (r'.world.view t).pushed = (r.world.view t).pushed := pushed
    have shipped : (r'.world.view t).shipped = (r.world.view t).shipped := shipped
    have opens := rested.opens t
    unfold Opens at opens ⊢
    rwa [local_,pushed,shipped]
  · rw [phase,same] at here
    obtain ⟨done,split,read⟩ := rested.read todo tails' here
    exact ⟨done,threads.2.trans split,read.trans (tails done).symm⟩
  · have none := empty goal tails' (phase.symm.trans collected)
    have splits := drain_splits rested.calm.sound.distinct limit t
    rw [drain_none none t,none,ownedBy_nil,List.nil_append] at splits
    rw [queue]
    exact splits.symm

theorem same_rested (rested : Rested tidOf id acts r)
    (world : ∃ floor, r'.world = r.world.withQueue {r.world.queue with recycleFloor := floor})
    (read : ∀ todo tails, r'.phase.scan = some (todo,tails) →
      ∃ done, r.world.recorders = done ++ todo ∧ tails = tailsOf r.world done)
    (uncollected : ∀ goal tails, r'.phase ≠ .collected goal tails) : Rested tidOf id acts r' := by
  obtain ⟨floor,same⟩ := world
  obtain ⟨⟨⟨distinct,threads,balance⟩,quiet,settled,present⟩,⟨owners,once⟩,own,opens,pushed,_,_⟩ := rested
  refine ⟨?_,?_,?_,?_,?_,?_,fun goal tails collected => absurd collected (uncollected goal tails)⟩
  · rw [same]
    exact ⟨⟨distinct,threads,balance⟩,quiet,settled,present⟩
  · rw [same]
    exact ⟨owners,once⟩
  · rw [same]
    exact own
  · rw [same]
    exact opens
  · rw [same]
    exact pushed
  · rw [same]
    exact read

omit [DecidableEq T] in
theorem nextChunk_rested (events : List Event) :
    (nextChunk events : Phase T).scan = none ∧ ∀ goal tails, (nextChunk events : Phase T) ≠ .collected goal tails := by
  unfold nextChunk
  split <;> exact ⟨rfl,by simp⟩

theorem absorbStep_rested (rested : Rested tidOf id acts r) (stepped : r.absorbStep tidOf = some r') :
    Rested tidOf id acts r' := by
  unfold Recorder.absorbStep at stepped
  split at stepped
  · rename_i phase
    exact absorb_rested rested stepped (fun _ => by rw [phase]) (by simp)
  · rename_i goal phase
    refine absorb_rested rested stepped (fun n => ?_) (fun goal' tails' ends => ?_)
    · rw [phase]
      split <;> rfl
    · split at ends <;> cases ends
  · rename_i goal tails phase
    refine absorb_rested rested stepped (fun n => ?_) (fun goal' tails' ends => ?_)
    · rw [phase]
      split <;> rfl
    · split at ends
      · rename_i none
        exact List.eq_nil_of_length_eq_zero none
      · cases ends
  · rename_i rest phase
    obtain ⟨unread,uncollected⟩ := nextChunk_rested (T := T) rest
    refine absorb_rested rested stepped (fun n => ?_) (fun goal tails ends => absurd ends (uncollected goal tails))
    rw [phase]
    exact unread
  · cases stepped

theorem jobStep_rested {act : RecorderAct T} (rested : Rested tidOf id acts r) (stepped : r.jobStep act = some r') :
    Rested tidOf id acts r' := by
  have world := jobStep_world stepped
  have blind {phase : Phase T} (unread : phase.scan = none) (todo : List T) (tails : List (T × EventBatch))
      (here : phase.scan = some (todo,tails)) : ∃ done, r.world.recorders = done ++ todo ∧ tails = tailsOf r.world done := by
    rw [unread] at here
    cases here
  unfold Recorder.jobStep at stepped
  split at stepped
  · split at stepped
    · rename_i idle
      cases stepped
      exact same_rested rested world (blind (by rw [Recorder.refloor,idle]; rfl)) (by simp [Recorder.refloor,idle])
    · cases stepped
  · split at stepped
    · rename_i idle
      cases stepped
      exact same_rested rested world (blind (by rw [Recorder.refloor,idle]; rfl)) (by simp [Recorder.refloor,idle])
    · cases stepped
  · split at stepped
    · cases stepped
      exact same_rested rested world (blind rfl) (by simp [Recorder.begin_])
    · cases stepped
  · split at stepped
    · cases stepped
      exact same_rested rested world (blind rfl) (by simp [Recorder.begin_])
    · cases stepped
  · split at stepped
    · cases stepped
      refine same_rested rested world (fun todo tails here => ?_) (by simp)
      cases here
      exact ⟨[],rfl,rfl⟩
    · cases stepped
  · split at stepped
    · rename_i goal t todo tails reading
      cases stepped
      refine same_rested rested world (fun todo' tails' here => ?_) (by simp)
      cases here
      obtain ⟨done,split,read⟩ := rested.read (t :: todo) tails (by rw [reading]; rfl)
      refine ⟨done ++ [t],by rw [split,List.append_assoc]; rfl,?_⟩
      rw [read,tailsOf,tailsOf,List.flatMap_append,List.flatMap_singleton]
    · cases stepped
  · split at stepped
    · rename_i goal tails reading
      cases stepped
      refine same_rested rested world (fun todo' tails' here => ?_) (by simp)
      cases here
      exact rested.read [] tails (by rw [reading]; rfl)
    · cases stepped
  · rename_i ok
    split at stepped
    · cases stepped
      cases ok
      · exact same_rested rested world (blind rfl) (by simp)
      · exact same_rested rested world (blind (nextChunk_rested _).1) (nextChunk_rested _).2
    · cases stepped
  · rename_i ok
    split at stepped
    · cases stepped
      cases ok <;> exact same_rested rested world (blind rfl) (by simp)
    · cases stepped
  · split at stepped
    · cases stepped
      exact same_rested rested world (blind rfl) (by simp)
    · cases stepped
  · cases stepped

theorem live_rested {act : Live T} (rested : Rested tidOf id acts r) (resting : Resting r act)
    (stepped : r.live tidOf act = some r') : Rested tidOf id (acts ++ [act]) r' := by
  cases act with
  | call c =>
    obtain ⟨idle,forward⟩ := resting
    have stepped : (r.world.call tidOf c).map r.withWorld = some r' := by
      cases c with
      | drain limit => cases stepped
      | _ => exact stepped
    obtain ⟨w',called,rfl⟩ := Option.map_eq_some_iff.mp stepped
    obtain ⟨m,again,calm,logged⟩ := call_calm rested.calm c
    rw [called,Option.some.injEq] at again
    subst m
    obtain ⟨entered,own⟩ := call_entered rested.calm.sound rested.entered called
    have grown : callsOf (acts ++ [.call c]) = callsOf acts ++ [c] := by simp [callsOf]
    refine ⟨calm,entered,own.trans rested.own,fun t => ?_,?_,?_,?_⟩
    · have opens := rested.opens t
      rw [← rested.own] at opens ⊢
      rw [grown]
      exact call_opens opens rested.calm called (forward t)
    · rw [grown,List.flatMap_append,List.flatMap_singleton,← rested.pushed]
      exact logged
    · intro todo tails here
      rw [Recorder.withWorld,idle] at here
      cases here
    · intro goal tails collected
      rw [Recorder.withWorld,idle] at collected
      cases collected
  | job a =>
    have same : callsOf (acts ++ [.job a]) = callsOf acts := by simp [callsOf]
    have rested : Rested tidOf id (acts ++ [.job a]) r :=
      ⟨rested.calm,rested.entered,rested.own,same ▸ rested.opens,same ▸ rested.pushed,rested.read,rested.emptied⟩
    have moved : r.step tidOf a = some r' ∧ (∀ b, a ≠ .record b) ∧ ∀ t, a ≠ .exit t := by
      cases a with
      | record b => cases stepped
      | exit t => cases stepped
      | _ => exact ⟨stepped,by simp,by simp⟩
    obtain ⟨stepped,unrecorded,unexited⟩ := moved
    rcases recorder_cases stepped with ⟨b,_,_,_,_,_,_,own | ⟨t,own,_⟩⟩ | ⟨_,absorbed⟩ | bookkeeping
    · exact absurd own (unrecorded b)
    · exact absurd own (unexited t)
    · exact absorbStep_rested rested absorbed
    · exact jobStep_rested rested bookkeeping

theorem initial_rested (clock : Clock) (capacityBytes : Nat) :
    Rested tidOf id [] (Recorder.initial (T := T) id clock capacityBytes) := by
  refine ⟨⟨initial_sound id clock,fun _ => rfl,rfl,rfl⟩,⟨by simp [Recorder.initial,World.initial,EventQueue.owners,EventQueue.new],
    List.nodup_nil⟩,rfl,fun t => ⟨⟨rfl,rfl,rfl,rfl⟩,rfl⟩,rfl,by simp [Recorder.initial,Phase.scan],by simp [Recorder.initial]⟩

theorem runs_rested {clock : Clock} {capacityBytes : Nat}
    (run : Machine.Runs (Recorder.live tidOf) Resting (Recorder.initial id clock capacityBytes) acts r) :
    Rested tidOf id acts r := by
  induction run with
  | nil => exact initial_rested clock capacityBytes
  | snoc prior met next ih => exact live_rested ih met next

end Trace0
