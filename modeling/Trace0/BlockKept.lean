import Trace0.BlockRuns

namespace Trace0
namespace Blocks

section Onwards

variable {T : Type} [DecidableEq T] {tidOf : T → UInt32}

section Recorders
open RunRecorder

variable {sinks : Sinks} {r r' : RunRecorder T} {run : Run T} {act : RunAct T} {order : Sent T} {channel : Nat}

theorem step_acks (stepped : r.step tidOf sinks act = some r') : r.acks <+: r'.acks := by
  rcases step_cases stepped with ⟨a,w,_,_,_,rfl⟩ | ⟨msg,_,rfl⟩ | ⟨_,own⟩
  · exact List.prefix_rfl
  · exact List.prefix_rfl
  · cases own with
    | acked order last path here => exact List.prefix_append _ _
    | _ => exact List.prefix_rfl

theorem step_silent (silent : ∀ msg, act ≠ .send msg) (stepped : r.step tidOf sinks act = some r') : r'.sent = r.sent := by
  rcases step_cases stepped with ⟨a,w,_,_,_,rfl⟩ | ⟨msg,send,rfl⟩ | ⟨_,own⟩
  · rfl
  · exact absurd send (silent msg)
  · exact own_sent own

theorem step_failed (failed : r.stand = .failed order) (stepped : r.step tidOf sinks act = some r') :
    r'.stand = .failed order ∧ r'.dumps = r.dumps := by
  cases act with
  | own now =>
    change r.ownStep tidOf sinks now = some r' at stepped
    unfold ownStep at stepped
    rw [failed] at stepped
    cases stepped
  | _ =>
    rcases step_cases stepped with ⟨a,w,_,_,_,rfl⟩ | ⟨msg,_,rfl⟩ | ⟨⟨now,other⟩,_⟩
    · exact ⟨failed,rfl⟩
    · exact ⟨failed,rfl⟩
    · cases other

omit [DecidableEq T] in
theorem asks_done {msg : Control} (done : msg.done = some channel) : msg.asks.isSome = true := by
  unfold Control.done at done
  cases asks : msg.asks with
  | none => simp [asks] at done
  | some asked => rfl

theorem holds_handling {last : Bool} {at_ : Handling T} (sane : Sane tidOf sinks run)
    (here : run.recorder.stand = .handling order last at_) (done : order.msg.done = some channel) :
    run.holds channel = true := by
  have alive : run.gone = false := by
    cases gone : run.gone with
    | false => rfl
    | true => simpa [Run.stopped,here] using sane.gone gone
  simp [Run.holds,alive,here,done]

-- A dump that was asked for and neither acknowledged nor on its way is one the recorder has
-- failed before: what it returns from has left nothing behind.
theorem lost_failed (sane : Sane tidOf sinks run) (sent : order ∈ run.recorder.sent) (done : order.msg.done = some channel)
    (silent : run.recorder.acks.lookup channel = none) (lost : run.holds channel = false) :
    ∃ failed, run.recorder.stand = .failed failed ∧
      (sinks run.recorder.dumps.length failed.msg.reason).failsAt ≠ none := by
  have tallied := sane.tallied
  have fits := tallied.fits
  have unheld {o : Sent T} {last : Bool} {at_ : Handling T} (here : run.recorder.stand = .handling o last at_)
      (same : o.msg.done = some channel) : False := by
    rw [holds_handling sane here same] at lost
    cases lost
  rw [← tallied.sent] at sent
  rcases List.mem_append.mp sent with handled | pending
  · -- it is among the dumps finished, and its acknowledgement owed if not sent
    have finished : order ∈ run.recorder.dumps.map (·.order) := by
      rw [tallied.dumps]
      exact List.mem_append_left _ (List.mem_filter.mpr ⟨handled,asks_done done⟩)
    obtain ⟨d,present,rfl⟩ := List.mem_map.mp finished
    have answer : (channel,d.path) ∈ run.recorder.acks ++ run.recorder.stand.owed := by
      rw [tallied.acks]
      exact List.mem_filterMap.mpr ⟨d,present,by simp [DumpRun.ack,done]⟩
    rcases List.mem_append.mp answer with acked | owed
    · have unlike := List.lookup_eq_none_iff.mp silent _ acked
      simp at unlike
    · unfold Stand.owed at owed
      split at owed
      all_goals first
        | cases owed
        | (rename_i o last path here
           obtain ⟨ch,theirs,same⟩ := Option.map_eq_some_iff.mp (Option.mem_toList.mp owed)
           cases same
           exact (unheld here theirs).elim)
  · rcases List.mem_append.mp pending with taken | waiting
    · cases stand : run.recorder.stand with
      | handling o last at_ =>
        have same : o = order := by
          rw [stand] at taken
          cases at_ <;> simp [Stand.taken] at taken <;> exact taken.symm
        exact (unheld stand (same ▸ done)).elim
      | failed o =>
        rw [stand] at fits
        exact ⟨o,rfl,fits.2⟩
      | _ => simp [Stand.taken,stand] at taken
    · have gone : run.gone = true := by
        cases alive : run.gone with
        | true => rfl
        | false =>
          have held : run.holds channel = true := by
            simp only [Run.holds,alive,Bool.not_false,Bool.true_and,Bool.or_eq_true]
            exact .inl (List.any_eq_true.mpr ⟨order,waiting,by simp [done]⟩)
          rw [held] at lost
          cases lost
      have stopped := sane.gone gone
      cases stand : run.recorder.stand with
      | failed o =>
        rw [stand] at fits
        exact ⟨o,rfl,fits.2⟩
      | returned =>
        rw [sane.shut.empty stand] at waiting
        cases waiting
      | _ => simp [Run.stopped,stand] at stopped

end Recorders

variable {sinks : Nat → Sinks} {s s' : Snapshots T}

omit [DecidableEq T] in
theorem onward_runs (same : s'.runs = s.runs) : Onward sinks s s' := by
  refine ⟨?_,?_,?_⟩
  · intro p msg said
    simpa only [Snapshots.said,same] using said
  · intro k channel path acked
    simpa only [Snapshots.acked,same] using acked
  · intro k failed
    simpa only [Snapshots.failed,same] using failed

omit [DecidableEq T] in
theorem onward_withRun {k : Nat} {run run' : Run T} (here : s.runs[k]? = some run)
    (said : ∀ p msg, s.said p = some msg → (s.withRun k run').said p = some msg)
    (acks : run.recorder.acks <+: run'.recorder.acks)
    (failed : ∀ order, run.recorder.stand = .failed order →
      run'.recorder.stand = .failed order ∧ run'.recorder.dumps = run.recorder.dumps) :
    Onward sinks s (s.withRun k run') := by
  have inside := (List.getElem?_eq_some_iff.mp here).1
  have now : (s.withRun k run').runs[k]? = some run' := List.getElem?_set_self inside
  have other {j : Nat} (ne : j ≠ k) : (s.withRun k run').runs[j]? = s.runs[j]? := List.getElem?_set_ne (Ne.symm ne)
  refine ⟨said,?_,?_⟩
  · rintro j channel path ⟨run₀,there,acked⟩
    by_cases same : j = k
    · subst j
      cases here.symm.trans there
      exact ⟨run',now,acks.subset acked⟩
    · exact ⟨run₀,(other same).trans there,acked⟩
  · rintro j ⟨run₀,order,there,stand,fails⟩
    by_cases same : j = k
    · subst j
      cases here.symm.trans there
      obtain ⟨still,dumps⟩ := failed order stand
      exact ⟨run',order,now,still,by rw [dumps]; exact fails⟩
    · exact ⟨run₀,order,(other same).trans there,stand,fails⟩

omit [DecidableEq T] in
theorem onward_withTold {k : Nat} {run run' : Run T} {msg : Control} (here : s.runs[k]? = some run)
    (same : run'.recorder = run.recorder) : Onward sinks s (withTold s k run' msg) := by
  refine onward_withRun here ?_ ?_ ?_
  · intro p msg' said
    have update := said_withTold msg here same
    change (withTold s k run' msg).said p = some msg'
    rw [update]
    refine Tickets.update_some.mpr (.inr ⟨?_,said⟩)
    rintro rfl
    rw [said_free here] at said
    cases said
  · rw [same]
    exact List.prefix_rfl
  · intro order failed
    rw [same]
    exact ⟨failed,rfl⟩

omit [DecidableEq T] in
theorem onward_append (run : Run T) (s' : Snapshots T) (runs : s'.runs = s.runs ++ [run]) : Onward sinks s s' := by
  have same {k : Nat} {run₀ : Run T} (here : s.runs[k]? = some run₀) : s'.runs[k]? = some run₀ := by
    rw [runs,List.getElem?_append_left (List.getElem?_eq_some_iff.mp here).1]
    exact here
  refine ⟨?_,?_,?_⟩
  · intro p msg said
    obtain ⟨run₀,here,sent⟩ := Option.bind_eq_some_iff.mp said
    exact Option.bind_eq_some_iff.mpr ⟨run₀,same here,sent⟩
  · rintro k channel path ⟨run₀,here,acked⟩
    exact ⟨run₀,same here,acked⟩
  · rintro k ⟨run₀,order,here,failed⟩
    exact ⟨run₀,order,same here,failed⟩

theorem does_onward (does : Does tidOf sinks s s') : Onward sinks s s' := by
  cases does with
  | begun id clock capacityBytes idle => exact onward_append _ _ rfl
  | ran k run act recorder here silent closing stepped =>
    refine onward_withRun here ?_ (step_acks stepped) fun order failed => step_failed failed stepped
    intro p msg said
    have same := said_withRun {run with recorder := recorder} here (step_silent silent stepped)
    rw [same]
    exact said
  | hungUp k run here stopped =>
    have same := said_withRun {run with gone := true} here rfl
    exact onward_withRun here (fun p msg said => by rw [same]; exact said) List.prefix_rfl fun _ failed => ⟨failed,rfl⟩
  | ended k run here free =>
    have same := said_withRun {run with ended := true} here rfl
    exact onward_withRun here (fun p msg said => by rw [same]; exact said) List.prefix_rfl fun _ failed => ⟨failed,rfl⟩
  | endTold k run end_ reason here free first alive => exact onward_withTold here rfl
  | entered i block start k run there ready running here alive =>
    have onward : Onward sinks {s with nextWindow := s.nextWindow+1} (withTold {s with nextWindow := s.nextWindow+1} k run
      (.open_ (s.nextWindow % 2^64) start)) := onward_withTold here rfl
    exact ⟨onward.said,onward.acked,onward.failed⟩
  | asked i block id start end_ why k run there asking running here alive =>
    have onward : Onward sinks {s with nextChannel := s.nextChannel+1} (withTold {s with nextChannel := s.nextChannel+1} k run
      (.dump id start end_ why (some s.nextChannel))) := onward_withTold here rfl
    exact ⟨onward.said,onward.acked,onward.failed⟩
  | _ => exact onward_runs rfl

end Onwards

section Keeping

variable {T : Type} [DecidableEq T] {tidOf : T → UInt32} {sinks : Nat → Sinks} {s s' : Snapshots T}
  {b b' : SnapshotBlock} {i : Nat}

omit [DecidableEq T] in
theorem Course.opened_said {p : Nat × Nat} (course : Course sinks s b) (opened : b.opened = some p) :
    ∃ id start, s.said p = some (.open_ id start) := by
  cases course with
  | ready reason => cases opened
  | open_ reason id start o said | asking reason id start why o said named | unasked reason id start o said =>
    cases opened
    exact ⟨id,start,said⟩
  | waiting reason o a channel asked | unanswered reason o a channel asked _ | returned reason o a channel path asked _ =>
    cases opened
    obtain ⟨id,start,_,_,_,said,_⟩ := asked.said
    exact ⟨id,start,said⟩

omit [DecidableEq T] in
theorem kept_same (kept : Kept sinks s) (onward : Onward sinks s s') (said : s'.said = s.said) (blocks : s'.blocks = s.blocks)
    (windows : s.nextWindow ≤ s'.nextWindow) (channels : s.nextChannel = s'.nextChannel) : Kept sinks s' := by
  refine ⟨?_,?_,?_,?_,?_,?_,?_⟩
  · rw [said]
    exact kept.windows.mono windows
  · rw [said,← channels]
    exact kept.channels
  · rw [blocks]
    exact fun i b there => (kept.course i b there).onward onward
  · rw [said,blocks]
    exact kept.opens
  · rw [said,blocks]
    exact kept.asks
  · rw [said]
    exact kept.ends
  · rw [blocks]
    exact kept.apart

omit [DecidableEq T] in
theorem kept_ended (kept : Kept sinks s) (onward : Onward sinks s s') {p : Nat × Nat} {end_ : UInt64} {reason : String}
    (said : s'.said = Function.update s.said p (some (.dumpAll end_ reason none))) (blocks : s'.blocks = s.blocks)
    (windows : s'.nextWindow = s.nextWindow) (channels : s'.nextChannel = s.nextChannel) : Kept sinks s' := by
  refine ⟨?_,?_,?_,?_,?_,?_,?_⟩
  · rw [said,windows]
    exact kept.windows.untagged rfl
  · rw [said,channels]
    exact kept.channels.untagged rfl
  · rw [blocks]
    exact fun i b there => (kept.course i b there).onward onward
  · rw [said,blocks]
    intro q id start opens
    rcases Tickets.update_some.mp opens with ⟨_,other⟩ | ⟨_,before⟩
    · cases other
    · exact kept.opens q id start before
  · rw [said,blocks]
    intro q msg channel asks done
    rcases Tickets.update_some.mp asks with ⟨_,rfl⟩ | ⟨_,before⟩
    · cases done
    · exact kept.asks q msg channel before done
  · rw [said]
    intro q msg id ends over_
    rcases Tickets.update_some.mp ends with ⟨_,rfl⟩ | ⟨_,before⟩
    · cases over_
    · exact kept.ends q msg id before over_
  · rw [blocks]
    exact kept.apart

omit [DecidableEq T] in
theorem kept_snapshot (kept : Kept sinks s) (reason : String) : Kept sinks {s with blocks := s.blocks ++ [.new reason]} := by
  have onward : Onward sinks s {s with blocks := s.blocks ++ [.new reason]} := onward_runs rfl
  have older {i : Nat} {b : SnapshotBlock} (there : (s.blocks ++ [.new reason])[i]? = some b) :
      s.blocks[i]? = some b ∨ b = .new reason := by
    rw [List.getElem?_append] at there
    split at there
    · exact .inl there
    · exact .inr (List.mem_singleton.mp (List.mem_of_getElem? there))
  have still {i : Nat} {b : SnapshotBlock} (there : s.blocks[i]? = some b) : (s.blocks ++ [.new reason])[i]? = some b := by
    rw [List.getElem?_append_left (List.getElem?_eq_some_iff.mp there).1]
    exact there
  refine ⟨kept.windows,kept.channels,?_,?_,?_,kept.ends,?_⟩
  · intro i b there
    rcases older there with before | rfl
    · exact (kept.course i b before).onward onward
    · exact .ready reason
  · intro p id start said
    obtain ⟨i,b,there,opened⟩ := kept.opens p id start said
    exact ⟨i,b,still there,opened⟩
  · intro p msg channel said done
    obtain ⟨i,b,there,asked⟩ := kept.asks p msg channel said done
    exact ⟨i,b,still there,asked⟩
  · intro i j b c p there there' opened opened'
    rcases older there with before | rfl
    · rcases older there' with before' | rfl
      · exact kept.apart i j b c p before before' opened opened'
      · cases opened'
    · cases opened

-- A step of the i-th block. A message it sends goes to a free place, and its places are never
-- given up.
structure Advance (s s' : Snapshots T) (i : Nat) (b b' : SnapshotBlock) : Prop where
  there : s.blocks[i]? = some b
  blocks : s'.blocks = s.blocks.set i b'
  opened : ∀ p, b.opened = some p → b'.opened = some p
  asked : ∀ p, b.asked = some p → b'.asked = some p
  fresh : ∀ p, b'.opened = some p → b.opened = some p ∨ s.said p = none
  opens : ∀ p id start, s'.said p = some (.open_ id start) → s.said p = some (.open_ id start) ∨ b'.opened = some p
  asks : ∀ p msg channel, s'.said p = some msg → msg.done = some channel → s.said p = some msg ∨ b'.asked = some p
  ends : ∀ p msg id, s'.said p = some msg → msg.ends = some id → s.said p = some msg ∨ ∃ channel, msg.done = some channel

omit [DecidableEq T] in
theorem kept_advance (kept : Kept sinks s) (onward : Onward sinks s s') (advance : Advance s s' i b b')
    (windows : Tickets.Apart s'.said Control.begins s'.nextWindow)
    (channels : Tickets.Apart s'.said Control.done s'.nextChannel) (course : Course sinks s' b') : Kept sinks s' := by
  have inside := (List.getElem?_eq_some_iff.mp advance.there).1
  have now : s'.blocks[i]? = some b' := by rw [advance.blocks,List.getElem?_set_self inside]
  have other {j : Nat} (ne : j ≠ i) : s'.blocks[j]? = s.blocks[j]? := by
    rw [advance.blocks,List.getElem?_set_ne (Ne.symm ne)]
  -- what one of the blocks had, it has
  have opened {p : Nat × Nat} {j : Nat} {c : SnapshotBlock} (there : s.blocks[j]? = some c) (opened : c.opened = some p) :
      ∃ (j : Nat) (c : SnapshotBlock), s'.blocks[j]? = some c ∧ c.opened = some p := by
    by_cases same : j = i
    · subst j
      cases advance.there.symm.trans there
      exact ⟨i,b',now,advance.opened p opened⟩
    · exact ⟨j,c,(other same).trans there,opened⟩
  have asked {p : Nat × Nat} {j : Nat} {c : SnapshotBlock} (there : s.blocks[j]? = some c) (asked : c.asked = some p) :
      ∃ (j : Nat) (c : SnapshotBlock), s'.blocks[j]? = some c ∧ c.asked = some p := by
    by_cases same : j = i
    · subst j
      cases advance.there.symm.trans there
      exact ⟨i,b',now,advance.asked p asked⟩
    · exact ⟨j,c,(other same).trans there,asked⟩
  have unshared {j : Nat} {c : SnapshotBlock} {p : Nat × Nat} (ne : j ≠ i) (there : s'.blocks[j]? = some c)
      (mine : b'.opened = some p) (theirs : c.opened = some p) : False := by
    rw [other ne] at there
    rcases advance.fresh p mine with before | free
    · exact ne (kept.apart j i c b p there advance.there theirs before)
    · obtain ⟨id,start,said⟩ := (kept.course j c there).opened_said theirs
      rw [free] at said
      cases said
  refine ⟨windows,channels,?_,?_,?_,?_,?_⟩
  · intro j c there
    by_cases same : j = i
    · subst j
      cases now.symm.trans there
      exact course
    · rw [other same] at there
      exact (kept.course j c there).onward onward
  · intro p id start said
    rcases advance.opens p id start said with before | mine
    · obtain ⟨j,c,there,theirs⟩ := kept.opens p id start before
      exact opened there theirs
    · exact ⟨i,b',now,mine⟩
  · intro p msg channel said done
    rcases advance.asks p msg channel said done with before | mine
    · obtain ⟨j,c,there,theirs⟩ := kept.asks p msg channel before done
      exact asked there theirs
    · exact ⟨i,b',now,mine⟩
  · intro p msg id said ends
    rcases advance.ends p msg id said ends with before | done
    · exact kept.ends p msg id before ends
    · exact done
  · intro j l c d p there there' opened opened'
    by_cases first : j = i
    · by_cases second : l = i
      · rw [first,second]
      · subst j
        cases now.symm.trans there
        exact (unshared second there' opened opened').elim
    · by_cases second : l = i
      · subst l
        cases now.symm.trans there'
        exact (unshared first there opened' opened).elim
      · rw [other first] at there
        rw [other second] at there'
        exact kept.apart j l c d p there there' opened opened'

omit [DecidableEq T] in
theorem kept_quiet (kept : Kept sinks s) (there : s.blocks[i]? = some b) (b' : SnapshotBlock) (opened : b'.opened = b.opened)
    (asked : b'.asked = b.asked) {channels : Nat} (later : s.nextChannel ≤ channels)
    (course : Course sinks s b') : Kept sinks (({s with nextChannel := channels} : Snapshots T).withBlock i b') := by
  have onward : Onward sinks s (({s with nextChannel := channels} : Snapshots T).withBlock i b') := onward_runs rfl
  refine kept_advance kept onward ⟨there,rfl,?_,?_,?_,?_,?_,?_⟩ kept.windows (kept.channels.mono later) (course.onward onward)
  · intro p
    rw [opened]
    exact id
  · intro p
    rw [asked]
    exact id
  · intro p
    rw [opened]
    exact .inl
  · exact fun p id start said => .inl said
  · exact fun p msg channel said _ => .inl said
  · exact fun p msg id said _ => .inl said

end Keeping

end Blocks
end Trace0
