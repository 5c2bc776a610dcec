import Trace0.BlockKept
import Trace0.Lib.Assoc

namespace Trace0
namespace Blocks

variable {T : Type} [DecidableEq T] {tidOf : T → UInt32} {sinks : Nat → Sinks} {s s' : Snapshots T}
  {b c : SnapshotBlock} {i j k : Nat} {run run' : Run T}

-- The counter of the windows does not come round.
def Below (s : Snapshots T) (_ : SnapshotAct T) : Prop := s.nextWindow < 2^64

structure Whole (tidOf : T → UInt32) (sinks : Nat → Sinks) (s : Snapshots T) : Prop where
  kept : Kept sinks s
  ordered : Ordered s
  sane : ∀ (k : Nat) run, s.runs[k]? = some run → Sane tidOf (sinks k) run

omit [DecidableEq T] in
theorem said_append (s : Snapshots T) (id : Nat) (clock : Clock) (capacityBytes : Nat) (running : Option Nat) :
    Snapshots.said {s with runs := s.runs ++ [⟨.initial id clock capacityBytes,false,false⟩],running := running} = s.said := by
  funext p
  simp only [Snapshots.said,List.getElem?_append]
  by_cases inside : p.1 < s.runs.length
  · simp [inside]
  · have beyond : s.runs[p.1]? = none := List.getElem?_eq_none (Nat.le_of_not_lt inside)
    rw [if_neg inside,beyond]
    cases at_ : p.1-s.runs.length <;> simp [RunRecorder.initial]

omit [DecidableEq T] in
theorem kept_entered (kept : Kept sinks s) (below : s.nextWindow < 2^64) (there : s.blocks[i]? = some b)
    (ready : b.stage = .ready) (here : s.runs[k]? = some run) (start : UInt64) :
    Kept sinks ((withTold {s with nextWindow := s.nextWindow+1} k run
      (.open_ (s.nextWindow % 2^64) start)).withBlock i {b with
        stage := .open_ (s.nextWindow % 2^64) start
        opened := some (k,run.recorder.sent.length)}) := by
  rw [Nat.mod_eq_of_lt below]
  have here' : ({s with nextWindow := s.nextWindow+1} : Snapshots T).runs[k]? = some run := here
  have free := said_free here
  have update := said_withTold (.open_ s.nextWindow start) here' rfl
  have onward : Onward sinks {s with nextWindow := s.nextWindow+1}
    (withTold {s with nextWindow := s.nextWindow+1} k run (.open_ s.nextWindow start)) := onward_withTold here' rfl
  have course := kept.course i b there
  cases course with
  | ready reason =>
    refine kept_advance kept ⟨onward.said,onward.acked,onward.failed⟩ ⟨there,rfl,?_,?_,?_,?_,?_,?_⟩ ?_ ?_ ?_
    · intro p opened
      cases opened
    · intro p asked
      cases asked
    · intro p opened
      cases opened
      exact .inr free
    · intro p id start' said
      change Snapshots.said (withTold _ _ _ _) p = _ at said
      rw [update] at said
      rcases Tickets.update_some.mp said with ⟨rfl,_⟩ | ⟨_,before⟩
      · exact .inr rfl
      · exact .inl before
    · intro p msg channel said done
      change Snapshots.said (withTold _ _ _ _) p = _ at said
      rw [update] at said
      rcases Tickets.update_some.mp said with ⟨_,rfl⟩ | ⟨_,before⟩
      · cases done
      · exact .inl before
    · intro p msg id said ends
      change Snapshots.said (withTold _ _ _ _) p = _ at said
      rw [update] at said
      rcases Tickets.update_some.mp said with ⟨_,rfl⟩ | ⟨_,before⟩
      · cases ends
      · exact .inl before
    · change Tickets.Apart (Snapshots.said (withTold _ _ _ _)) _ _
      rw [update]
      exact kept.windows.ticket rfl
    · change Tickets.Apart (Snapshots.said (withTold _ _ _ _)) _ _
      rw [update]
      exact kept.channels.untagged rfl
    · refine .open_ reason s.nextWindow start _ ?_
      change Snapshots.said (withTold _ _ _ _) _ = _
      rw [update]
      exact Function.update_self ..
  | _ => cases ready

omit [DecidableEq T] in
theorem kept_asked (kept : Kept sinks s) (ordered : Ordered s) (there : s.blocks[i]? = some b) {id : Nat}
    {start end_ : UInt64} {why : String} (asking : b.exit_ = some (.asking id start why)) (running : s.running = some k)
    (here : s.runs[k]? = some run) :
    Kept sinks ((withTold {s with nextChannel := s.nextChannel+1} k run
      (.dump id start end_ why (some s.nextChannel))).withBlock i {b with
        exit_ := some (.waiting k s.nextChannel)
        asked := some (k,run.recorder.sent.length)}) := by
  have here' : ({s with nextChannel := s.nextChannel+1} : Snapshots T).runs[k]? = some run := here
  have update := said_withTold (.dump id start end_ why (some s.nextChannel)) here' rfl
  have onward : Onward sinks {s with nextChannel := s.nextChannel+1}
    (withTold {s with nextChannel := s.nextChannel+1} k run (.dump id start end_ why (some s.nextChannel))) :=
    onward_withTold here' rfl
  have course := kept.course i b there
  cases course with
  | asking reason id' start' why' o opened named =>
    cases asking
    have earlier : Earlier o (k,run.recorder.sent.length) := by
      have inside := said_inside opened
      have latest := ordered.latest k running
      rcases Nat.lt_or_eq_of_le (show o.1 ≤ k by omega) with before | same
      · exact .inl before
      · refine .inr ⟨same,?_⟩
        have mine : s.said (k,o.2) = some (.open_ id start) := same ▸ opened
        obtain ⟨order,sent,_⟩ := said_sent here mine
        exact (List.getElem?_eq_some_iff.mp sent).1
    refine kept_advance kept ⟨onward.said,onward.acked,onward.failed⟩ ⟨there,rfl,?_,?_,?_,?_,?_,?_⟩ ?_ ?_ ?_
    · exact fun p opened => opened
    · intro p asked
      cases asked
    · exact fun p opened => .inl opened
    · intro p id' start' said
      change Snapshots.said (withTold _ _ _ _) p = _ at said
      rw [update] at said
      rcases Tickets.update_some.mp said with ⟨_,other⟩ | ⟨_,before⟩
      · cases other
      · exact .inl before
    · intro p msg channel said done
      change Snapshots.said (withTold _ _ _ _) p = _ at said
      rw [update] at said
      rcases Tickets.update_some.mp said with ⟨rfl,_⟩ | ⟨_,before⟩
      · exact .inr rfl
      · exact .inl before
    · intro p msg id' said ends
      change Snapshots.said (withTold _ _ _ _) p = _ at said
      rw [update] at said
      rcases Tickets.update_some.mp said with ⟨_,rfl⟩ | ⟨_,before⟩
      · exact .inr ⟨_,rfl⟩
      · exact .inl before
    · change Tickets.Apart (Snapshots.said (withTold _ _ _ _)) _ _
      rw [update]
      exact kept.windows.untagged rfl
    · change Tickets.Apart (Snapshots.said (withTold _ _ _ _)) _ _
      rw [update]
      exact kept.channels.ticket rfl
    · refine .waiting reason o (k,run.recorder.sent.length) s.nextChannel
        ⟨earlier,id,start,end_,why,named,onward.said _ _ opened,?_⟩
      change Snapshots.said (withTold _ _ _ _) _ = _
      rw [update]
      exact Function.update_self ..
  | _ => cases asking

theorem kept_does (whole : Whole tidOf sinks s) (below : s.nextWindow < 2^64) (does : Does tidOf sinks s s') :
    Kept sinks s' := by
  have onward := does_onward does
  obtain ⟨kept,ordered,sane⟩ := whole
  cases does with
  | same => exact kept
  | begun id clock capacityBytes idle =>
    exact kept_same kept onward (said_append s id clock capacityBytes _) rfl (Nat.le_refl _) rfl
  | ran k run act recorder here silent closing stepped =>
    exact kept_same kept onward (said_withRun _ here (step_silent silent stepped)) rfl (Nat.le_refl _) rfl
  | hungUp k run here stopped => exact kept_same kept onward (said_withRun _ here rfl) rfl (Nat.le_refl _) rfl
  | taken => exact kept_same kept onward rfl rfl (Nat.le_refl _) rfl
  | ended k run here free => exact kept_same kept onward (said_withRun _ here rfl) rfl (Nat.le_refl _) rfl
  | endTold k run end_ reason here free first alive => exact kept_ended kept onward (said_withTold _ here rfl) rfl rfl rfl
  | counted => exact kept_same kept onward rfl rfl (Nat.le_succ _) rfl
  | snapshot reason => exact kept_snapshot kept reason
  | entered i block start k run there ready running here alive => exact kept_entered kept below there ready here start
  | exited i block id start exit there open_ goes =>
    refine kept_quiet kept there {block with stage := .done,exit_ := some exit} rfl rfl (Nat.le_refl _) ?_
    cases kept.course i block there with
    | open_ reason id' start' o opened =>
      rcases goes with rfl | ⟨why,named,rfl⟩
      · exact .unasked reason id' start' o opened
      · cases open_
        exact .asking reason id start why o opened named
    | _ => cases open_
  | asked i block id start end_ why k run there asking running here alive =>
    exact kept_asked kept ordered there asking running here
  | refused i block id start why there asking =>
    refine kept_quiet kept there {block with exit_ := some .raised} rfl rfl (Nat.le_succ _) ?_
    cases kept.course i block there with
    | asking reason id' start' why' o opened named => exact .unasked reason id' start' o opened
    | _ => cases asking
  | answered i block k channel run path there waiting here acked =>
    refine kept_quiet kept there {block with exit_ := some .returned,written := some path} rfl rfl (Nat.le_refl _) ?_
    cases kept.course i block there with
    | waiting reason o a channel' asked =>
      cases waiting
      exact .returned reason o a channel path asked ⟨run,here,Assoc.mem_of_lookup acked⟩
    | _ => cases waiting
  | dropped i block k channel run there waiting here silent lost =>
    refine kept_quiet kept there {block with exit_ := some .raised} rfl rfl (Nat.le_refl _) ?_
    cases kept.course i block there with
    | waiting reason o a channel' asked =>
      cases waiting
      obtain ⟨id,start,end_,why,_,_,said⟩ := asked.said
      obtain ⟨order,sent,msg⟩ := said_sent here said
      have done : order.msg.done = some channel := by
        rw [msg]
        rfl
      obtain ⟨order',stand,fails⟩ := lost_failed (sane _ run here) (List.mem_of_getElem? sent) done silent lost
      exact .unanswered reason o a channel asked ⟨run,order',here,stand,fails⟩
    | _ => cases waiting

omit [DecidableEq T] in
theorem run_cases {run₀ : Run T} (there : (s.withRun k run').runs[j]? = some run₀) :
    (j = k ∧ run₀ = run') ∨ (j ≠ k ∧ s.runs[j]? = some run₀) := by
  by_cases same : j = k
  · subst j
    obtain ⟨inside,at_⟩ := List.getElem?_eq_some_iff.mp there
    exact .inl ⟨rfl,by simpa [Snapshots.withRun] using at_.symm⟩
  · exact .inr ⟨same,by simpa [Snapshots.withRun,List.getElem?_set_ne (Ne.symm same)] using there⟩

theorem sane_withRun (sane : ∀ (k : Nat) run, s.runs[k]? = some run → Sane tidOf (sinks k) run)
    (next : Sane tidOf (sinks k) run') :
    ∀ (j : Nat) run, (s.withRun k run').runs[j]? = some run → Sane tidOf (sinks j) run := by
  intro j run₀ there
  rcases run_cases there with ⟨rfl,rfl⟩ | ⟨_,before⟩
  · exact next
  · exact sane j run₀ before

theorem sane_does (whole : Whole tidOf sinks s) (does : Does tidOf sinks s s') :
    ∀ (k : Nat) run, s'.runs[k]? = some run → Sane tidOf (sinks k) run := by
  obtain ⟨_,ordered,sane⟩ := whole
  cases does with
  | begun id clock capacityBytes idle =>
    intro k run there
    change (s.runs ++ [_])[k]? = some run at there
    rw [List.getElem?_append] at there
    split at there
    · exact sane k run there
    · rw [List.mem_singleton.mp (List.mem_of_getElem? there)]
      exact initial_sane id clock capacityBytes
  | ran k run act recorder here silent closing stepped =>
    refine sane_withRun sane (sane_step (sane k run here) ?_ closing stepped)
    cases act with
    | send msg => exact absurd rfl (silent msg)
    | _ => trivial
  | hungUp k run here stopped => exact sane_withRun sane (sane_hungUp (sane k run here) stopped)
  | ended k run here free => exact sane_withRun sane (sane_ended (sane k run here))
  | endTold k run end_ reason here free first alive =>
    exact sane_withRun sane (sane_ended (sane_told (sane k run here) first _))
  | entered i block start k run there ready running here alive =>
    have told := sane_told (sane k run here) (ordered.going k run running here) (.open_ (s.nextWindow % 2^64) start)
    have next := sane_withRun (s := {s with nextWindow := s.nextWindow+1}) sane told
    exact next
  | asked i block id start end_ why k run there asking running here alive =>
    have told := sane_told (sane k run here) (ordered.going k run running here)
      (.dump id start end_ why (some s.nextChannel))
    have next := sane_withRun (s := {s with nextChannel := s.nextChannel+1}) sane told
    exact next
  | _ => exact sane

omit [DecidableEq T] in
theorem ordered_withRun (ordered : Ordered s) (here : s.runs[k]? = some run)
    (ended : s.running = some k → run'.ended = run.ended) : Ordered (s.withRun k run') := by
  refine ⟨?_,?_⟩
  · intro j running
    rw [ordered.latest j running]
    simp [Snapshots.withRun]
  · intro j run₀ running there
    rcases run_cases there with ⟨rfl,rfl⟩ | ⟨_,before⟩
    · exact (ended running).trans (ordered.going j run running here)
    · exact ordered.going j run₀ running before

theorem ordered_does (ordered : Ordered s) (does : Does tidOf sinks s s') : Ordered s' := by
  cases does with
  | begun id clock capacityBytes idle =>
    refine ⟨?_,?_⟩
    · intro k running
      cases running
      simp
    · intro k run running there
      cases running
      simp at there
      rw [← there]
  | ran k run act recorder here silent closing stepped => exact ordered_withRun ordered here fun _ => rfl
  | hungUp k run here stopped => exact ordered_withRun ordered here fun _ => rfl
  | taken => exact ⟨fun k running => (by cases running),fun k run running => (by cases running)⟩
  | ended k run here free => exact ordered_withRun ordered here fun running => absurd running free
  | endTold k run end_ reason here free first alive => exact ordered_withRun ordered here fun running => absurd running free
  | entered i block start k run there ready running here alive =>
    have next : Ordered (withTold {s with nextWindow := s.nextWindow+1} k run (.open_ (s.nextWindow % 2^64) start)) :=
      ordered_withRun (s := {s with nextWindow := s.nextWindow+1}) ⟨ordered.latest,ordered.going⟩ here fun _ => rfl
    exact ⟨next.latest,next.going⟩
  | asked i block id start end_ why k run there asking running here alive =>
    have next : Ordered (withTold {s with nextChannel := s.nextChannel+1} k run
        (.dump id start end_ why (some s.nextChannel))) :=
      ordered_withRun (s := {s with nextChannel := s.nextChannel+1}) ⟨ordered.latest,ordered.going⟩ here fun _ => rfl
    exact ⟨next.latest,next.going⟩
  | _ => exact ⟨ordered.latest,ordered.going⟩

theorem whole_step {act : SnapshotAct T} (whole : Whole tidOf sinks s) (below : Below s act)
    (stepped : s.step tidOf sinks act = some s') : Whole tidOf sinks s' := by
  have does := step_does stepped
  exact ⟨kept_does whole below does,ordered_does whole.ordered does,sane_does whole does⟩

theorem initial_whole : Whole tidOf sinks (Snapshots.initial (T := T)) := by
  have silent : (Snapshots.initial (T := T)).said = fun _ => none := rfl
  refine ⟨⟨?_,?_,?_,?_,?_,?_,?_⟩,⟨?_,?_⟩,?_⟩
  · rw [silent]
    exact Tickets.empty_apart
  · rw [silent]
    exact Tickets.empty_apart
  · intro i b there
    cases there
  · intro p id start said
    cases said
  · intro p msg channel said
    cases said
  · intro p msg id said
    cases said
  · intro i j b c p there
    cases there
  · intro k running
    cases running
  · intro k run running
    cases running
  · intro k run here
    cases here

theorem snapshots_whole {acts : List (SnapshotAct T)}
    (path : Machine.Runs (Snapshots.step tidOf sinks) Below .initial acts s) : Whole tidOf sinks s :=
  path.invariant initial_whole fun _ _ _ whole below stepped => whole_step whole below stepped

omit [DecidableEq T] in
theorem Course.asked_by {a : Nat × Nat} (course : Course sinks s b) (asked : b.asked = some a) :
    ∃ o channel, b.opened = some o ∧ Asked s b.reason o a channel := by
  cases course with
  | waiting reason o a' channel dump | unanswered reason o a' channel dump _ | returned reason o a' channel path dump _ =>
    cases asked
    exact ⟨o,channel,rfl,dump⟩
  | _ => cases asked

omit [DecidableEq T] in
theorem ended_by (kept : Kept sinks s) (there : s.blocks[i]? = some b) {o p : Nat × Nat} {id : Nat} {start : UInt64}
    {msg : Control} (opened : b.opened = some o) (begun : s.said o = some (.open_ id start)) (said : s.said p = some msg)
    (ends : msg.ends = some id) : b.asked = some p := by
  obtain ⟨channel,done⟩ := kept.ends p msg id said ends
  obtain ⟨j,c,there',asked⟩ := kept.asks p msg channel said done
  obtain ⟨o',channel',opened',dump⟩ := (kept.course j c there').asked_by asked
  obtain ⟨id',start',end_,why,_,begun',said'⟩ := dump.said
  cases said.symm.trans said'
  cases ends
  have same : o' = o := kept.windows.once o' o _ _ id begun' begun rfl rfl
  subst o'
  have blocks := kept.apart i j b c o there there' opened opened'
  subst j
  cases there.symm.trans there'
  exact asked

theorem handled_said (sane : Sane tidOf (sinks k) run) (here : s.runs[k]? = some run) {n l : Nat} {order : Sent T}
    (handled : run.recorder.handled[l]? = some (order,n)) : s.said (k,l) = some order.msg := by
  refine said_of here ?_
  rw [← sane.tallied.sent]
  have first : (run.recorder.handled.map (·.1))[l]? = some order := by simp [handled]
  rw [List.getElem?_append_left (List.getElem?_eq_some_iff.mp first).1]
  exact first

end Blocks
end Trace0
