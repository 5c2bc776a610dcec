import Trace0.Lib.Machine
import Trace0.Recycling

namespace Trace0

variable {T : Type} [DecidableEq T] {tidOf : T → UInt32} {s s' : Tracing T} {t : T} {r r' : Recorder T}

section Surveying

theorem survey_kept {todo : List T} {tails : List (T × EventBatch)} (survey : Survey s todo tails)
    (shifts : Shifts s.recorder s'.recorder) (starts : s'.starts = s.starts)
    (began : s'.recorder.began = s.recorder.began) : Survey s' todo tails := by
  obtain ⟨copied,begun,read,bare⟩ := survey
  refine ⟨?_,begun,?_,?_⟩
  · intro x present
    rw [starts]
    exact (copied x present).trans ((shifts.pushed x.1).drop _)
  · intro x present
    rw [starts]
    exact (read x present).trans (shifts.readable x.1)
  · intro t outside untailed
    rw [began]
    exact (bare t outside untailed).trans (shifts.readable t)

theorem began_length (kept : Kept tidOf r) (t : T) :
    (ownedBy t r.began).length ≤ (r.world.view t).pushed.length := (kept.began t).length_le

theorem survey_lock (traced : Traced tidOf s) (began : s'.recorder.began = s.recorder.began)
    (world : s'.recorder.world = s.recorder.world) : Survey s' s.recorder.world.recorders [] := by
  refine ⟨by simp,by simp,by simp,?_⟩
  intro t outside _
  rw [began,world]
  rcases traced.timed.kept.registered.absent t outside with gone | ⟨_,unseated⟩
  · rw [traced.staying t] at gone
    cases gone
  · rw [readable_all (v := s.recorder.world.view t) unseated.window]
    exact began_length traced.timed.kept t

theorem survey_readTail (traced : Traced tidOf s) {goal : Goal} {u : T} {todo : List T}
    {before tails : List (T × EventBatch)} (survey : Survey s (u :: todo) before)
    (reading : s.recorder.phase = .reading goal (u :: todo) before)
    (starts : s'.starts = s.startsAfter .readTail) (began : s'.recorder.began = s.recorder.began)
    (world : s'.recorder.world = s.recorder.world)
    (more : tails = before ++
      (((s.recorder.world.threads u).readTail s.recorder.world.queue.id).map (u,·)).toList) :
    Survey s' todo tails := by
  have kept := traced.timed.kept
  have scan := kept.scan (u :: todo) before (by rw [reading]; rfl)
  have unread : ∀ x ∈ before, x.1 ≠ u := by
    intro x present
    have distinct := (List.nodup_append.mp scan.distinct).2.2
    exact distinct x.1 (List.mem_map_of_mem present) u List.mem_cons_self
  have now : s'.starts = Function.update s.starts u (s.recorder.world.view u).readable := by
    rw [starts]
    simp only [Tracing.startsAfter,reading]
  have others {x : T × EventBatch} (present : x ∈ before) : s'.starts x.1 = s.starts x.1 := by
    rw [now,Function.update_of_ne (unread x present)]
  have recording := (kept.unflushed u).resolve_right (by simp [traced.staying u])
  have earlier : ∀ x ∈ before,
      x.2.entries <+: (ownedBy x.1 s'.recorder.world.ledger.pushed).drop (s'.starts x.1) ∧
        s'.starts x.1 ≤ (s'.recorder.world.view x.1).readable := by
    intro x present
    rw [others present,world]
    exact ⟨survey.copied x present,survey.read x present⟩
  cases read : (s.recorder.world.threads u).readTail s.recorder.world.queue.id with
  | none =>
    rw [read,Option.map_none,Option.toList_none,List.append_nil] at more
    subst more
    refine ⟨fun x present => (earlier x present).1,survey.begun,fun x present => (earlier x present).2,?_⟩
    intro t outside untailed
    rw [began,world]
    by_cases same : t = u
    · subst t
      have empty := tail_none_window (kept.sound.threads u) (kept.shown u) recording read
      rw [readable_all empty]
      exact began_length kept u
    · exact survey.bare t (by simp [same,outside]) untailed
  | some x =>
    rw [read,Option.map_some,Option.toList_some] at more
    subst more
    have stands := tail_stands (kept.sound.threads u) (kept.shown u) read
    obtain ⟨i,copy,_⟩ := tail_at (kept.sound.threads u) (kept.shown u) read List.prefix_rfl
    refine ⟨?_,?_,?_,?_⟩
    · intro y present
      rcases List.mem_append.mp present with old | new
      · exact (earlier y old).1
      · rw [List.mem_singleton.mp new,now,world]
        dsimp only
        rw [Function.update_self,← stands]
        exact List.prefix_rfl
    · intro y present
      rcases List.mem_append.mp present with old | new
      · exact survey.begun y old
      · rw [List.mem_singleton.mp new]
        exact copy.first (traced.timed.based u)
    · intro y present
      rcases List.mem_append.mp present with old | new
      · exact (earlier y old).2
      · rw [List.mem_singleton.mp new,now,world]
        dsimp only
        rw [Function.update_self]
    · intro t outside untailed
      rw [List.map_append,List.mem_append,not_or] at untailed
      have other : t ≠ u := by simpa using untailed.2
      rw [began,world]
      exact survey.bare t (by simp [other,outside]) untailed.1

theorem survey_own {act : RecorderAct T} (recycles : Recycles tidOf s)
    (stepped : s.recorder.step tidOf act = some s'.recorder) (shifts : Shifts s.recorder s'.recorder)
    (starts : s'.starts = s.startsAfter act) {todo : List T} {tails : List (T × EventBatch)}
    (scan : s'.recorder.phase.scan = some (todo,tails)) : Survey s' todo tails := by
  obtain ⟨began,⟨other,before⟩ | ⟨world,rfl,rfl⟩ | ⟨goal,u,before,rfl,world,reading,more⟩⟩ := scan_cases stepped scan
  · have same : s.startsAfter act = s.starts := by
      cases act <;> first | rfl | exact absurd rfl other
    exact survey_kept (recycles.survey todo tails before) shifts (starts.trans same) began
  · exact survey_lock recycles.toTraced began world
  · have survey := recycles.survey (u :: todo) before (by rw [reading]; rfl)
    exact survey_readTail recycles.toTraced survey reading starts began world more

theorem survey_turn (recycles : Recycles tidOf s) (turn : Turn tidOf s s') {todo : List T}
    {tails : List (T × EventBatch)} (scan : s'.recorder.phase.scan = some (todo,tails)) :
    Survey s' todo tails := by
  have shifts := turn_shifts recycles.toTraced turn
  have same (recorder : s'.recorder = s.recorder) (starts : s'.starts = s.starts) : Survey s' todo tails :=
    survey_kept (recycles.survey todo tails (recorder ▸ scan)) shifts starts (by rw [recorder])
  cases turn with
  | quiet recorder interner origins starts => exact same recorder starts
  | forgets key recorder interner origins starts => exact same recorder starts
  | inserts u key kind ticks floor info callback alive recorder interner origins starts => exact same recorder starts
  | records u a stepped own timely interner starts => exact survey_own recycles stepped shifts starts scan
  | own act stepped recorder interner origins starts => exact survey_own recycles stepped shifts starts scan

end Surveying

section Writing

theorem written_own {act : RecorderAct T} (recycles : Recycles tidOf s)
    (stepped : s.recorder.step tidOf act = some s'.recorder) (shifts : Shifts s.recorder s'.recorder)
    (dumped : s'.dumped = s.dumpedAfter act) : Written s' := by
  have later {d : Event × T × Nat} (before : ∃ e, (ownedBy d.2.1 s.recorder.world.ledger.pushed)[d.2.2]? = some e ∧
      d.1.codeId = codeIdOf e.2) : ∃ e, (ownedBy d.2.1 s'.recorder.world.ledger.pushed)[d.2.2]? = some e ∧
      d.1.codeId = codeIdOf e.2 := by
    obtain ⟨e,here,code⟩ := before
    exact ⟨e,prefix_at (shifts.pushed d.2.1) here,code⟩
  obtain ⟨events,stands⟩ := recycles.written
  have other (unassembled : ∀ ok, act ≠ .assemble ok) (unwritten : ∀ ok, act ≠ .write ok) : Written s' := by
    have same : s.dumpedAfter act = s.dumped := by
      cases act <;> first | rfl | exact absurd rfl (unassembled _) | exact absurd rfl (unwritten _)
    refine ⟨?_,?_⟩
    · rw [dumped,same,events,unwritten_kept stepped unassembled unwritten]
    · rw [dumped,same]
      exact fun d waits => later (stands d waits)
  cases act with
  | assemble ok =>
    simp only [Recorder.step,Recorder.jobStep] at stepped
    split at stepped
    · rename_i start end_ tails collected
      have shape := Option.some.inj stepped
      have scan : s.recorder.phase.scan = some ([],tails) := by rw [collected]; rfl
      have survey := recycles.survey _ _ scan
      simp only [Tracing.dumpedAfter,collected] at dumped
      cases ok with
      | false =>
        refine ⟨?_,?_⟩
        · rw [dumped,← shape]
          rfl
        · rw [dumped]
          simp
      | true =>
        simp only [if_pos] at dumped
        refine ⟨?_,?_⟩
        · rw [dumped,assembled_events recycles.toTraced,← shape]
          exact (nextChunk_blank _).1.symm
        · rw [dumped]
          intro d present
          obtain ⟨x,gathered,own,i,e,here,place,code⟩ := assembled_item present
          obtain ⟨_,stand⟩ := gathered_stands recycles.toTraced scan survey gathered
          refine later ⟨e,?_,code⟩
          rw [← own,place]
          exact stand i e here
    · cases stepped
  | write ok =>
    simp only [Recorder.step,Recorder.jobStep] at stepped
    split at stepped
    · rename_i chunk rest writing
      have shape := Option.some.inj stepped
      simp only [Tracing.dumpedAfter,writing] at dumped
      cases ok with
      | false =>
        refine ⟨?_,?_⟩
        · rw [dumped,← shape]
          rfl
        · rw [dumped]
          simp
      | true =>
        simp only [if_pos] at dumped
        refine ⟨?_,?_⟩
        · rw [dumped,List.map_drop,events,writing,← shape]
          exact List.drop_left
        · rw [dumped]
          exact fun d waits => later (stands d (List.mem_of_mem_drop waits))
    · cases stepped
  | _ => exact other (by simp) (by simp)

theorem written_turn (recycles : Recycles tidOf s) (turn : Turn tidOf s s') : Written s' := by
  have shifts := turn_shifts recycles.toTraced turn
  have same (recorder : s'.recorder = s.recorder) (dumped : s'.dumped = s.dumped) : Written s' := by
    obtain ⟨events,stands⟩ := recycles.written
    rw [← recorder,← dumped] at events stands
    exact ⟨events,stands⟩
  cases turn with
  | quiet recorder interner origins starts dumped => exact same recorder dumped
  | forgets key recorder interner origins starts dumped => exact same recorder dumped
  | inserts u key kind ticks floor info callback alive recorder interner origins starts dumped =>
    exact same recorder dumped
  | records u a stepped own timely interner starts dumped => exact written_own recycles stepped shifts dumped
  | own act stepped recorder interner origins starts dumped => exact written_own recycles stepped shifts dumped

end Writing

section Publishing

theorem sorted_at {items : List Entry} (sorted : items.Pairwise (·.1 ≤ ·.1)) {i j : Nat} {a b : Entry}
    (first : items[i]? = some a) (second : items[j]? = some b) (order : i ≤ j) : a.1 ≤ b.1 := by
  obtain ⟨inside,here⟩ := List.getElem?_eq_some_iff.mp first
  obtain ⟨inside',there⟩ := List.getElem?_eq_some_iff.mp second
  rcases Nat.lt_or_eq_of_le order with before | same
  · rw [← here,← there]
    exact List.pairwise_iff_getElem.mp sorted i j inside inside' before
  · subst j
    rw [first] at second
    cases second
    exact UInt64.le_refl _

-- When the rings are found empty, the floor the recorder computes is behind every event that
-- a dump can show: those of a batch or tail it looked at, and those pushed since it read the
-- clock, whose ids are freed later than that.
theorem settled_guards (recycles : Recycles tidOf s) {now : UInt64} {tails : List (T × EventBatch)}
    (settling : s.recorder.phase = .settling (.floor now) tails)
    (nothing : (s.recorder.world.queue.drainBatches usizeMax).1 = []) :
    Guards s (Within s) (recycleFloor now (tails.map (·.2)) s.recorder.ring.batches) := by
  have kept := recycles.timed.kept
  have scan : s.recorder.phase.scan = some ([],tails) := by rw [settling]; rfl
  have survey := recycles.survey _ _ scan
  obtain ⟨past,since⟩ := recycles.floors.since now (by rw [settling]; rfl)
  obtain ⟨belowNow,belowTails,belowHistory⟩ := recycleFloor_le now (tails.map (·.2)) s.recorder.ring.batches
  refine ⟨UInt64.le_trans belowNow past,?_⟩
  rintro t n e freedAt ⟨m,later,shows_⟩ here waits
  have used : e.1 ≤ freedAt :=
    (recycles.freed _ waits).2 (t,e) (mem_ownedBy.mp (List.mem_of_getElem? here)) rfl
  have from_ {start : Nat} {first : Entry} {base : UInt64}
      (stands : (ownedBy t s.recorder.world.ledger.pushed)[start]? = some first) (order : start ≤ n)
      (same : first.1 = base) (below : recycleFloor now (tails.map (·.2)) s.recorder.ring.batches ≤ base) :
      recycleFloor now (tails.map (·.2)) s.recorder.ring.batches ≤ freedAt := by
    have forward := sorted_at (recycles.timed.ticking t).pushed stands here order
    rw [same] at forward
    exact UInt64.le_trans below (UInt64.le_trans forward used)
  have tailed {x : EventBatch} (read : (t,x) ∈ tails) (order : s.starts t ≤ n) :
      recycleFloor now (tails.map (·.2)) s.recorder.ring.batches ≤ freedAt := by
    obtain ⟨first,rest,entries,base⟩ := survey.begun _ read
    have copied := survey.copied _ read
    rw [entries] at copied
    have stands := prefix_at copied (i := 0) rfl
    rw [List.getElem?_drop] at stands
    exact from_ stands order base (belowTails x (List.mem_map_of_mem read))
  cases shows_ with
  | hand =>
    by_cases read : t ∈ tails.map (·.1)
    · obtain ⟨⟨u,x⟩,inside,rfl⟩ := List.mem_map.mp read
      exact tailed inside ((survey.read _ inside).trans later)
    · have begun := (survey.bare t (by simp) read).trans later
      exact UInt64.le_trans belowNow (since t n e freedAt begun here waits)
  | batch p visible =>
    have inHistory := visible_ring kept (drain_none nothing t) visible
    obtain ⟨first,rest,entries,base⟩ := (recycles.timed.based t).first _ (visible_batch visible)
    have stands := visible_entries kept.sound visible (i := 0) (by rw [entries]; rfl)
    exact from_ stands later base (belowHistory _ inHistory)
  | tail todo others x there read =>
    rw [scan] at there
    cases there
    exact tailed read later
  | dumped d dumped own =>
    have events := recycles.written.events
    rw [settling] at events
    have none := List.map_eq_nil_iff.mp events
    rw [none] at dumped
    cases dumped

theorem since_turn (recycles : Recycles tidOf s) (turn : Turn tidOf s s') {now : UInt64}
    (goal : s'.recorder.phase.goal = some (.floor now)) :
    Guards s' (fun t n => (ownedBy t s'.recorder.began).length ≤ n) now := by
  have before (earlier : s.recorder.phase.goal = some (.floor now))
      (began : s'.recorder.began = s.recorder.began) :
      Guards s' (fun t n => (ownedBy t s'.recorder.began).length ≤ n) now := by
    apply guards_turn recycles.toTraced turn (recycles.floors.since now earlier)
    intro t n inside
    rwa [began] at inside
  have same (recorder : s'.recorder = s.recorder) :
      Guards s' (fun t n => (ownedBy t s'.recorder.began).length ≤ n) now :=
    before (recorder ▸ goal) (by rw [recorder])
  cases turn with
  | quiet recorder => exact same recorder
  | forgets key recorder => exact same recorder
  | inserts u key kind ticks floor info callback alive recorder => exact same recorder
  | records u a stepped =>
    rcases goal_cases stepped goal with ⟨earlier,began⟩ | ⟨other,_⟩
    · exact before earlier began
    · cases other
  | own act stepped recorder interner origins starts dumped clock =>
    rcases goal_cases stepped goal with ⟨earlier,began⟩ | ⟨begins,began⟩
    · exact before earlier began
    · have pushed := (own_quiet stepped recorder.1 recorder.2.1).2
      refine ⟨?_,?_⟩
      · rw [clock,recorder.2.2 now begins]
        exact UInt64.le_refl _
      · intro t n e freedAt inside here
        have short := (List.getElem?_eq_some_iff.mp here).1
        rw [began] at inside
        rw [pushed] at short
        omega

theorem ahead_turn (recycles : Recycles tidOf s) (turn : Turn tidOf s s') {now : UInt64}
    {tails : List (T × EventBatch)} (collected : s'.recorder.phase = .collected (.floor now) tails) :
    Guards s' (Within s') (recycleFloor now (tails.map (·.2)) s'.recorder.ring.batches) := by
  have narrower (t : T) (n : Nat) (within : Within s' t n) := within_turn recycles turn within
  have before (earlier : s.recorder.phase = .collected (.floor now) tails)
      (ring : s'.recorder.ring = s.recorder.ring) :
      Guards s' (Within s') (recycleFloor now (tails.map (·.2)) s'.recorder.ring.batches) := by
    rw [ring]
    exact guards_turn recycles.toTraced turn (recycles.floors.ahead now tails earlier) narrower
  have stepped {act : RecorderAct T} (stepped : s.recorder.step tidOf act = some s'.recorder) :
      Guards s' (Within s') (recycleFloor now (tails.map (·.2)) s'.recorder.ring.batches) := by
    rcases reaches_collected stepped collected with
      ⟨earlier,a,w',_,shape,_⟩ | ⟨_,settling,nothing,_,_,shape⟩
    · exact before earlier (by rw [shape]; rfl)
    · have ring : s'.recorder.ring = s.recorder.ring := by rw [shape]
      rw [ring]
      exact guards_turn recycles.toTraced turn (settled_guards recycles settling nothing) narrower
  cases turn with
  | quiet recorder => exact before (recorder ▸ collected) (by rw [recorder])
  | forgets key recorder => exact before (recorder ▸ collected) (by rw [recorder])
  | inserts u key kind ticks floor info callback alive recorder =>
    exact before (recorder ▸ collected) (by rw [recorder])
  | records u a next => exact stepped next
  | own act next => exact stepped next

theorem published_turn (recycles : Recycles tidOf s) (turn : Turn tidOf s s') :
    Guards s' (Within s') s'.recorder.world.queue.recycleFloor := by
  have narrower (t : T) (n : Nat) (within : Within s' t n) := within_turn recycles turn within
  have before (same : s'.recorder.world.queue.recycleFloor = s.recorder.world.queue.recycleFloor) :
      Guards s' (Within s') s'.recorder.world.queue.recycleFloor := by
    rw [same]
    exact guards_turn recycles.toTraced turn recycles.floors.published narrower
  have stepped {act : RecorderAct T} (stepped : s.recorder.step tidOf act = some s'.recorder) :
      Guards s' (Within s') s'.recorder.world.queue.recycleFloor := by
    rcases published_cases recycles.timed.kept.sound stepped with same | ⟨now,tails,collected,floor⟩
    · exact before same
    · rw [floor]
      exact guards_turn recycles.toTraced turn (recycles.floors.ahead now tails collected) narrower
  cases turn with
  | quiet recorder => exact before (by rw [recorder])
  | forgets key recorder => exact before (by rw [recorder])
  | inserts u key kind ticks floor info callback alive recorder => exact before (by rw [recorder])
  | records u a next => exact stepped next
  | own act next => exact stepped next

theorem entered_floored {callback : Callback} {u : T} (here : (s.enter t callback).callbacks u =
    .floored key kind ticks floor) : s.callbacks u = .floored key kind ticks floor ∨
      callback = .floored key kind ticks floor := by
  by_cases same : u = t
  · subst u
    simp only [Tracing.enter,Function.update_self] at here
    exact .inr here
  · simp only [Tracing.enter,Function.update_of_ne same] at here
    exact .inl here

theorem floored_step {act : TracingAct T} (stepped : s.step tidOf act = some s')
    (here : s'.callbacks t = .floored key kind ticks floor) :
    s.callbacks t = .floored key kind ticks floor ∨ floor = s.recorder.world.queue.recycleFloor := by
  cases act with
  | tick now =>
    simp only [Tracing.step] at stepped
    split at stepped
    · cases stepped
      exact .inl here
    · cases stepped
  | create key info =>
    simp only [Tracing.step] at stepped
    split at stepped
    · cases stepped
      exact .inl here
    · cases stepped
  | destroy key =>
    obtain ⟨info,_,rfl⟩ := Option.map_eq_some_iff.mp stepped
    exact .inl here
  | call u key kind =>
    simp only [Tracing.step] at stepped
    split at stepped
    · obtain ⟨info,_,rfl⟩ := Option.map_eq_some_iff.mp stepped
      exact .inl ((entered_floored here).resolve_right (by simp))
    · cases stepped
  | lookup u =>
    simp only [Tracing.step] at stepped
    split at stepped
    · cases stepped
      refine .inl ((entered_floored here).resolve_right ?_)
      split <;> simp
    · cases stepped
  | readFloor u =>
    simp only [Tracing.step] at stepped
    split at stepped
    · cases stepped
      rcases entered_floored here with before | now
      · exact .inl before
      · cases now
        exact .inr rfl
    · cases stepped
  | insert u =>
    simp only [Tracing.step,Tracing.insertStep] at stepped
    split at stepped
    · obtain ⟨info,_,rfl⟩ := Option.map_eq_some_iff.mp stepped
      refine .inl ((entered_floored here).resolve_right ?_)
      split <;> simp
    · cases stepped
  | push u =>
    simp only [Tracing.step,Tracing.pushStep] at stepped
    split at stepped
    · obtain ⟨info,_,stepped⟩ := Option.bind_eq_some_iff.mp stepped
      obtain ⟨r,_,stepped⟩ := Option.bind_eq_some_iff.mp stepped
      split at stepped
      all_goals
        cases stepped
        exact .inl ((entered_floored here).resolve_right (by simp))
    · cases stepped
  | arm u =>
    simp only [Tracing.step] at stepped
    split at stepped
    · obtain ⟨r,_,rfl⟩ := Option.map_eq_some_iff.mp stepped
      exact .inl here
    · cases stepped
  | write u =>
    simp only [Tracing.step] at stepped
    split at stepped
    · obtain ⟨info,_,stepped⟩ := Option.bind_eq_some_iff.mp stepped
      obtain ⟨r,_,stepped⟩ := Option.bind_eq_some_iff.mp stepped
      cases stepped
      exact .inl ((entered_floored here).resolve_right (by simp))
    · cases stepped
  | recorder act =>
    rw [(recorder_quiet stepped).1] at here
    exact .inl here

end Publishing

theorem recycles_step {act : TracingAct T} (recycles : Recycles tidOf s) (met : Outlives s act)
    (stepped : s.step tidOf act = some s') : Recycles tidOf s' := by
  have turn := tracing_turn recycles.toTraced stepped
  have narrower (t : T) (n : Nat) (within : Within s' t n) := within_turn recycles turn within
  refine ⟨traced_step recycles.toTraced met stepped,resolved_turn recycles turn,
    fun todo tails => survey_turn recycles turn,written_turn recycles turn,
    published_turn recycles turn,?_,fun now => since_turn recycles turn,fun now tails => ahead_turn recycles turn⟩
  intro t key kind ticks floor floored
  rcases floored_step stepped floored with before | published
  · exact guards_turn recycles.toTraced turn (recycles.floors.called t key kind ticks floor before) narrower
  · rw [published]
    exact guards_turn recycles.toTraced turn recycles.floors.published narrower

theorem initial_recycles (id : Nat) (clock : Clock) (capacityBytes : Nat) (capacity : Option UInt32)
    (now : UInt64) : Recycles tidOf (.initial id clock capacityBytes capacity now : Tracing T) := by
  have interned : Interned (.initial id clock capacityBytes capacity now : Tracing T) := by
    refine ⟨Interner.new_sound capacity,?_,rfl,?_,?_⟩
    · intro key id there
      cases there
    · intro x pushed
      cases pushed
    · intro x waits
      cases waits
  have unfreed {reach : T → Nat → Prop} : Guards (.initial id clock capacityBytes capacity now) reach 0 := by
    refine ⟨UInt64.le_iff_toNat_le.mpr (Nat.zero_le _),?_⟩
    intro t n e freedAt _ _ waits
    cases waits
  refine ⟨⟨interned,initial_timed id clock capacityBytes,fun _ => rfl,fun _ => rfl⟩,?_,?_,⟨rfl,?_⟩,
    unfreed,?_,?_,?_⟩
  · intro t n e info _ here
    simp [Tracing.initial,Recorder.initial,World.initial] at here
  · intro todo tails scan
    cases scan
  · intro d waits
    cases waits
  · intro t key kind ticks floor floored
    cases floored
  · intro now' goal
    cases goal
  · intro now' tails collected
    cases collected

theorem dumped_names (tidOf : T → UInt32) (id : Nat) (clock : Clock) (capacityBytes : Nat)
    (capacity : Option UInt32) (now : UInt64) {acts : List (TracingAct T)} {s : Tracing T}
    {chunk rest : List Event}
    (run : Machine.Runs (Tracing.step tidOf) Outlives (.initial id clock capacityBytes capacity now) acts s)
    (writing : s.recorder.phase = .writing chunk rest) :
    s.dumped.map (·.1) = chunk ++ rest ∧ ∀ d ∈ s.dumped, ∃ e info,
      (ownedBy d.2.1 s.recorder.world.ledger.pushed)[d.2.2]? = some e ∧
        (ownedBy d.2.1 s.origins)[d.2.2]? = some info ∧ d.1.codeId = codeIdOf e.2 ∧
          s.interner.code d.1.codeId = some info := by
  have recycles : Recycles tidOf s := run.invariant (initial_recycles id clock capacityBytes capacity now)
    fun _ _ _ inv met stepped => recycles_step inv met stepped
  refine ⟨by rw [recycles.written.events,writing]; rfl,?_⟩
  intro d waits
  obtain ⟨e,here,code⟩ := recycles.written.stands d waits
  have inside := (List.getElem?_eq_some_iff.mp here).1
  rw [← ownedBy_parallel recycles.parallel] at inside
  have origin := List.getElem?_eq_getElem inside
  have within : Within s d.2.1 d.2.2 := within_shows (.dumped d waits rfl) (Nat.le_refl _)
  refine ⟨e,_,here,origin,code,?_⟩
  rw [code]
  exact recycles.resolved _ _ e _ within here origin

def testsOutlives (s : Tracing Unit) : TracingAct Unit → Bool
  | .destroy key => (s.callbacks ()).key != some key
  | _ => true

theorem testsOutlives_meets (s : Tracing Unit) (act : TracingAct Unit) (checked : testsOutlives s act = true) :
    Outlives s act := by
  cases act with
  | destroy key =>
    intro t
    simpa [testsOutlives] using checked
  | _ => trivial

-- The code object of the event is gone and the table is full; the open batch holds the floor
-- down, so the next code object gets no id and the event keeps its name.
theorem dumped_names_destroyed : ∃ (s : Tracing Unit) (d : Event × Unit × Nat),
    s.dumped = [d] ∧ s.interner.lookup 16 = none ∧
      ∃ info, s.interner.code d.1.codeId = some info ∧ (ownedBy () s.origins)[d.2.2]? = some info := by
  have ran : (Machine.checkedRun (Tracing.step fun _ => 1) testsOutlives
      (.initial 1 .mock 1000000 (some 1) 100)
      [.create 8 ⟨"f","a.py",1⟩,.call () 8 .Begin,.lookup (),.readFloor (),.insert (),.push (),.arm (),.write (),
        .tick 105,.destroy 8,.create 16 ⟨"g","a.py",2⟩,.tick 110,.recorder (.floor 110),.recorder .lock,
        .recorder .readTail,.recorder .unlock,.recorder .absorb,.recorder .publish,.call () 16 .Begin,.lookup (),
        .readFloor (),.insert (),.recorder (.dump 0 200),.recorder .absorb,.recorder .lock,.recorder .readTail,
        .recorder .unlock,.recorder .absorb,.recorder (.assemble true)]).map (fun s =>
          (s.recorder.phase,s.dumped.length,s.interner.lookup 16)) =
      some (.writing [.new 100 1 0 .Begin] [],1,none) := by
    decide +kernel
  obtain ⟨s,run,facts⟩ := Option.map_eq_some_iff.mp ran
  simp only [Prod.mk.injEq] at facts
  obtain ⟨phase,one,absent⟩ := facts
  obtain ⟨_,named⟩ := dumped_names (fun _ => 1) 1 .mock 1000000 (some 1) 100
    (Machine.runs_of_checked testsOutlives_meets run) phase
  obtain ⟨d,only⟩ := List.length_eq_one_iff.mp one
  obtain ⟨e,info,_,origin,_,code⟩ := named d (only ▸ List.mem_singleton_self d)
  exact ⟨s,d,only,absent,info,code,origin⟩

end Trace0
