import Trace0.DumpRuns
import Trace0.Lib.Machine
import Trace0.SnapshotWindow

namespace Trace0
namespace RunRecorder

variable {T : Type} [DecidableEq T]

-- What was drained is what was evicted and then what the ring holds, its floor is the
-- oldest window's, and nothing a window could reach was evicted while there was room.
structure Guarded (capacity : Nat) (r : RunRecorder T) : Prop where
  split : r.recorder.world.ledger.drained.map (·.2) = r.evictions.map (·.batch) ++ r.recorder.ring.batches
  room : r.recorder.ring.capacity = capacity
  floor : r.recorder.ring.floor = (r.recorder.windows.map (·.2)).min?
  spared : ∀ e ∈ r.evictions, ∀ w ∈ e.windows, e.batch.endTicks < w.2 ∨ Ring.Excess capacity e.held

variable {tidOf : T → UInt32} {sinks : Sinks} {r r' : RunRecorder T} {act : RunAct T} {capacity : Nat}

theorem floor_le {windows : List (Nat × UInt64)} {w : Nat × UInt64} (open_ : w ∈ windows) :
    ∃ floor, (windows.map (·.2)).min? = some floor ∧ floor ≤ w.2 := by
  have start := List.mem_map_of_mem (f := (·.2)) open_
  cases least : (windows.map (·.2)).min? with
  | none =>
    rw [List.min?_eq_none_iff.mp least] at start
    cases start
  | some floor => exact ⟨floor,rfl,(List.min?_eq_some_iff.mp least).2 _ start⟩

omit [DecidableEq T] in
theorem noted_spared {ring : Ring} {evicted : List (EventBatch × Nat)} {n : Nat} {windows : List (Nat × UInt64)}
    (guarded : Guarded capacity r) (room : ring.capacity = capacity)
    (floor : ring.floor = (windows.map (·.2)).min?) (unprotected : ∀ e ∈ evicted, ring.Unprotected e) :
    ∀ e ∈ r.noted evicted n windows, ∀ w ∈ e.windows, e.batch.endTicks < w.2 ∨ Ring.Excess capacity e.held := by
  intro e present w open_
  rcases List.mem_append.mp present with earlier | now
  · exact guarded.spared e earlier w open_
  · obtain ⟨x,inside,rfl⟩ := List.mem_map.mp now
    obtain ⟨low,least,below⟩ := floor_le open_
    rcases unprotected x inside with outside | full
    · exact .inl (UInt64.lt_of_lt_of_le (outside low (floor.trans least)) below)
    · exact .inr (room ▸ full)

omit [DecidableEq T] in
theorem noted_batches (r : RunRecorder T) (evicted : List (EventBatch × Nat)) (n : Nat) (windows : List (Nat × UInt64)) :
    (r.noted evicted n windows).map (·.batch) = r.evictions.map (·.batch) ++ evicted.map (·.1) := by
  simp [noted,Function.comp_def]

omit [DecidableEq T] in
theorem guarded_same (guarded : Guarded capacity r) (ring : r'.recorder.ring = r.recorder.ring)
    (windows : r'.recorder.windows = r.recorder.windows)
    (drained : r'.recorder.world.ledger.drained = r.recorder.world.ledger.drained)
    (evictions : r'.evictions = r.evictions) : Guarded capacity r' := by
  obtain ⟨split,room,floor,spared⟩ := guarded
  exact ⟨by rw [drained,ring,evictions,split],by rw [ring,room],by rw [ring,windows,floor],evictions ▸ spared⟩

theorem guarded_absorb (guarded : Guarded capacity r) {limit : Nat} {next : Nat → Phase T}
    (absorbed : r.recorder.absorb tidOf limit next = some r'.recorder) (evictions : r'.evictions = r.pushed limit) :
    Guarded capacity r' := by
  obtain ⟨_,drained,_,shape⟩ := absorb_some absorbed
  have same := Ring.pushes_same ((r.recorder.world.queue.drainBatches limit).1.map (·.2)) r.recorder.ring
  refine ⟨?_,?_,?_,?_⟩
  · rw [drained,List.map_append,guarded.split,List.append_assoc,Ring.pushEvictions_split,evictions,pushed,
      noted_batches,List.append_assoc,shape]
  · rw [shape]
    exact same.2.trans guarded.room
  · rw [shape]
    exact same.1.trans guarded.floor
  · rw [evictions]
    exact noted_spared guarded guarded.room guarded.floor (Ring.pushEvictions_unprotected _ _)

omit [DecidableEq T] in
theorem guarded_rewindowed (guarded : Guarded capacity r) (order : Sent T) (windows : List (Nat × UInt64))
    (stand : Stand T) : Guarded capacity (r.rewindowed order windows stand) := by
  have same := r.recorder.ring.setFloor_same (windows.map (·.2)).min?
  refine ⟨?_,same.2.trans guarded.room,same.1,?_⟩
  · simp only [rewindowed,Recorder.refloor,noted_batches]
    rw [List.append_assoc,← Ring.floorEvictions_split]
    exact guarded.split
  · refine noted_spared guarded ?_ rfl (Ring.floorEvictions_unprotected _ _)
    exact guarded.room

theorem guarded_own (guarded : Guarded capacity r) (own : Own tidOf sinks r r') : Guarded capacity r' := by
  cases own with
  | absorb limit stand recorder here there closing open_ absorbed => exact guarded_absorb guarded absorbed rfl
  | jobAbsorb recorder absorbed busy =>
    obtain ⟨next,absorbed⟩ := absorbStep_absorb absorbed busy
    exact guarded_absorb guarded absorbed rfl
  | job act recorder next stepped =>
    obtain ⟨ring,windows,ledger⟩ := job_same next stepped
    exact guarded_same guarded ring windows (congrArg Ledger.drained ledger) rfl
  | floor now recorder ticker begun here =>
    obtain ⟨_,rfl⟩ := floor_some begun
    exact guarded_same guarded rfl rfl rfl rfl
  | floorLast now recorder order last path begun here =>
    obtain ⟨_,rfl⟩ := floor_some begun
    exact guarded_same guarded rfl rfl rfl rfl
  | opened order last id start here msg => exact guarded_rewindowed guarded _ _ _
  | cancelled order last id here msg => exact guarded_rewindowed guarded _ _ _
  | ended order last id path here msg => exact guarded_rewindowed guarded _ _ _
  | _ => exact guarded_same guarded rfl rfl rfl rfl

-- A window opened by a message handled when so many batches had been drained, and over with
-- none handled since.
def Outstanding (handled : List (Sent T × Nat)) (id : Nat) (start : UInt64) (n : Nat) : Prop :=
  ∃ before order after, handled = before ++ (order,n) :: after ∧ order.msg = .open_ id start ∧
    ∀ m ∈ after, m.1.msg.ends ≠ some id

omit [DecidableEq T] in
theorem outstanding_snoc {handled : List (Sent T × Nat)} {order : Sent T} {m n id : Nat} {start : UInt64} :
    Outstanding (handled ++ [(order,m)]) id start n ↔
      Outstanding handled id start n ∧ order.msg.ends ≠ some id ∨ order.msg = .open_ id start ∧ n = m := by
  constructor
  · rintro ⟨before,first,after,split,opens,unended⟩
    cases after using List.reverseRecOn with
    | nil =>
      obtain ⟨_,same⟩ := List.append_inj' split rfl
      cases same
      exact .inr ⟨opens,rfl⟩
    | append_singleton after last _ =>
      rw [← List.cons_append,← List.append_assoc] at split
      obtain ⟨front,same⟩ := List.append_inj' split rfl
      cases same
      exact .inl ⟨⟨before,first,after,front,opens,fun m inside => unended m (List.mem_append_left _ inside)⟩,
        unended _ (List.mem_append_right _ List.mem_cons_self)⟩
  · rintro (⟨⟨before,first,after,rfl,opens,unended⟩,last⟩ | ⟨opens,rfl⟩)
    · refine ⟨before,first,after ++ [(order,m)],by simp,opens,?_⟩
      intro m inside
      rcases List.mem_append.mp inside with earlier | now
      · exact unended m earlier
      · rw [List.mem_singleton.mp now]
        exact last
    · exact ⟨handled,order,[],rfl,opens,by simp⟩

omit [DecidableEq T] in
theorem outstanding_take {handled : List (Sent T × Nat)} {order : Sent T} {l k n id : Nat} {start : UInt64}
    (at_ : handled[l]? = some (order,n)) (opens : order.msg = .open_ id start) (later : l < k)
    (unended : ∀ m ∈ handled.drop (l+1), m.1.msg.ends ≠ some id) : Outstanding (handled.take k) id start n := by
  obtain ⟨inside,shape⟩ := List.getElem?_eq_some_iff.mp at_
  have bound : l < (handled.take k).length := by
    rw [List.length_take]
    omega
  have first : (handled.take k)[l] = (order,n) := by
    rw [List.getElem_take]
    exact shape
  refine ⟨(handled.take k).take l,order,(handled.take k).drop (l+1),?_,opens,?_⟩
  · rw [← first,List.getElem_cons_drop,List.take_append_drop]
  · intro m present
    rw [List.drop_take] at present
    exact unended m (List.mem_of_mem_take present)

-- What was evicted was noted with every window outstanding at that moment.
def Marked (handled : List (Sent T × Nat)) (evictions : List Eviction) : Prop :=
  ∀ e ∈ evictions, e.handled ≤ handled.length ∧
    ∀ id start n, Outstanding (handled.take e.handled) id start n → (id,start) ∈ e.windows

omit [DecidableEq T] in
theorem marked_grown {handled handled' : List (Sent T × Nat)} {evictions : List Eviction}
    (marked : Marked handled evictions) (grown : handled <+: handled') : Marked handled' evictions := by
  intro e present
  obtain ⟨bound,open_⟩ := marked e present
  obtain ⟨more,rfl⟩ := grown
  refine ⟨by rw [List.length_append]; omega,?_⟩
  rw [List.take_append_of_le_length bound]
  exact open_

omit [DecidableEq T] in
theorem marked_noted {handled : List (Sent T × Nat)} {evicted : List (EventBatch × Nat)} {windows : List (Nat × UInt64)}
    (marked : Marked r.handled r.evictions) (grown : r.handled <+: handled)
    (open_ : ∀ id start n, Outstanding handled id start n → (id,start) ∈ windows) :
    Marked handled (r.noted evicted handled.length windows) := by
  intro e present
  rcases List.mem_append.mp present with earlier | now
  · exact marked_grown marked grown e earlier
  · obtain ⟨x,_,rfl⟩ := List.mem_map.mp now
    refine ⟨Nat.le_refl _,?_⟩
    rw [List.take_length]
    exact open_

-- The windows are those outstanding, and each was noted with whatever was evicted since.
structure Windowed (r : RunRecorder T) : Prop where
  windows : ∀ w, w ∈ r.recorder.windows ↔ ∃ n, Outstanding r.handled w.1 w.2 n
  since : ∀ id start n, Outstanding r.handled id start n → ∀ i e, n ≤ i → r.evictions[i]? = some e →
    (id,start) ∈ e.windows
  marked : Marked r.handled r.evictions

omit [DecidableEq T] in
theorem windowed_same (windowed : Windowed r) (windows : r'.recorder.windows = r.recorder.windows)
    (handled : r'.handled = r.handled) (evictions : r'.evictions = r.evictions) : Windowed r' :=
  ⟨by rw [windows,handled]; exact windowed.windows,by rw [handled,evictions]; exact windowed.since,
    by rw [handled,evictions]; exact windowed.marked⟩

omit [DecidableEq T] in
theorem noted_since {evicted : List (EventBatch × Nat)} {windows : List (Nat × UInt64)} {id m n : Nat} {start : UInt64}
    (open_ : (id,start) ∈ windows)
    (since : ∀ i e, n ≤ i → r.evictions[i]? = some e → (id,start) ∈ e.windows) :
    ∀ i e, n ≤ i → (r.noted evicted m windows)[i]? = some e → (id,start) ∈ e.windows := by
  intro i e later place
  rw [noted,List.getElem?_append] at place
  split at place
  · exact since i e later place
  · rw [List.getElem?_map,Option.map_eq_some_iff] at place
    obtain ⟨x,_,rfl⟩ := place
    exact open_

theorem windowed_absorb (windowed : Windowed r) {limit : Nat} {next : Nat → Phase T}
    (absorbed : r.recorder.absorb tidOf limit next = some r'.recorder) (handled : r'.handled = r.handled)
    (evictions : r'.evictions = r.pushed limit) : Windowed r' := by
  obtain ⟨_,_,_,shape⟩ := absorb_some absorbed
  have windows : r'.recorder.windows = r.recorder.windows := by rw [shape]
  have open_ (id : Nat) (start : UInt64) (n : Nat) (outstanding : Outstanding r.handled id start n) :
      (id,start) ∈ r.recorder.windows :=
    (windowed.windows (id,start)).mpr ⟨n,outstanding⟩
  refine ⟨by rw [windows,handled]; exact windowed.windows,?_,?_⟩
  · rw [handled,evictions]
    intro id start n outstanding
    exact noted_since (open_ id start n outstanding) (windowed.since id start n outstanding)
  · rw [handled,evictions]
    exact marked_noted windowed.marked List.prefix_rfl open_

omit [DecidableEq T] in
theorem windowed_rewindowed (windowed : Windowed r) (guarded : Guarded capacity r) {order : Sent T}
    {windows : List (Nat × UInt64)} {stand : Stand T}
    (held : ∀ w, w ∈ windows ↔ w ∈ r.recorder.windows ∧ order.msg.ends ≠ some w.1 ∨ order.msg = .open_ w.1 w.2) :
    Windowed (r.rewindowed order windows stand) := by
  have outstanding (id : Nat) (start : UInt64) (n : Nat) :
      Outstanding (r.rewindowed order windows stand).handled id start n → (id,start) ∈ windows := by
    intro open_
    rw [held]
    rcases outstanding_snoc.mp open_ with ⟨earlier,kept⟩ | ⟨opens,_⟩
    · exact .inl ⟨(windowed.windows (id,start)).mpr ⟨n,earlier⟩,kept⟩
    · exact .inr opens
  have marked : Marked (r.rewindowed order windows stand).handled (r.rewindowed order windows stand).evictions := by
    have more : (r.rewindowed order windows stand).handled.length = r.handled.length+1 := by
      simp [rewindowed]
    change Marked _ (r.noted _ (r.handled.length+1) windows)
    rw [← more]
    exact marked_noted windowed.marked (List.prefix_append r.handled _) outstanding
  refine ⟨?_,?_,marked⟩
  · intro w
    constructor
    · intro inside
      rcases (held w).mp inside with ⟨earlier,kept⟩ | opens
      · obtain ⟨n,open_⟩ := (windowed.windows w).mp earlier
        exact ⟨n,outstanding_snoc.mpr (.inl ⟨open_,kept⟩)⟩
      · exact ⟨_,outstanding_snoc.mpr (.inr ⟨opens,rfl⟩)⟩
    · rintro ⟨n,open_⟩
      exact outstanding w.1 w.2 n open_
  · intro id start n open_
    refine noted_since (outstanding id start n open_) ?_
    intro i e later place
    rcases outstanding_snoc.mp open_ with ⟨earlier,_⟩ | ⟨_,rfl⟩
    · exact windowed.since id start n earlier i e later place
    · -- nothing had been evicted that was not drained before
      have split := congrArg List.length guarded.split
      simp only [List.length_map,List.length_append] at split
      have inside := (List.getElem?_eq_some_iff.mp place).1
      omega

omit [DecidableEq T] in
theorem dumped_unopened (tallied : Tallied sinks r) {order : Sent T} {last : Bool} {path : String}
    (here : r.stand = .handling order last (.dumped path)) (id : Nat) (start : UInt64) :
    order.msg ≠ .open_ id start := by
  intro opens
  have fits := tallied.fits
  rw [here] at fits
  have asks : order.msg.asks.isSome = true := fits
  rw [opens] at asks
  cases asks

theorem windowed_own (windowed : Windowed r) (guarded : Guarded capacity r) (tallied : Tallied sinks r)
    (own : Own tidOf sinks r r') : Windowed r' := by
  cases own with
  | absorb limit stand recorder here there closing open_ absorbed => exact windowed_absorb windowed absorbed rfl rfl
  | jobAbsorb recorder absorbed busy =>
    obtain ⟨next,absorbed⟩ := absorbStep_absorb absorbed busy
    exact windowed_absorb windowed absorbed rfl rfl
  | job act recorder next stepped =>
    obtain ⟨_,windows,_⟩ := job_same next stepped
    exact windowed_same windowed windows rfl rfl
  | floor now recorder ticker begun here =>
    obtain ⟨_,rfl⟩ := floor_some begun
    exact windowed_same windowed rfl rfl rfl
  | floorLast now recorder order last path begun here =>
    obtain ⟨_,rfl⟩ := floor_some begun
    exact windowed_same windowed rfl rfl rfl
  | opened order last id start here msg =>
    refine windowed_rewindowed windowed guarded ?_
    rintro ⟨w,from_⟩
    simp only [msg,Control.ends,List.mem_append,List.mem_singleton,Prod.mk.injEq,Control.open_.injEq]
    grind
  | cancelled order last id here msg =>
    refine windowed_rewindowed windowed guarded ?_
    rintro ⟨w,from_⟩
    simp only [msg,Control.ends,List.mem_filter,decide_eq_true_eq,reduceCtorEq]
    grind
  | ended order last id path here msg =>
    refine windowed_rewindowed windowed guarded ?_
    rintro ⟨w,from_⟩
    simp only [msg,List.mem_filter,decide_eq_true_eq,dumped_unopened tallied here w from_]
    grind
  | unwindowed order last path here msg =>
    have same (id : Nat) (start : UInt64) (n : Nat) :
        Outstanding (r.handled ++ [(order,r.recorder.world.ledger.drained.length)]) id start n ↔
          Outstanding r.handled id start n := by
      rw [outstanding_snoc]
      simp [msg,dumped_unopened tallied here id start]
    exact ⟨by simp only [same]; exact windowed.windows,by simp only [same]; exact windowed.since,
      marked_grown windowed.marked (List.prefix_append _ _)⟩
  | _ => exact windowed_same windowed rfl rfl rfl

structure Protected (capacity : Nat) (clock : Clock) (d : DumpRun T) : Prop extends Told clock d where
  spared : ∀ e ∈ d.evicted, ∀ w ∈ e.windows, e.batch.endTicks < w.2 ∨ Ring.Excess capacity e.held
  since : ∀ id start n, Outstanding d.handled id start n → ∀ i e, n ≤ i → d.evicted[i]? = some e →
    (id,start) ∈ e.windows
  marked : Marked d.handled d.evicted

structure Watched (tidOf : T → UInt32) (sinks : Sinks) (capacity : Nat) (clock : Clock) (r : RunRecorder T) : Prop where
  sound : Sound tidOf r.recorder.world
  timed : r.recorder.world.queue.clock = clock
  guarded : Guarded capacity r
  windowed : Windowed r
  settled : Tallied sinks r ∧ Poised r ∧ Dumps (Protected capacity clock) r

omit [DecidableEq T] in
theorem gathered_told {clock : Clock} (same : r.recorder.world.queue.clock = clock) (guarded : Guarded capacity r)
    (poised : Poised r) {order : Sent T} {last : Bool} {start end_ : UInt64} {tails : List (T × EventBatch)}
    {path : String} (here : r.stand = .handling order last .gathering)
    (phase : r.recorder.phase = .collected (.dump start end_) tails) :
    Told clock (r.gathered order tails start end_ path) := by
  obtain ⟨from_,until_,rest,asks,goal⟩ := poised.gathering order last here
  rw [phase] at goal
  cases goal
  exact ⟨⟨start,end_,rest,asks,by rw [← same]; rfl⟩,guarded.split⟩

theorem watched_step {clock : Clock} (watched : Watched tidOf sinks capacity clock r)
    (stepped : r.step tidOf sinks act = some r') : Watched tidOf sinks capacity clock r' := by
  obtain ⟨sound,same,guarded,windowed,settled⟩ := watched
  have next := settled_step (Q := Protected capacity clock)
    (fun d _ _ held => ⟨⟨held.asked,held.split⟩,held.spared,held.since,held.marked⟩)
    (fun order last start end_ tails path here phase =>
      ⟨gathered_told same guarded settled.2.1 here phase,guarded.spared,windowed.since,windowed.marked⟩) settled stepped
  rcases step_cases stepped with ⟨a,w,_,undrained,moved,rfl⟩ | ⟨msg,_,rfl⟩ | ⟨_,own⟩
  · have rest := step_rest sound moved
    exact ⟨step_sound sound moved,rest.clock.trans same,guarded_same guarded rfl rfl (rest.drained undrained) rfl,
      windowed_same windowed rfl rfl rfl,next⟩
  · exact ⟨sound,same,guarded_same guarded rfl rfl rfl rfl,windowed_same windowed rfl rfl rfl,next⟩
  · exact ⟨own_sound sound own,(own_clock sound own).trans same,guarded_own guarded own,
      windowed_own windowed guarded settled.1 own,next⟩

theorem initial_watched (id : Nat) (clock : Clock) (capacity : Nat) :
    Watched tidOf sinks capacity clock (initial (T := T) id clock capacity) := by
  refine ⟨initial_sound id clock,rfl,⟨rfl,rfl,rfl,by simp [initial]⟩,⟨?_,?_,?_⟩,initial_settled id clock capacity⟩
  · intro w
    simp [initial,Recorder.initial,Outstanding]
  · intro w start n open_
    obtain ⟨before,_,_,split,_⟩ := open_
    cases before <;> cases split
  · intro e present
    cases present

theorem step_evictions (stepped : r.step tidOf sinks act = some r') :
    ∃ more, r'.evictions = r.evictions ++ more ∧ ∀ e ∈ more, e.windows = r'.recorder.windows := by
  have noted (evicted : List (EventBatch × Nat)) (n : Nat) (windows : List (Nat × UInt64)) :
      ∃ more, r.noted evicted n windows = r.evictions ++ more ∧ ∀ e ∈ more, e.windows = windows :=
    ⟨_,rfl,by
      rintro e present
      obtain ⟨x,_,rfl⟩ := List.mem_map.mp present
      rfl⟩
  rcases step_cases stepped with ⟨a,w,_,_,_,rfl⟩ | ⟨msg,_,rfl⟩ | ⟨_,own⟩
  · exact ⟨[],by simp,by simp⟩
  · exact ⟨[],by simp,by simp⟩
  · cases own with
    | absorb limit stand recorder here there closing open_ absorbed =>
      obtain ⟨_,_,_,shape⟩ := absorb_some absorbed
      have windows : recorder.windows = r.recorder.windows := by rw [shape]
      simp only [windows]
      exact noted _ _ _
    | jobAbsorb recorder absorbed busy =>
      obtain ⟨next,absorbed⟩ := absorbStep_absorb absorbed busy
      obtain ⟨_,_,_,shape⟩ := absorb_some absorbed
      have windows : recorder.windows = r.recorder.windows := by rw [shape]
      simp only [windows]
      exact noted _ _ _
    | opened order last id start here msg => exact noted _ _ _
    | cancelled order last id here msg => exact noted _ _ _
    | ended order last id path here msg => exact noted _ _ _
    | _ => exact ⟨[],by simp,by simp⟩

theorem entries_le_end {b : EventBatch} {e : Entry} (ordered : b.entries.Pairwise (·.1 ≤ ·.1)) (present : e ∈ b.entries) :
    e.1 ≤ b.endTicks := by
  cases split : b.entries using List.reverseRecOn with
  | nil =>
    rw [split] at present
    cases present
  | append_singleton front last _ =>
    have end_ : b.endTicks = last.1 := b.endTicks_last last (by simp [split])
    rw [split] at ordered present
    rw [end_]
    rcases List.mem_append.mp present with earlier | now
    · exact (List.pairwise_append.mp ordered).2.2 e earlier last List.mem_cons_self
    · rw [List.mem_singleton.mp now]
      exact UInt64.le_refl _

theorem within_evicted {evicted history : List EventBatch} {start : UInt64} {n : Nat} (tid : UInt32) (end_ : UInt64)
    (ordered : (streamOf tid (evicted ++ history)).Pairwise (·.1 ≤ ·.1))
    (before : ∀ b ∈ evicted.drop n, b.endTicks < start) :
    (within start end_ (streamOf tid ((evicted ++ history).drop n))).Sublist
      (within start end_ (streamOf tid history)) := by
  have outside : within start end_ (streamOf tid (evicted.drop n)) = [] := by
    rw [within,List.filter_eq_nil_iff]
    intro e present inside
    rw [decide_eq_true_eq] at inside
    obtain ⟨b,held,own⟩ := List.mem_flatMap.mp present
    obtain ⟨held,mine⟩ := List.mem_filter.mp held
    have part : b.entries.Sublist (streamOf tid (evicted ++ history)) := by
      have one : [b].Sublist (evicted ++ history) :=
        List.singleton_sublist.mpr (List.mem_append_left _ (List.mem_of_mem_drop held))
      have whole := (one.filter (·.tid = tid)).flatMap (·.entries)
      simpa [streamOf,mine] using whole
    have low := UInt64.lt_of_le_of_lt (entries_le_end (ordered.sublist part) own) (before b held)
    exact absurd inside.1 (UInt64.not_le.mpr low)
  have rest : (streamOf tid (history.drop (n - evicted.length))).Sublist (streamOf tid history) :=
    ((List.drop_sublist _ _).filter _).flatMap _
  rw [List.drop_append,streamOf_append,within,List.filter_append]
  rw [within] at outside
  rw [outside,List.nil_append]
  exact rest.filter _

omit [DecidableEq T] in
theorem protected_inside {clock : Clock} {d : DumpRun T} (kept : Protected capacity clock d) {w n : Nat}
    {start end_ : UInt64} {reason : String} {done : Option Nat} (msg : d.order.msg = .dump w start end_ reason done)
    (open_ : Outstanding d.handled w start n) (room : ∀ e ∈ d.evicted, ¬Ring.Excess capacity e.held) (tid : UInt32)
    (ordered : (streamOf tid (d.absorbed.map (·.2))).Pairwise (·.1 ≤ ·.1)) :
    ((within start end_ (streamOf tid ((d.absorbed.map (·.2)).drop n))).map (eventOf clock tid)).Sublist
      (d.events.filter (·.tid = tid)) := by
  obtain ⟨from_,until_,rest,asks,events⟩ := kept.asked
  rw [msg] at asks
  cases asks
  rw [kept.split] at ordered ⊢
  have before : ∀ b ∈ (d.evicted.map (·.batch)).drop n, b.endTicks < start := by
    intro b present
    obtain ⟨i,place⟩ := List.mem_iff_getElem?.mp present
    rw [List.getElem?_drop,List.getElem?_map,Option.map_eq_some_iff] at place
    obtain ⟨e,there,rfl⟩ := place
    have noted := kept.since w start n open_ (n+i) e (Nat.le_add_right _ _) there
    have evicted := List.mem_of_getElem? there
    exact (kept.spared e evicted _ noted).resolve_right (room e evicted)
  have front := (within_evicted tid end_ ordered before).map (eventOf clock tid)
  rw [streamOf_append,List.pairwise_append] at ordered
  rw [events]
  exact front.trans (assemble_inside d.history d.tails clock d.horizonTicks start end_ tid ordered.2.1)

theorem windows_protected (tidOf : T → UInt32) (sinks : Sinks) (id : Nat) (clock : Clock) (capacityBytes : Nat)
    {acts : List (RunAct T)} (path : Machine.Runs (step tidOf sinks) Machine.anything (initial id clock capacityBytes) acts r) :
    ((∀ floor, r.recorder.ring.floor = some floor ↔ (∃ w n, Outstanding r.handled w floor n) ∧
        ∀ w start n, Outstanding r.handled w start n → floor ≤ start) ∧
      (r.recorder.ring.floor = none ↔ ∀ w start n, ¬Outstanding r.handled w start n)) ∧
    (∀ act r', r.step tidOf sinks act = some r' → ∃ more, r'.evictions = r.evictions ++ more ∧
      r'.recorder.world.ledger.drained.map (·.2) = r'.evictions.map (·.batch) ++ r'.recorder.ring.batches ∧
      ∀ e ∈ more, ∀ w start n, Outstanding r'.handled w start n →
        e.batch.endTicks < start ∨ Ring.Excess capacityBytes e.held) ∧
    ∀ d ∈ r.dumps, ∀ w start n end_ reason done, d.order.msg = .dump w start end_ reason done →
      Outstanding d.handled w start n → (∀ e ∈ d.evicted, ¬Ring.Excess capacityBytes e.held) →
      (∀ tid, (streamOf tid (d.absorbed.map (·.2))).Pairwise (·.1 ≤ ·.1)) →
      ∀ tid, ((within start end_ (streamOf tid ((d.absorbed.map (·.2)).drop n))).map (eventOf clock tid)).Sublist
        (d.written.flatten.filter (·.tid = tid)) := by
  have start : Watched tidOf sinks capacityBytes clock (initial (T := T) id clock capacityBytes) :=
    initial_watched id clock capacityBytes
  have watched := path.invariant start
    fun _ _ _ watched _ stepped => watched_step watched stepped
  have open_ (start : UInt64) : start ∈ r.recorder.windows.map (·.2) ↔ ∃ w n, Outstanding r.handled w start n := by
    constructor
    · intro present
      obtain ⟨w,inside,rfl⟩ := List.mem_map.mp present
      exact ⟨w.1,(watched.windowed.windows w).mp inside⟩
    · rintro ⟨w,outstanding⟩
      exact List.mem_map.mpr ⟨(w,start),(watched.windowed.windows _).mpr outstanding,rfl⟩
  refine ⟨⟨fun floor => ?_,?_⟩,fun act r' stepped => ?_,?_⟩
  · rw [watched.guarded.floor,List.min?_eq_some_iff,open_]
    apply and_congr_right
    intro _
    constructor
    · intro least w start n outstanding
      exact least start ((open_ start).mpr ⟨w,n,outstanding⟩)
    · intro least start present
      obtain ⟨w,n,outstanding⟩ := (open_ start).mp present
      exact least w start n outstanding
  · rw [watched.guarded.floor,List.min?_eq_none_iff,List.eq_nil_iff_forall_not_mem]
    simp only [open_,not_exists]
    exact ⟨fun none w start n => none start w n,fun none start w n => none w start n⟩
  · have next := watched_step watched stepped
    obtain ⟨more,evictions,noted⟩ := step_evictions stepped
    refine ⟨more,evictions,next.guarded.split,?_⟩
    intro e present w start n outstanding
    have inside : e ∈ r'.evictions := evictions ▸ List.mem_append_right _ present
    refine next.guarded.spared e inside (w,start) ?_
    rw [noted e present]
    exact (next.windowed.windows _).mpr ⟨n,outstanding⟩
  · intro d present w start n end_ reason done msg outstanding room ordered tid
    rw [watched.settled.1.written d present]
    exact protected_inside (watched.settled.2.2.finished d present) msg outstanding room tid (ordered tid)

-- A block around the second of two events; the batch with the first leaves the ring for the
-- other one, while the block is open.
def blockAroundOne : List (RunAct Unit) :=
  let flush : List (RunAct Unit) := [.outside (.flush ()),.outside (.take ()),.outside (.arm ()),.outside (.handOver ())]
  [.send (.open_ 1 50),.own 0,.own 0,.outside (.push () 1 10 7 .Begin),.outside (.arm ()),.outside (.write ())] ++
    flush ++ [.outside (.push () 1 100 8 .Begin)] ++ flush ++ [.send (.dump 1 50 200 "checkout" (some 0))] ++
    List.replicate 14 (.own 300)

theorem windows_protected_one : ∃ (r : RunRecorder Unit) (d : DumpRun Unit), r.dumps = [d] ∧
    d.evicted.length = 1 ∧ eventOf .mock 1 (100,packCodeKind 8 .Begin) ∈ d.written.flatten := by
  have ran : (Machine.checkedRun (step (fun _ => 1) fun _ reason => ⟨reason,none⟩) (fun _ _ => true)
      (initial 1 .mock 12000) blockAroundOne).map (fun r => r.dumps.map fun d =>
        decide (d.order.msg = .dump 1 50 200 "checkout" (some 0) ∧
          d.handled.map (fun h => (h.1.msg,h.2)) = [(.open_ 1 50,0)] ∧ d.evicted.map (·.held) = [16464] ∧
          d.absorbed.map (·.2) = [⟨10,1,[⟨0,packCodeKind 7 .Begin⟩],1024⟩,⟨10,1,[⟨90,packCodeKind 8 .Begin⟩],1024⟩])) =
      some [true] := by
    decide +kernel
  obtain ⟨r,run,facts⟩ := Option.map_eq_some_iff.mp ran
  obtain ⟨d,dumps,facts⟩ := List.map_eq_singleton_iff.mp facts
  rw [decide_eq_true_eq] at facts
  obtain ⟨msg,handled,evicted,absorbed⟩ := facts
  obtain ⟨h,handled,opens⟩ := List.map_eq_singleton_iff.mp handled
  simp only [Prod.mk.injEq] at opens
  obtain ⟨opens,first⟩ := opens
  obtain ⟨e,evicted,held⟩ := List.map_eq_singleton_iff.mp evicted
  refine ⟨r,d,dumps,by simp [evicted],?_⟩
  have room : ∀ e ∈ d.evicted, ¬Ring.Excess 12000 e.held := by
    simp [evicted,held,Ring.Excess,usizeMax]
  have inside := (windows_protected (fun _ => 1) _ 1 .mock 12000
    (Machine.runs_of_checked (fun _ _ _ => trivial) run)).2.2 d (by simp [dumps]) 1 50 0 200 _ _ msg
    ⟨[],h.1,[],by rw [handled,← first]; rfl,opens,by simp⟩ room ?_ 1
  · rw [absorbed] at inside
    have part := inside.trans List.filter_sublist
    exact part.subset (by decide)
  · intro tid
    rw [absorbed]
    by_cases own : tid = 1
    · subst own
      decide
    · simp [streamOf,Ne.symm own]

end RunRecorder

end Trace0
