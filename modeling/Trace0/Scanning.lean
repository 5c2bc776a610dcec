import Trace0.Recorder
import Trace0.Timeline

namespace Trace0

variable {T : Type} [DecidableEq T]

def Phase.scan : Phase T → Option (List T × List (T × EventBatch))
  | .reading _ todo tails => some (todo,tails)
  | .settling _ tails | .collected _ tails => some ([],tails)
  | _ => none

def Phase.unwritten : Phase T → List Event
  | .writing chunk rest => chunk ++ rest
  | .wrote rest => rest
  | _ => []

def Phase.goal : Phase T → Option Goal
  | .absorbing goal | .locking goal | .reading goal _ _ | .settling goal _ | .collected goal _ => some goal
  | _ => none

-- What a job knows of every thread. A tail is a copy of a batch that covers what was pushed
-- before the job began; a thread without one has handed all of that over, or was on its way
-- out when the registry was locked.
structure Scan (r : Recorder T) (todo : List T) (tails : List (T × EventBatch)) : Prop where
  distinct : (tails.map (·.1) ++ todo).Nodup
  known : r.locks = true → ∀ t ∈ todo, t ∈ r.world.recorders
  marked : r.seen ≤ r.world.ledger.drained.length
  tail : ∀ t x, (t,x) ∈ tails → ∃ i, TailAt (ownedBy t r.began) (r.world.view t).batches x i ∧
    ∀ h ∈ ownedBy t (r.world.ledger.drained.take r.seen),
      h ∈ (r.world.view t).batches.take i ∨ h.tid = x.tid ∧ h.baseTicks = x.baseTicks
  bare : ∀ t, t ∉ todo → t ∉ tails.map (·.1) →
    ownedBy t r.began <+: handed (ownedBy t r.world.ledger.shipped) ∨ (r.world.stage t).gone = true

structure Kept (tidOf : T → UInt32) (r : Recorder T) : Prop where
  sound : Sound tidOf r.world
  registered : Registered r.world
  shown : ∀ t, Shown (r.world.view t)
  unflushed : ∀ t, (r.world.stage t).recording = true ∨ (r.world.stage t).gone = true
  history : ∃ evicted, r.world.ledger.drained.map (·.2) = evicted ++ r.ring.batches
  began : ∀ t, ownedBy t r.began <+: ownedBy t r.world.ledger.pushed
  scan : ∀ todo tails, r.phase.scan = some (todo,tails) → Scan r todo tails

variable {tidOf : T → UInt32} {r r' : Recorder T} {w w' : World T} {a : Act T} {t : T}

theorem ring_pushes (batches : List EventBatch) (ring : Ring) :
    ∃ evicted, ring.batches ++ batches = evicted ++ (batches.foldl Ring.push ring).batches := by
  induction batches generalizing ring with
  | nil => exact ⟨[],by simp⟩
  | cons batch rest ih =>
    obtain ⟨first,evicts⟩ := ring.push_evicts batch
    obtain ⟨later,splits⟩ := ih (ring.push batch)
    have now : ring.batches ++ [batch] = first ++ (ring.push batch).batches := evicts.splits
    refine ⟨first ++ later,?_⟩
    rw [List.foldl_cons,List.append_assoc,← splits,← List.append_assoc,← now]
    simp

omit [DecidableEq T] in
theorem moves_handed {v v' : View T} (moves : Moves qid t tid a v v') :
    handed v.shipped <+: handed v'.shipped := by
  cases moves with
  | ship idle miss seated open_ brk blank room => simp
  | handOver stage room => simp
  | _ => exact List.prefix_rfl

omit [DecidableEq T] in
theorem moves_pushed {v v' : View T} (moves : Moves qid t tid a v v') : v.pushed <+: v'.pushed := by
  cases moves with
  | fast idle hit wrote => exact List.prefix_append _ _
  | write stage wrote => exact List.prefix_append _ _
  | _ => exact List.prefix_rfl

theorem kept_move (kept : Kept tidOf r) (stepped : r.world.step tidOf a = some r'.world)
    (recorded : ∀ t, a ≠ .flush t) (staying : r.locks = true → ∀ t, a ≠ .leave t)
    (phase : r'.phase.scan = r.phase.scan) (locks : r'.locks = true → r.locks = true)
    (began : r'.began = r.began) (seen : r'.seen = r.seen)
    (drained : r.world.ledger.drained <+: r'.world.ledger.drained)
    (history : ∃ evicted, r'.world.ledger.drained.map (·.2) = evicted ++ r'.ring.batches) :
    Kept tidOf r' := by
  have rest := step_rest kept.sound stepped
  have moves (t : T) := step_moves kept.sound stepped t
  refine ⟨step_sound kept.sound stepped,
    step_registered kept.sound kept.registered stepped fun t flush => absurd flush (recorded t),
    fun t => shown_moves (kept.sound.threads t) (kept.shown t) (moves t),
    fun t => (moves t).unflushed (recorded t) (kept.unflushed t),history,
    fun t => began ▸ (kept.began t).trans (moves_pushed (moves t)),fun todo tails here => ?_⟩
  obtain ⟨distinct,known,marked,tail,bare⟩ := kept.scan todo tails (phase ▸ here)
  have early : r'.world.ledger.drained.take r'.seen = r.world.ledger.drained.take r.seen := by
    obtain ⟨more,split⟩ := drained
    rw [seen,← split,List.take_append_of_le_length marked]
  refine ⟨distinct,fun locked u member => rest.kept (staying (locks locked) u) (known (locks locked) u member),
    seen ▸ marked.trans drained.length_le,fun u x present => ?_,fun u outside untailed => ?_⟩
  · obtain ⟨i,copy,before⟩ := tail u x present
    have grown := moves_grown (kept.sound.threads u) (moves u)
    refine ⟨i,began ▸ copy.grown grown,fun h member => ?_⟩
    rw [early] at member
    refine (before h member).imp_left fun inside => ?_
    obtain ⟨b,place,_⟩ := copy.batch
    rw [grown.take_eq (List.getElem?_eq_some_iff.mp place).1]
    exact inside
  · rw [began]
    rcases bare u outside untailed with done | gone
    · exact .inl (done.trans (moves_handed (moves u)))
    · exact .inr ((moves u).gone gone)

theorem kept_world (kept : Kept tidOf r) (stepped : r.world.step tidOf a = some w')
    (recorded : ∀ t, a ≠ .flush t) (undrained : ∀ limit, a ≠ .drain limit)
    (staying : r.locks = true → ∀ t, a ≠ .leave t) : Kept tidOf (r.withWorld w') := by
  have drained := (step_rest kept.sound stepped).drained undrained
  have moved : r.world.step tidOf a = some (r.withWorld w').world := stepped
  refine kept_move kept moved recorded staying rfl id rfl rfl ?_ ?_
  · simp only [Recorder.withWorld,drained]
    exact List.prefix_rfl
  · simpa only [Recorder.withWorld,drained] using kept.history

theorem absorb_some {next : Nat → Phase T} (absorbed : r.absorb tidOf limit next = some r') :
    r.world.step tidOf (.drain limit) = some r'.world ∧
      r'.world.ledger.drained = r.world.ledger.drained ++ (r.world.queue.drainBatches limit).1 ∧
      r'.world.queue = (r.world.queue.drainBatches limit).2 ∧
      r' = {r with
        world := r'.world
        ring := ((r.world.queue.drainBatches limit).1.map (·.2)).foldl Ring.push r.ring
        phase := next (r.world.queue.drainBatches limit).1.length} := by
  cases Option.some.inj absorbed
  exact ⟨rfl,rfl,rfl,rfl⟩

theorem kept_absorb {next : Nat → Phase T} (kept : Kept tidOf r)
    (absorbed : r.absorb tidOf limit next = some r') (same : ∀ n, (next n).scan = r.phase.scan)
    (unlocked : r'.locks = false) : Kept tidOf r' := by
  obtain ⟨moved,drained,_,shape⟩ := absorb_some absorbed
  refine kept_move kept moved (by simp) (by simp) ?_ (by simp [unlocked]) (by rw [shape]) (by rw [shape])
    ?_ ?_
  · rw [shape]
    exact same _
  · rw [drained]
    exact List.prefix_append _ _
  · obtain ⟨evicted,split⟩ := kept.history
    obtain ⟨later,kept_⟩ := ring_pushes ((r.world.queue.drainBatches limit).1.map (·.2)) r.ring
    refine ⟨evicted ++ later,?_⟩
    rw [drained,List.map_append,split,List.append_assoc,kept_,List.append_assoc,shape]

theorem kept_same (kept : Kept tidOf r) (world : r'.world = r.world)
    (history : ∃ evicted, r.world.ledger.drained.map (·.2) = evicted ++ r'.ring.batches)
    (began : ∀ t, ownedBy t r'.began <+: ownedBy t r.world.ledger.pushed)
    (scan : ∀ todo tails, r'.phase.scan = some (todo,tails) → Scan r' todo tails) : Kept tidOf r' := by
  obtain ⟨sound,registered,shown,unflushed,_,_,_⟩ := kept
  rw [← world] at sound registered shown unflushed history began
  exact ⟨sound,registered,shown,unflushed,history,began,scan⟩

theorem kept_blind (kept : Kept tidOf r) (world : r'.world = r.world) (ring : r'.ring = r.ring)
    (began : r'.began = r.began ∨ r'.began = r.world.ledger.pushed) (scan : r'.phase.scan = none) :
    Kept tidOf r' := by
  refine kept_same kept world (ring ▸ kept.history) (fun t => ?_) (by simp [scan])
  rcases began with same | now
  · exact same ▸ kept.began t
  · rw [now]

theorem kept_refloor (kept : Kept tidOf r) (phase : r.phase = .idle) (windows : List (Nat × UInt64)) :
    Kept tidOf ({r with windows := windows} : Recorder T).refloor := by
  refine kept_same (r := r) kept rfl ?_ kept.began (by simp [Recorder.refloor,phase,Phase.scan])
  obtain ⟨evicted,split⟩ := kept.history
  obtain ⟨later,evicts⟩ := r.ring.setFloor_evicts (windows.map (·.2)).min?
  have rest : r.ring.batches = later ++ (r.ring.setFloor (windows.map (·.2)).min?).batches := evicts.splits
  exact ⟨evicted ++ later,by rw [split,rest,List.append_assoc]; rfl⟩

theorem unseated_handed (kept : Kept tidOf r) (idle : r.world.stage t = .idle)
    (unseated : Unseated (r.world.threads t)) :
    ownedBy t r.world.ledger.pushed = handed (ownedBy t r.world.ledger.shipped) := by
  have told := (kept.sound.threads t).told
  simp only [World.view,View.inHand,idle,unseated.written,List.append_nil] at told
  exact told.symm

theorem kept_lock (kept : Kept tidOf r) (goal : Goal) :
    Kept tidOf {r with phase := .reading goal r.world.recorders [],seen := r.world.ledger.drained.length} := by
  refine kept_same (r := r) kept rfl kept.history kept.began fun todo tails here => ?_
  cases here
  refine ⟨by simpa using kept.registered.distinct,fun _ _ member => member,Nat.le_refl _,by simp,
    fun t outside _ => ?_⟩
  rcases kept.registered.absent t outside with gone | ⟨idle,unseated⟩
  · exact .inr gone
  · exact .inl (unseated_handed kept idle unseated ▸ kept.began t)

theorem drained_batches (sound : Sound tidOf w) (t : T) :
    ∀ h ∈ ownedBy t w.ledger.drained, h ∈ (w.view t).batches := by
  intro h present
  have accepted : h ∈ acceptedOf (ownedBy t w.ledger.shipped) := by
    have kept : acceptedOf (ownedBy t w.ledger.shipped) = ownedBy t w.ledger.drained ++ w.queue.held t :=
      (sound.threads t).kept
    rw [kept]
    exact List.mem_append_left _ present
  obtain ⟨s,shipped,rfl⟩ := List.mem_map.mp accepted
  exact List.mem_append_left _ (List.mem_map_of_mem (List.mem_filter.mp shipped).1)

theorem kept_readTail {goal : Goal} {todo : List T} {tails tails' : List (T × EventBatch)}
    (kept : Kept tidOf r) (reading : r.phase = .reading goal (t :: todo) tails)
    (more : tails' = tails ++ (((r.world.threads t).readTail r.world.queue.id).map (t,·)).toList) :
    Kept tidOf {r with phase := .reading goal todo tails'} := by
  subst more
  obtain ⟨distinct,known,marked,tail,bare⟩ := kept.scan (t :: todo) tails (by rw [reading]; rfl)
  have locked : r.locks = true := by simp [Recorder.locks,reading]
  have member := known locked t List.mem_cons_self
  have recording := (kept.unflushed t).resolve_right (by simp [kept.registered.present t member])
  refine kept_same (r := r) kept rfl kept.history kept.began fun todo' tails' here => ?_
  cases here
  cases read : (r.world.threads t).readTail r.world.queue.id with
  | none =>
    have shown := tail_none (kept.sound.threads t) recording read
    have all : handed (ownedBy t r.world.ledger.shipped) = ownedBy t r.world.ledger.pushed := by
      have pushed := batches_pushed (kept.sound.threads t)
      rw [shown,List.flatMap_map] at pushed
      exact pushed
    have shorter := (List.nodup_append.mp distinct)
    simp only [Option.map_none,Option.toList_none,List.append_nil]
    refine ⟨?_,fun _ u inside => known locked u (List.mem_cons_of_mem _ inside),marked,tail,
      fun u outside untailed => ?_⟩
    · exact distinct.sublist ((List.Sublist.refl _).append (List.sublist_cons_self _ _))
    · by_cases here : u = t
      · subst u
        exact .inl (all ▸ kept.began t)
      · exact bare u (by simp [here,outside]) untailed
  | some x =>
    obtain ⟨i,copy,early⟩ := tail_at (kept.sound.threads t) (kept.shown t) read (kept.began t)
    simp only [Option.map_some,Option.toList_some]
    refine ⟨?_,fun _ u inside => known locked u (List.mem_cons_of_mem _ inside),marked,
      fun u y present => ?_,fun u outside untailed => ?_⟩
    · simpa using distinct
    · rcases List.mem_append.mp present with before | now
      · exact tail u y before
      · cases List.mem_singleton.mp now
        refine ⟨i,copy,fun h inside => early h (drained_batches kept.sound t h ?_)⟩
        rw [mem_ownedBy] at inside ⊢
        exact List.mem_of_mem_take inside
    · simp only [List.map_append,List.map_cons,List.map_nil,List.mem_append,List.mem_singleton,
        not_or] at untailed
      exact bare u (by simp [untailed.2,outside]) untailed.1

theorem kept_unlock {goal : Goal} {tails : List (T × EventBatch)} (kept : Kept tidOf r)
    (reading : r.phase = .reading goal [] tails) : Kept tidOf {r with phase := .settling goal tails} := by
  refine kept_same (r := r) kept rfl kept.history kept.began fun todo' tails' here => ?_
  cases here
  obtain ⟨distinct,known,marked,tail,bare⟩ := kept.scan [] tails (by rw [reading]; rfl)
  exact ⟨distinct,by simp,marked,tail,bare⟩

theorem kept_publish (kept : Kept tidOf r) (floor : UInt64) :
    Kept tidOf {r with
      world := r.world.withQueue {r.world.queue with recycleFloor := floor}
      phase := .idle} := by
  refine ⟨⟨kept.sound.distinct,kept.sound.threads,kept.sound.balance⟩,
    ⟨kept.registered.distinct,kept.registered.present,kept.registered.absent⟩,kept.shown,kept.unflushed,
    kept.history,kept.began,by simp [Phase.scan]⟩

omit [DecidableEq T] in
theorem nextChunk_scan (events : List Event) : (nextChunk events : Phase T).scan = none := by
  unfold nextChunk
  split <;> rfl

theorem kept_jobStep (act : RecorderAct T) (kept : Kept tidOf r) (stepped : r.jobStep act = some r') :
    Kept tidOf r' := by
  unfold Recorder.jobStep at stepped
  split at stepped
  · split at stepped
    · rename_i idle
      cases stepped
      exact kept_refloor kept idle _
    · cases stepped
  · split at stepped
    · rename_i idle
      cases stepped
      exact kept_refloor kept idle _
    · cases stepped
  · split at stepped
    · cases stepped
      exact kept_blind kept rfl rfl (.inr rfl) rfl
    · cases stepped
  · split at stepped
    · cases stepped
      exact kept_blind kept rfl rfl (.inr rfl) rfl
    · cases stepped
  · split at stepped
    · cases stepped
      exact kept_lock kept _
    · cases stepped
  · split at stepped
    · rename_i goal t todo tails reading
      cases stepped
      exact kept_readTail kept reading rfl
    · cases stepped
  · split at stepped
    · rename_i goal tails reading
      cases stepped
      exact kept_unlock kept reading
    · cases stepped
  · rename_i ok
    split at stepped
    · cases stepped
      refine kept_blind (r := r) kept rfl rfl (.inl rfl) ?_
      cases ok
      · rfl
      · exact nextChunk_scan _
    · cases stepped
  · rename_i ok
    split at stepped
    · cases stepped
      refine kept_blind (r := r) kept rfl rfl (.inl rfl) ?_
      cases ok <;> rfl
    · cases stepped
  · split at stepped
    · cases stepped
      exact kept_publish kept _
    · cases stepped
  · cases stepped

theorem kept_absorbStep (kept : Kept tidOf r) (stepped : r.absorbStep tidOf = some r') :
    Kept tidOf r' := by
  unfold Recorder.absorbStep at stepped
  split at stepped
  · rename_i phase
    obtain ⟨_,_,_,shape⟩ := absorb_some stepped
    exact kept_absorb kept stepped (fun _ => by rw [phase]) (by rw [shape]; rfl)
  · rename_i goal phase
    obtain ⟨_,_,_,shape⟩ := absorb_some stepped
    refine kept_absorb kept stepped (fun n => ?_) ?_
    · rw [phase]
      split <;> rfl
    · rw [shape]
      unfold Recorder.locks
      dsimp only
      split
      · rename_i reading
        split at reading <;> cases reading
      · rfl
  · rename_i goal tails phase
    obtain ⟨_,_,_,shape⟩ := absorb_some stepped
    refine kept_absorb kept stepped (fun n => ?_) ?_
    · rw [phase]
      split <;> rfl
    · rw [shape]
      unfold Recorder.locks
      dsimp only
      split
      · rename_i reading
        split at reading <;> cases reading
      · rfl
  · rename_i rest phase
    obtain ⟨_,_,_,shape⟩ := absorb_some stepped
    refine kept_absorb kept stepped (fun n => ?_) ?_
    · rw [phase]
      exact nextChunk_scan rest
    · rw [shape]
      unfold Recorder.locks nextChunk
      dsimp only
      split
      · rename_i reading
        split at reading <;> cases reading
      · rfl
  · cases stepped

theorem recorder_cases {act : RecorderAct T} (stepped : r.step tidOf act = some r') :
    (∃ a w', r.world.step tidOf a = some w' ∧ r' = r.withWorld w' ∧ (∀ t, a ≠ .flush t) ∧
      (∀ limit, a ≠ .drain limit) ∧ (r.locks = true → ∀ t, a ≠ .leave t) ∧
      (act = .record a ∨ ∃ t, act = .exit t ∧ exitAct t (r.world.stage t) = some a)) ∨
    (act = .absorb ∧ r.absorbStep tidOf = some r') ∨ r.jobStep act = some r' := by
  cases act with
  | record a =>
    obtain ⟨t,own,stepped⟩ := Option.bind_eq_some_iff.mp stepped
    split at stepped
    · cases stepped
    · obtain ⟨w,moved,same⟩ := Option.map_eq_some_iff.mp stepped
      obtain ⟨_,staying,unflushed,_,_,undrained,_⟩ := recordedBy_thread own
      exact .inl ⟨a,w,moved,same.symm,unflushed,undrained,fun _ => staying,.inl rfl⟩
  | exit t =>
    obtain ⟨a,next,stepped⟩ := Option.bind_eq_some_iff.mp stepped
    split at stepped
    · cases stepped
    · rename_i free
      obtain ⟨w,moved,same⟩ := Option.map_eq_some_iff.mp stepped
      obtain ⟨_,leaves,unflushed,_,_,undrained,_⟩ := exitAct_thread next
      exact .inl ⟨a,w,moved,same.symm,unflushed,undrained,fun locked u leave =>
        free ⟨locked,(leaves u leave).2⟩,.inr ⟨t,rfl,next⟩⟩
  | absorb => exact .inr (.inl ⟨rfl,stepped⟩)
  | open_ id start => exact .inr (.inr stepped)
  | cancel id => exact .inr (.inr stepped)
  | dump start end_ => exact .inr (.inr stepped)
  | floor now => exact .inr (.inr stepped)
  | lock => exact .inr (.inr stepped)
  | readTail => exact .inr (.inr stepped)
  | unlock => exact .inr (.inr stepped)
  | assemble ok => exact .inr (.inr stepped)
  | write ok => exact .inr (.inr stepped)
  | publish => exact .inr (.inr stepped)

theorem kept_step {act : RecorderAct T} (kept : Kept tidOf r) (stepped : r.step tidOf act = some r') :
    Kept tidOf r' := by
  rcases recorder_cases stepped with
    ⟨a,w',moved,rfl,recorded,undrained,staying,_⟩ | ⟨_,absorbed⟩ | bookkeeping
  · exact kept_world kept moved recorded undrained staying
  · exact kept_absorbStep kept absorbed
  · exact kept_jobStep act kept bookkeeping

theorem accepted_drained (sound : Sound tidOf w) (accepted : ∀ s ∈ w.ledger.shipped, s.2.1 = true)
    (empty : w.queue.held t = []) :
    (ownedBy t w.ledger.shipped).map (·.2) = ownedBy t w.ledger.drained := by
  have kept : acceptedOf (ownedBy t w.ledger.shipped) = ownedBy t w.ledger.drained ++ w.queue.held t :=
    (sound.threads t).kept
  rw [empty,List.append_nil] at kept
  rw [← kept,acceptedOf,List.filter_eq_self.mpr]
  intro s present
  exact accepted _ (mem_ownedBy.mp present)

omit [DecidableEq T] in
theorem handed_flat (shipped : List (Bool × EventBatch)) :
    handed shipped = (shipped.map (·.2)).flatMap (·.entries) := by
  rw [handed,List.flatMap_map]

omit [DecidableEq T] in
theorem moves_shipped {v v' : View T} (moves : Moves qid t tid a v v') : v.shipped <+: v'.shipped := by
  cases moves with
  | ship idle miss seated open_ brk blank room => exact List.prefix_append _ _
  | handOver stage room => exact List.prefix_append _ _
  | _ => exact List.prefix_rfl

theorem step_accepted (sound : Sound tidOf w) (stepped : w.step tidOf a = some w')
    (accepted : ∀ s ∈ w'.ledger.shipped, s.2.1 = true) : ∀ s ∈ w.ledger.shipped, s.2.1 = true := by
  rintro ⟨t,s⟩ present
  have later : s ∈ ownedBy t w'.ledger.shipped :=
    (moves_shipped (step_moves sound stepped t)).subset (mem_ownedBy.mpr present)
  exact accepted _ (mem_ownedBy.mp later)

omit [DecidableEq T] in
theorem jobStep_world {act : RecorderAct T} (stepped : r.jobStep act = some r') :
    ∃ floor, r'.world = r.world.withQueue {r.world.queue with recycleFloor := floor} := by
  unfold Recorder.jobStep at stepped
  split at stepped
  case h_11 => cases stepped
  all_goals
    split at stepped
    · cases stepped
      exact ⟨_,rfl⟩
    · cases stepped

theorem jobStep_view {act : RecorderAct T} (stepped : r.jobStep act = some r') (t : T) :
    r'.world.view t = r.world.view t := by
  obtain ⟨floor,same⟩ := jobStep_world stepped
  rw [same]
  rfl

theorem absorbStep_some (stepped : r.absorbStep tidOf = some r') :
    ∃ limit, r.world.step tidOf (.drain limit) = some r'.world := by
  unfold Recorder.absorbStep at stepped
  split at stepped
  case h_5 => cases stepped
  all_goals exact ⟨_,(absorb_some stepped).1⟩

theorem recorder_moves {act : RecorderAct T} (sound : Sound tidOf r.world)
    (stepped : r.step tidOf act = some r') (t : T) :
    r'.world.view t = r.world.view t ∨
      ∃ a, Moves r.world.queue.id t (tidOf t) a (r.world.view t) (r'.world.view t) ∧
        (∀ u, a ≠ .flush u) ∧ (∀ u run ticks codeId kind, a = .push u run ticks codeId kind → act = .record a) ∧
        ∀ u, a = .leave u → ∃ u, act = .exit u := by
  rcases recorder_cases stepped with
    ⟨a,w',moved,rfl,recorded,_,_,origin⟩ | ⟨_,absorbed⟩ | bookkeeping
  · refine .inr ⟨a,step_moves sound moved t,recorded,?_⟩
    rcases origin with rfl | ⟨v,rfl,next⟩
    · obtain ⟨_,own,_⟩ := Option.bind_eq_some_iff.mp stepped
      refine ⟨fun _ _ _ _ _ _ => rfl,?_⟩
      intro u leave
      exact absurd leave ((recordedBy_thread own).2.1 u)
    · refine ⟨?_,fun _ _ => ⟨v,rfl⟩⟩
      intro u run ticks codeId kind push
      rw [push] at next
      unfold exitAct at next
      split at next <;> cases next
  · obtain ⟨limit,moved⟩ := absorbStep_some absorbed
    exact .inr ⟨_,step_moves sound moved t,by simp,by simp,by simp⟩
  · exact .inl (jobStep_view bookkeeping t)

theorem stays_step {act : RecorderAct T} (sound : Sound tidOf r.world) (stepped : r.step tidOf act = some r')
    (staying : ∀ t, (r.world.stage t).gone = false) (unexited : ∀ t, act ≠ .exit t) (t : T) :
    (r'.world.stage t).gone = false := by
  rcases recorder_moves sound stepped t with same | ⟨a,moved,_,_,leaves⟩
  · have stage := congrArg View.stage same
    exact (congrArg Stage.gone stage).trans (staying t)
  · apply moved.here ?_ (staying t)
    intro leave
    obtain ⟨u,exit⟩ := leaves t leave
    exact unexited u exit

theorem own_quiet {act : RecorderAct T} (stepped : r.step tidOf act = some r')
    (unrecorded : ∀ a, act ≠ .record a) (unexited : ∀ t, act ≠ .exit t) :
    r'.world.stage = r.world.stage ∧ r'.world.ledger.pushed = r.world.ledger.pushed := by
  rcases recorder_cases stepped with ⟨a,w',_,_,_,_,_,record | ⟨t,exit,_⟩⟩ | ⟨_,absorbed⟩ | bookkeeping
  · exact absurd record (unrecorded a)
  · exact absurd exit (unexited t)
  · obtain ⟨limit,moved⟩ := absorbStep_some absorbed
    generalize r'.world = w' at moved
    cases moved
    exact ⟨rfl,rfl⟩
  · obtain ⟨floor,same⟩ := jobStep_world bookkeeping
    rw [same]
    exact ⟨rfl,rfl⟩

omit [DecidableEq T] in
theorem nextChunk_blank (events : List Event) :
    (nextChunk events : Phase T).unwritten = events ∧ (nextChunk events : Phase T).goal = none := by
  unfold nextChunk
  split
  · rename_i none
    subst none
    exact ⟨rfl,rfl⟩
  · exact ⟨List.take_append_drop _ _,rfl⟩

omit [DecidableEq T] in
theorem nextChunk_collected (events : List Event) {goal : Goal} {tails : List (T × EventBatch)} :
    nextChunk events ≠ Phase.collected goal tails := by
  unfold nextChunk
  split <;> simp

omit [DecidableEq T] in
theorem jobStep_collected {act : RecorderAct T} {goal : Goal} {tails : List (T × EventBatch)}
    (stepped : r.jobStep act = some r') : r'.phase ≠ .collected goal tails := by
  unfold Recorder.jobStep at stepped
  split at stepped
  case h_8 ok =>
    split at stepped
    · cases stepped
      cases ok
      · simp
      · exact nextChunk_collected _
    · cases stepped
  case h_9 ok =>
    split at stepped
    · cases stepped
      cases ok <;> simp
    · cases stepped
  case h_11 => cases stepped
  all_goals
    split at stepped
    · rename_i phase
      cases stepped
      simp [Recorder.refloor,Recorder.begin_,phase]
    · cases stepped

theorem reaches_collected {act : RecorderAct T} {goal : Goal} {tails : List (T × EventBatch)}
    (stepped : r.step tidOf act = some r') (collected : r'.phase = .collected goal tails) :
    (r.phase = .collected goal tails ∧ ∃ a w', r.world.step tidOf a = some w' ∧ r' = r.withWorld w' ∧
      (∀ t, a ≠ .flush t) ∧ (∀ limit, a ≠ .drain limit) ∧
      (act = .record a ∨ ∃ t, act = .exit t ∧ exitAct t (r.world.stage t) = some a)) ∨
    (act = .absorb ∧ r.phase = .settling goal tails ∧
      (r.world.queue.drainBatches usizeMax).1 = [] ∧
      r.world.step tidOf (.drain usizeMax) = some r'.world ∧
      r'.world.ledger.drained = r.world.ledger.drained ∧
      r' = {r with world := r'.world,phase := .collected goal tails}) := by
  rcases recorder_cases stepped with
    ⟨a,w',moved,rfl,recorded,undrained,_,origin⟩ | ⟨rfl,absorbed⟩ | bookkeeping
  · exact .inl ⟨collected,a,w',moved,rfl,recorded,undrained,origin⟩
  · refine .inr ⟨rfl,?_⟩
    unfold Recorder.absorbStep at absorbed
    split at absorbed
    · obtain ⟨_,_,_,shape⟩ := absorb_some absorbed
      rw [shape] at collected
      cases collected
    · obtain ⟨_,_,_,shape⟩ := absorb_some absorbed
      rw [shape] at collected
      dsimp only at collected
      split at collected <;> cases collected
    · rename_i phase
      obtain ⟨moved,drained,_,shape⟩ := absorb_some absorbed
      rw [shape] at collected
      dsimp only at collected
      split at collected
      · rename_i none
        cases collected
        have nothing := List.eq_nil_of_length_eq_zero none
        rw [nothing,List.append_nil] at drained
        refine ⟨phase,nothing,moved,drained,?_⟩
        rw [nothing] at shape
        simpa using shape
      · cases collected
    · obtain ⟨_,_,_,shape⟩ := absorb_some absorbed
      rw [shape] at collected
      exact absurd collected (nextChunk_collected _)
    · cases absorbed
  · exact absurd collected (jobStep_collected bookkeeping)

theorem initial_kept (id : Nat) (clock : Clock) (capacityBytes : Nat) :
    Kept tidOf (Recorder.initial (T := T) id clock capacityBytes) :=
  ⟨initial_sound id clock,initial_registered id clock,fun _ => trivial,fun _ => .inl rfl,⟨[],rfl⟩,
    fun _ => List.prefix_rfl,by simp [Recorder.initial,Phase.scan]⟩

end Trace0
