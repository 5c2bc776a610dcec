import Trace0.StreamOrder

namespace Trace0

variable {T : Type}

def placed (start : Nat) : List (Bool × EventBatch) → List (Bool × EventBatch × Nat)
  | [] => []
  | (accepted,b) :: rest => (accepted,b,start) :: placed (start + b.events.length) rest

def acceptedAt (shipped : List (Bool × EventBatch)) : List (EventBatch × Nat) :=
  ((placed 0 shipped).filter (·.1)).map (·.2)

-- The first event a reader of the thread's tail can see, now or later.
def View.readable (v : View T) : Nat := v.pushed.length - v.l.window.length

theorem prefix_at {α : Type} {left right : List α} (part : left <+: right) {i : Nat} {a : α}
    (here : left[i]? = some a) : right[i]? = some a := by
  obtain ⟨more,rfl⟩ := part
  rw [List.getElem?_append_left (List.getElem?_eq_some_iff.mp here).1]
  exact here

theorem placed_append (start : Nat) (left right : List (Bool × EventBatch)) :
    placed start (left ++ right) = placed start left ++ placed (start + (handed left).length) right := by
  induction left generalizing start with
  | nil => simp [placed,handed]
  | cons s rest ih =>
    obtain ⟨accepted,b⟩ := s
    have length : (handed ((accepted,b) :: rest)).length = b.events.length + (handed rest).length := by
      simp [handed]
    rw [List.cons_append,placed,placed,ih,length,Nat.add_assoc,List.cons_append]

theorem acceptedAt_append (shipped : List (Bool × EventBatch)) (accepted : Bool) (b : EventBatch) :
    acceptedAt (shipped ++ [(accepted,b)]) =
      acceptedAt shipped ++ if accepted then [(b,(handed shipped).length)] else [] := by
  rw [acceptedAt,placed_append,List.filter_append,List.map_append,Nat.zero_add]
  cases accepted <;> rfl

theorem acceptedAt_batches (shipped : List (Bool × EventBatch)) :
    (acceptedAt shipped).map (·.1) = acceptedOf shipped := by
  induction shipped using List.reverseRecOn with
  | nil => rfl
  | append_singleton shipped s ih =>
    obtain ⟨accepted,b⟩ := s
    rw [acceptedAt_append,accepted_append,List.map_append,ih]
    cases accepted <;> rfl

theorem acceptedAt_entries {shipped : List (Bool × EventBatch)} {b : EventBatch} {start : Nat}
    (present : (b,start) ∈ acceptedAt shipped) {i : Nat} {e : UInt64 × UInt32} (here : b.entries[i]? = some e) :
    (handed shipped)[start+i]? = some e := by
  induction shipped using List.reverseRecOn with
  | nil => cases present
  | append_singleton shipped s ih =>
    obtain ⟨accepted,c⟩ := s
    rw [acceptedAt_append] at present
    rw [handed_append]
    rcases List.mem_append.mp present with early | last
    · have there := ih early
      rw [List.getElem?_append_left (List.getElem?_eq_some_iff.mp there).1]
      exact there
    · cases accepted with
      | false => cases last
      | true =>
        cases List.mem_singleton.mp last
        rw [List.getElem?_append_right (Nat.le_add_right _ _),Nat.add_sub_cancel_left,handed_single]
        exact here

-- What a step does to these places, as long as the thread only pushes.
structure Advances (v v' : View T) : Prop where
  readable : v.readable ≤ v'.readable
  accepted : acceptedAt v'.shipped = acceptedAt v.shipped ∨
    ∃ b, acceptedAt v'.shipped = acceptedAt v.shipped ++ [(b,v.readable)]

variable {qid : Nat} {t : T} {tid : UInt32} {v v' : View T} {a : Act T}

theorem idle_readable (sound : ThreadSound qid t tid v) (idle : v.stage = .idle) :
    v.readable = (handed v.shipped).length := by
  have told := congrArg List.length sound.told
  simp only [View.inHand,idle,List.length_append,Local.written,List.length_map] at told
  unfold View.readable
  omega

theorem wrote_length {l l' : Local T} {start : Nat} {event : PackedEvent} (points : Points l start)
    (room : l.hot.cursor < start + batchN) (wrote : EventQueue.writeSlot l event = some l') :
    l'.window.length = l.window.length + 1 := by
  obtain ⟨_,window⟩ := writeSlot_points points room wrote
  rw [window,List.length_append,List.length_singleton]

theorem moves_advance (sound : ThreadSound qid t tid v) (moves : Moves qid t tid a v v')
    (recording : v.stage.recording = true) (recording' : v'.stage.recording = true) : Advances v v' := by
  have standing := sound.standing
  cases moves with
  | still => exact ⟨Nat.le_refl _,.inl rfl⟩
  | drained splits => exact ⟨Nat.le_refl _,.inl rfl⟩
  | fast idle hit wrote =>
    obtain ⟨o,armed,_,room⟩ := fast_armed sound idle hit
    have longer := wrote_length armed.toPoints room wrote
    refine ⟨?_,.inl rfl⟩
    simp only [View.readable,longer,List.length_append,List.length_singleton]
    omega
  | seat idle miss first direct => exact ⟨Nat.le_refl _,.inl rfl⟩
  | ship idle miss producer open_ brk blank room =>
    refine ⟨Nat.le_refl _,?_⟩
    rw [idle_readable sound idle]
    simp only [acceptedAt_append]
    split
    · exact .inr ⟨_,rfl⟩
    · exact .inl (List.append_nil _)
  | armNew stage =>
    simp only [Standing,stage] at standing
    obtain ⟨o,held,blank⟩ := standing
    obtain ⟨_,cleared,_⟩ := arm_blank held blank
    refine ⟨?_,.inl rfl⟩
    simp only [View.readable,cleared]
    exact Nat.sub_le _ _
  | write stage wrote =>
    simp only [Standing,stage] at standing
    obtain ⟨o,armed,_,_,empty⟩ := standing
    have longer := wrote_length armed.toPoints (window_room armed.toPoints empty) wrote
    refine ⟨?_,.inl rfl⟩
    simp only [View.readable,longer,List.length_append,List.length_singleton]
    omega
  | leave idle => cases recording'
  | commit enter committed => cases recording'
  | armRestored stage => simp [stage,Stage.recording] at recording
  | armTaken stage => simp [stage,Stage.recording] at recording
  | takeNone stage => simp [stage,Stage.recording] at recording
  | takeBack stage => simp [stage,Stage.recording] at recording
  | takeFull stage => simp [stage,Stage.recording] at recording
  | handOver stage => simp [stage,Stage.recording] at recording

variable [DecidableEq T]

def Recorder.evicted (r : Recorder T) : Nat := r.world.ledger.drained.length - r.ring.batches.length

def Recorder.visible (r : Recorder T) (t : T) : List (EventBatch × Nat) :=
  (acceptedAt (ownedBy t r.world.ledger.shipped)).drop
    (ownedBy t (r.world.ledger.drained.take r.evicted)).length

def Recorder.places (r : Recorder T) : List (T × EventBatch × Nat) :=
  (Keyed.deal (fun t => (acceptedAt (ownedBy t r.world.ledger.shipped)).map (·.2))
    r.world.ledger.drained).drop r.evicted

-- What a step of the recorder's world, or of the recorder, does to what can still be seen.
structure Shifts (r r' : Recorder T) : Prop where
  pushed : ∀ t, ownedBy t r.world.ledger.pushed <+: ownedBy t r'.world.ledger.pushed
  readable : ∀ t, (r.world.view t).readable ≤ (r'.world.view t).readable
  visible : ∀ t, ∀ x ∈ r'.visible t, x ∈ r.visible t ∨ x.2 = (r.world.view t).readable

variable {tidOf : T → UInt32} {r r' : Recorder T}

theorem absorb_evicted {next : Nat → Phase T} (absorbed : r.absorb tidOf limit next = some r') :
    r.world.ledger.drained <+: r'.world.ledger.drained ∧ r.evicted ≤ r'.evicted := by
  obtain ⟨_,drained,_,shape⟩ := absorb_some absorbed
  obtain ⟨lost,split⟩ := ring_pushes ((r.world.queue.drainBatches limit).1.map (·.2)) r.ring
  have ring : r'.ring = ((r.world.queue.drainBatches limit).1.map (·.2)).foldl Ring.push r.ring := by rw [shape]
  have length := congrArg List.length split
  rw [← ring] at length
  simp only [List.length_append,List.length_map] at length
  refine ⟨drained ▸ List.prefix_append _ _,?_⟩
  rw [Recorder.evicted,Recorder.evicted,drained,List.length_append]
  omega

omit [DecidableEq T] in
theorem jobStep_ring {act : RecorderAct T} (stepped : r.jobStep act = some r') :
    r'.world.ledger = r.world.ledger ∧ ∃ lost, r.ring.batches = lost ++ r'.ring.batches := by
  have refloored (windows : List (Nat × UInt64)) :
      ∃ lost, r.ring.batches = lost ++ ({r with windows := windows} : Recorder T).refloor.ring.batches := by
    obtain ⟨lost,evicts⟩ := r.ring.setFloor_evicts (windows.map (·.2)).min?
    exact ⟨lost,evicts.splits⟩
  unfold Recorder.jobStep at stepped
  split at stepped
  case h_1 =>
    split at stepped
    · cases stepped
      exact ⟨rfl,refloored _⟩
    · cases stepped
  case h_2 =>
    split at stepped
    · cases stepped
      exact ⟨rfl,refloored _⟩
    · cases stepped
  case h_11 => cases stepped
  all_goals
    split at stepped
    · cases stepped
      exact ⟨rfl,[],rfl⟩
    · cases stepped

theorem recorder_evicted {act : RecorderAct T} (sound : Sound tidOf r.world)
    (stepped : r.step tidOf act = some r') :
    r.world.ledger.drained <+: r'.world.ledger.drained ∧ r.evicted ≤ r'.evicted := by
  rcases recorder_cases stepped with ⟨a,w',moved,rfl,_,undrained,_⟩ | ⟨_,absorbed⟩ | bookkeeping
  · have same := (step_rest sound moved).drained undrained
    simp only [Recorder.withWorld,Recorder.evicted,same]
    exact ⟨List.prefix_rfl,Nat.le_refl _⟩
  · unfold Recorder.absorbStep at absorbed
    split at absorbed
    case h_5 => cases absorbed
    all_goals exact absorb_evicted absorbed
  · obtain ⟨ledger,lost,split⟩ := jobStep_ring bookkeeping
    have length := congrArg List.length split
    rw [List.length_append] at length
    rw [Recorder.evicted,Recorder.evicted,ledger]
    exact ⟨List.prefix_rfl,by omega⟩

theorem recorder_shifts {act : RecorderAct T} (kept : Kept tidOf r) (stepped : r.step tidOf act = some r')
    (staying : ∀ t, (r.world.stage t).gone = false) (staying' : ∀ t, (r'.world.stage t).gone = false) :
    Shifts r r' := by
  have kept' := kept_step kept stepped
  have advances (t : T) : Advances (r.world.view t) (r'.world.view t) ∧
      (r.world.view t).pushed <+: (r'.world.view t).pushed := by
    rcases recorder_moves kept.sound stepped t with same | ⟨a,moved,_⟩
    · rw [same]
      exact ⟨⟨Nat.le_refl _,.inl rfl⟩,List.prefix_rfl⟩
    · refine ⟨moves_advance (kept.sound.threads t) moved ?_ ?_,moves_pushed moved⟩
      · exact (kept.unflushed t).resolve_right (by simp [staying t])
      · exact (kept'.unflushed t).resolve_right (by simp [staying' t])
  obtain ⟨drained,evicted⟩ := recorder_evicted kept.sound stepped
  refine ⟨fun t => (advances t).2,fun t => (advances t).1.readable,?_⟩
  intro t x present
  have fewer : (ownedBy t (r.world.ledger.drained.take r.evicted)).length ≤
      (ownedBy t (r'.world.ledger.drained.take r'.evicted)).length := by
    obtain ⟨more,split⟩ := drained
    have inside : r.evicted ≤ r.world.ledger.drained.length := Nat.sub_le _ _
    have part : r.world.ledger.drained.take r.evicted <+: r'.world.ledger.drained.take r'.evicted := by
      have longer : (r.world.ledger.drained ++ more).take r.evicted = r.world.ledger.drained.take r.evicted :=
        List.take_append_of_le_length inside
      rw [← split,← longer]
      exact List.take_prefix_take_left evicted
    exact (ownedBy_sublist part.sublist t).length_le
  have later : x ∈ (acceptedAt (ownedBy t r'.world.ledger.shipped)).drop
      (ownedBy t (r.world.ledger.drained.take r.evicted)).length :=
    (List.drop_sublist_drop_left _ fewer).subset present
  have shipped : (r'.world.view t).shipped = ownedBy t r'.world.ledger.shipped := rfl
  rcases (advances t).1.accepted with same | ⟨b,more⟩
  · rw [← shipped,same] at later
    exact .inl later
  · rw [← shipped,more,List.drop_append] at later
    rcases List.mem_append.mp later with before | now
    · exact .inl before
    · have last := List.mem_singleton.mp (List.mem_of_mem_drop now)
      exact .inr (by rw [last])

section Located

theorem accepted_kept {w : World T} (sound : Sound tidOf w) (t : T) :
    (acceptedAt (ownedBy t w.ledger.shipped)).map (·.1) = ownedBy t w.ledger.drained ++ w.queue.held t := by
  rw [acceptedAt_batches]
  exact (sound.threads t).kept

theorem accepted_enough {w : World T} (sound : Sound tidOf w) (t : T) : (ownedBy t w.ledger.drained).length ≤
    ((acceptedAt (ownedBy t w.ledger.shipped)).map (·.2)).length := by
  have length := congrArg List.length (accepted_kept sound t)
  rw [List.length_map,List.length_append] at length
  rw [List.length_map]
  omega

theorem evicted_history (kept : Kept tidOf r) : ∃ lost, r.world.ledger.drained.map (·.2) = lost ++ r.ring.batches ∧
    lost.length = r.evicted := by
  obtain ⟨lost,split⟩ := kept.history
  have length := congrArg List.length split
  rw [List.length_map,List.length_append] at length
  refine ⟨lost,split,?_⟩
  rw [Recorder.evicted]
  omega

theorem places_batches (kept : Kept tidOf r) : r.places.map (·.2.1) = r.ring.batches := by
  obtain ⟨lost,split,count⟩ := evicted_history kept
  have full := Keyed.deal_full (accepted_enough kept.sound)
  have batches := congrArg (List.map (·.2)) full
  rw [List.map_map] at batches
  have same : ((fun x => x.2) ∘ fun x : T × EventBatch × Nat => (x.1,x.2.1)) = fun x => x.2.1 := rfl
  rw [same,split] at batches
  rw [Recorder.places,List.map_drop,batches,← count,List.drop_left]

theorem deal_take (sound : Sound tidOf r.world) (k : Nat) :
    (Keyed.deal (fun t => (acceptedAt (ownedBy t r.world.ledger.shipped)).map (·.2))
      (r.world.ledger.drained.take k)).length = (r.world.ledger.drained.take k).length := by
  have fewer (t : T) : (ownedBy t (r.world.ledger.drained.take k)).length ≤
      ((acceptedAt (ownedBy t r.world.ledger.shipped)).map (·.2)).length :=
    (ownedBy_sublist (List.take_sublist k _) t).length_le.trans (accepted_enough sound t)
  have full := congrArg List.length (Keyed.deal_full fewer)
  rwa [List.length_map] at full

theorem places_visible (sound : Sound tidOf r.world) {x : T × EventBatch × Nat} (present : x ∈ r.places) :
    x.2 ∈ r.visible x.1 := by
  obtain ⟨t,b,n⟩ := x
  have inside : r.evicted ≤ r.world.ledger.drained.length := Nat.sub_le _ _
  have front := deal_take sound r.evicted
  rw [List.length_take_of_le inside] at front
  have splits := Keyed.deal_append (fun t => (acceptedAt (ownedBy t r.world.ledger.shipped)).map (·.2))
    (r.world.ledger.drained.take r.evicted) (r.world.ledger.drained.drop r.evicted)
  rw [List.take_append_drop] at splits
  rw [Recorder.places,splits,List.drop_left' front] at present
  have zipped := mem_ownedBy.mpr present
  rw [Keyed.deal_owned] at zipped
  obtain ⟨i,there⟩ := List.mem_iff_getElem?.mp zipped
  obtain ⟨batch,start⟩ := List.getElem?_zip_eq_some.mp there
  have rest : ownedBy t (r.world.ledger.drained.drop r.evicted) <+:
      ((acceptedAt (ownedBy t r.world.ledger.shipped)).drop
        (ownedBy t (r.world.ledger.drained.take r.evicted)).length).map (·.1) := by
    have whole := accepted_kept sound t
    have halves : ownedBy t r.world.ledger.drained = ownedBy t (r.world.ledger.drained.take r.evicted) ++
        ownedBy t (r.world.ledger.drained.drop r.evicted) := by
      rw [← ownedBy_append,List.take_append_drop]
    rw [List.map_drop,whole,halves,List.append_assoc,List.drop_left]
    exact List.prefix_append _ _
  have same := prefix_at rest batch
  rw [← List.map_drop] at start
  rw [List.getElem?_map,Option.map_eq_some_iff] at same start
  obtain ⟨p,here,first⟩ := same
  obtain ⟨q,again,second⟩ := start
  rw [here,Option.some.injEq] at again
  subst again
  have pair : p = (b,n) := Prod.ext first second
  exact pair ▸ List.mem_of_getElem? here

theorem visible_entries (sound : Sound tidOf r.world) {p : EventBatch × Nat} (present : p ∈ r.visible t)
    {i : Nat} {e : UInt64 × UInt32} (here : p.1.entries[i]? = some e) :
    (ownedBy t r.world.ledger.pushed)[p.2+i]? = some e := by
  have told : handed (ownedBy t r.world.ledger.shipped) <+: ownedBy t r.world.ledger.pushed :=
    ⟨_,(sound.threads t).told⟩
  exact prefix_at told (acceptedAt_entries (List.mem_of_mem_drop present) here)

theorem visible_batch {p : EventBatch × Nat} (present : p ∈ r.visible t) :
    p.1 ∈ (r.world.view t).batches := by
  have accepted : p.1 ∈ acceptedOf (ownedBy t r.world.ledger.shipped) := by
    rw [← acceptedAt_batches]
    exact List.mem_map_of_mem (List.mem_of_mem_drop present)
  obtain ⟨s,shipped,same⟩ := List.mem_map.mp accepted
  rw [← same]
  exact List.mem_append_left _ (List.mem_map_of_mem (List.mem_filter.mp shipped).1)

theorem visible_ring (kept : Kept tidOf r) (empty : r.world.queue.held t = []) {p : EventBatch × Nat}
    (present : p ∈ r.visible t) : p.1 ∈ r.ring.batches := by
  have whole := accepted_kept kept.sound t
  rw [empty,List.append_nil] at whole
  have halves : ownedBy t r.world.ledger.drained = ownedBy t (r.world.ledger.drained.take r.evicted) ++
      ownedBy t (r.world.ledger.drained.drop r.evicted) := by
    rw [← ownedBy_append,List.take_append_drop]
  have inside := List.mem_map_of_mem (f := (·.1)) present
  rw [Recorder.visible,List.map_drop,whole,halves,List.drop_left] at inside
  obtain ⟨lost,split,count⟩ := evicted_history kept
  have held := List.mem_map_of_mem (f := (·.2)) (mem_ownedBy.mp inside)
  rw [List.map_drop,split,← count,List.drop_left] at held
  exact held

end Located

end Trace0
