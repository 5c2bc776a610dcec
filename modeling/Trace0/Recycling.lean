import Trace0.Turns

namespace Trace0

variable {T : Type} [DecidableEq T]

-- Where the recorder can find a thread's events, counted as the thread pushed them: from its
-- first unshipped event on, in a batch, in a tail, or in the dump that is being written.
inductive Shows (s : Tracing T) (t : T) : Nat → Prop where
  | hand : Shows s t (s.recorder.world.view t).readable
  | batch (p : EventBatch × Nat) (visible : p ∈ s.recorder.visible t) : Shows s t p.2
  | tail (todo : List T) (tails : List (T × EventBatch)) (x : EventBatch)
      (scan : s.recorder.phase.scan = some (todo,tails)) (read : (t,x) ∈ tails) : Shows s t (s.starts t)
  | dumped (d : Event × T × Nat) (waits : d ∈ s.dumped) (own : d.2.1 = t) : Shows s t d.2.2

def Within (s : Tracing T) (t : T) (n : Nat) : Prop := ∃ m, m ≤ n ∧ Shows s t m

-- No id of these events was freed before the floor, so `insert` gives none of them away.
structure Guards (s : Tracing T) (reach : T → Nat → Prop) (floor : UInt64) : Prop where
  past : floor ≤ s.clock
  clear : ∀ t n e freedAt, reach t n → (ownedBy t s.recorder.world.ledger.pushed)[n]? = some e →
    (codeIdOf e.2,freedAt) ∈ s.interner.free → floor ≤ freedAt

def Resolved (s : Tracing T) : Prop :=
  ∀ t n e info, Within s t n → (ownedBy t s.recorder.world.ledger.pushed)[n]? = some e →
    (ownedBy t s.origins)[n]? = some info → s.interner.code (codeIdOf e.2) = some info

structure Survey (s : Tracing T) (todo : List T) (tails : List (T × EventBatch)) : Prop where
  copied : ∀ x ∈ tails, x.2.entries <+: (ownedBy x.1 s.recorder.world.ledger.pushed).drop (s.starts x.1)
  begun : ∀ x ∈ tails, ∃ e rest, x.2.entries = e :: rest ∧ e.1 = x.2.baseTicks
  read : ∀ x ∈ tails, s.starts x.1 ≤ (s.recorder.world.view x.1).readable
  bare : ∀ t, t ∉ todo → t ∉ tails.map (·.1) →
    (ownedBy t s.recorder.began).length ≤ (s.recorder.world.view t).readable

structure Written (s : Tracing T) : Prop where
  events : s.dumped.map (·.1) = s.recorder.phase.unwritten
  stands : ∀ d ∈ s.dumped, ∃ e, (ownedBy d.2.1 s.recorder.world.ledger.pushed)[d.2.2]? = some e ∧
    d.1.codeId = codeIdOf e.2

-- The floors that are out: the published one, those that calls have read, and the one the
-- recorder is about to publish, which does not pass the time its job began.
structure Floors (s : Tracing T) : Prop where
  published : Guards s (Within s) s.recorder.world.queue.recycleFloor
  called : ∀ t key kind ticks floor, s.callbacks t = .floored key kind ticks floor →
    Guards s (Within s) floor
  since : ∀ now, s.recorder.phase.goal = some (.floor now) →
    Guards s (fun t n => (ownedBy t s.recorder.began).length ≤ n) now
  ahead : ∀ now tails, s.recorder.phase = .collected (.floor now) tails →
    Guards s (Within s) (recycleFloor now (tails.map (·.2)) s.recorder.ring.batches)

structure Recycles (tidOf : T → UInt32) (s : Tracing T) : Prop extends Traced tidOf s where
  resolved : Resolved s
  survey : ∀ todo tails, s.recorder.phase.scan = some (todo,tails) → Survey s todo tails
  written : Written s
  floors : Floors s

variable {tidOf : T → UInt32} {s s' : Tracing T} {t : T} {r r' : Recorder T}

section Floor

theorem foldl_min (items : List UInt64) (start : UInt64) :
    items.foldl min start ≤ start ∧ ∀ x ∈ items, items.foldl min start ≤ x := by
  induction items generalizing start with
  | nil => exact ⟨UInt64.le_refl _,by simp⟩
  | cons x rest ih =>
    obtain ⟨first,others⟩ := ih (min start x)
    refine ⟨UInt64.le_trans first (Std.min_le_left),?_⟩
    intro y present
    rcases List.mem_cons.mp present with rfl | later
    · exact UInt64.le_trans first (Std.min_le_right)
    · exact others y later

theorem recycleFloor_le (now : UInt64) (tails history : List EventBatch) :
    recycleFloor now tails history ≤ now ∧ (∀ b ∈ tails, recycleFloor now tails history ≤ b.baseTicks) ∧
      ∀ b ∈ history, recycleFloor now tails history ≤ b.baseTicks := by
  obtain ⟨first,others⟩ := foldl_min ((tails ++ history).map (·.baseTicks)) now
  refine ⟨first,?_,?_⟩
  · intro b present
    exact others _ (List.mem_map_of_mem (List.mem_append_left _ present))
  · intro b present
    exact others _ (List.mem_map_of_mem (List.mem_append_right _ present))

end Floor

section Readable

variable {qid : Nat} {tid : UInt32} {v : View T}

omit [DecidableEq T] in
theorem tail_stands {x : EventBatch} (sound : ThreadSound qid t tid v) (shown : Shown v)
    (read : v.l.readTail queueId = some x) : v.pushed.drop v.readable = x.entries := by
  obtain ⟨front,b,split,continues,events⟩ := tail_last sound shown read
  obtain ⟨shape,_⟩ := readTail_some read
  have same : b.entries = x.entries := by rw [entries_eq,entries_eq,continues.base,events]
  have pushed := batches_pushed sound
  rw [split,List.flatMap_append,List.flatMap_singleton,same] at pushed
  have length : v.l.window.length = x.entries.length := by
    rw [shape]
    simp [entries_eq]
  rw [View.readable,length,← pushed,List.length_append,Nat.add_sub_cancel]
  exact List.drop_left

omit [DecidableEq T] in
theorem tail_none_window (sound : ThreadSound qid t tid v) (shown : Shown v)
    (recording : v.stage.recording = true) (read : v.l.readTail qid = none) : v.l.window = [] := by
  have standing := sound.standing
  have pointed {start : Nat} (points : Points v.l start) : v.l.window = [] := by
    rcases sound.seat with ⟨_,none⟩ | ⟨_,_,seat⟩
    · exact none.window
    · have reads := readTail_points points sound.even
      rw [seat,read] at reads
      by_contra some_
      rw [if_neg some_] at reads
      cases reads
  cases stage : v.stage with
  | idle =>
    by_cases none : Unseated v.l
    · exact none.window
    · obtain ⟨o,armed,_⟩ := sound.standing.armed (.inl stage) none
      exact pointed armed.toPoints
  | renewed ticks codeKind =>
    simp only [Shown,stage] at shown
    rcases shown with null | ⟨start,s,points,_⟩
    · simp [Local.window,null]
    · exact pointed points
  | armed ticks codeKind =>
    simp only [Standing,stage] at standing
    obtain ⟨o,_,_,_,empty⟩ := standing
    exact empty
  | _ =>
    rw [stage] at recording
    cases recording

omit [DecidableEq T] in
theorem readable_all (empty : v.l.window = []) : v.readable = v.pushed.length := by
  rw [View.readable,empty]
  exact Nat.sub_zero _

end Readable

section Phases

theorem scan_cases {act : RecorderAct T} {todo : List T} {tails : List (T × EventBatch)}
    (stepped : r.step tidOf act = some r') (scan : r'.phase.scan = some (todo,tails)) :
    r'.began = r.began ∧
      ((act ≠ .readTail ∧ r.phase.scan = some (todo,tails)) ∨
        (r'.world = r.world ∧ todo = r.world.recorders ∧ tails = []) ∨
        ∃ goal t before, act = .readTail ∧ r'.world = r.world ∧ r.phase = .reading goal (t :: todo) before ∧
          tails = before ++ (((r.world.threads t).readTail r.world.queue.id).map (t,·)).toList) := by
  rcases recorder_cases stepped with
    ⟨a,w',_,rfl,_,_,_,origin⟩ | ⟨rfl,absorbed⟩ | bookkeeping
  · refine ⟨rfl,.inl ⟨?_,scan⟩⟩
    rcases origin with rfl | ⟨_,rfl,_⟩ <;> simp
  · unfold Recorder.absorbStep at absorbed
    split at absorbed
    case h_5 => cases absorbed
    all_goals
      rename_i phase
      obtain ⟨_,_,_,shape⟩ := absorb_some absorbed
      rw [shape] at scan ⊢
      refine ⟨rfl,.inl ⟨by simp,?_⟩⟩
      dsimp only at scan
      rw [phase]
      try split at scan
    all_goals first
      | exact scan
      | cases scan
      | rw [nextChunk_scan] at scan; cases scan
  · unfold Recorder.jobStep at bookkeeping
    split at bookkeeping
    case h_5 =>
      split at bookkeeping
      · cases bookkeeping
        cases scan
        exact ⟨rfl,.inr (.inl ⟨rfl,rfl,rfl⟩)⟩
      · cases bookkeeping
    case h_6 =>
      split at bookkeeping
      · rename_i goal t todo before reading
        cases bookkeeping
        cases scan
        exact ⟨rfl,.inr (.inr ⟨goal,t,before,rfl,rfl,reading,rfl⟩)⟩
      · cases bookkeeping
    case h_7 =>
      split at bookkeeping
      · rename_i goal before reading
        cases bookkeeping
        cases scan
        exact ⟨rfl,.inl ⟨by simp,by rw [reading]; rfl⟩⟩
      · cases bookkeeping
    case h_8 ok =>
      split at bookkeeping
      · cases bookkeeping
        cases ok
        · cases scan
        · rw [if_pos rfl,nextChunk_scan] at scan
          cases scan
      · cases bookkeeping
    case h_9 ok =>
      split at bookkeeping
      · cases bookkeeping
        cases ok <;> cases scan
      · cases bookkeeping
    case h_11 => cases bookkeeping
    all_goals
      split at bookkeeping
      · rename_i idle
        cases bookkeeping
        simp [Recorder.refloor,Recorder.begin_,idle,Phase.scan] at scan
      · cases bookkeeping

theorem goal_cases {act : RecorderAct T} {now : UInt64} (stepped : r.step tidOf act = some r')
    (goal : r'.phase.goal = some (.floor now)) :
    (r.phase.goal = some (.floor now) ∧ r'.began = r.began) ∨
      act = .floor now ∧ r'.began = r.world.ledger.pushed := by
  rcases recorder_cases stepped with
    ⟨a,w',_,rfl,_,_,_,_⟩ | ⟨rfl,absorbed⟩ | bookkeeping
  · exact .inl ⟨goal,rfl⟩
  · unfold Recorder.absorbStep at absorbed
    split at absorbed
    case h_5 => cases absorbed
    all_goals
      rename_i phase
      obtain ⟨_,_,_,shape⟩ := absorb_some absorbed
      rw [shape] at goal ⊢
      refine .inl ⟨?_,rfl⟩
      dsimp only at goal
      rw [phase]
      try split at goal
    all_goals first
      | exact goal
      | rw [(nextChunk_blank _).2] at goal; cases goal
  · unfold Recorder.jobStep at bookkeeping
    split at bookkeeping
    case h_3 =>
      split at bookkeeping
      · cases bookkeeping
        cases goal
      · cases bookkeeping
    case h_4 =>
      split at bookkeeping
      · cases bookkeeping
        cases goal
        exact .inr ⟨rfl,rfl⟩
      · cases bookkeeping
    case h_8 ok =>
      split at bookkeeping
      · cases bookkeeping
        cases ok
        · cases goal
        · rw [if_pos rfl,(nextChunk_blank _).2] at goal
          cases goal
      · cases bookkeeping
    case h_9 ok =>
      split at bookkeeping
      · cases bookkeeping
        cases ok <;> cases goal
      · cases bookkeeping
    case h_11 => cases bookkeeping
    all_goals
      split at bookkeeping
      · rename_i phase
        cases bookkeeping
        refine .inl ⟨?_,rfl⟩
        first
          | exact goal
          | rw [phase]; exact goal
          | cases goal
      · cases bookkeeping

theorem unwritten_kept {act : RecorderAct T} (stepped : r.step tidOf act = some r')
    (unassembled : ∀ ok, act ≠ .assemble ok) (unwritten : ∀ ok, act ≠ .write ok) :
    r'.phase.unwritten = r.phase.unwritten := by
  rcases recorder_cases stepped with
    ⟨a,w',_,rfl,_,_,_,_⟩ | ⟨rfl,absorbed⟩ | bookkeeping
  · rfl
  · unfold Recorder.absorbStep at absorbed
    split at absorbed
    case h_5 => cases absorbed
    all_goals
      rename_i phase
      have before := (congrArg Phase.unwritten phase).symm
      obtain ⟨_,_,_,shape⟩ := absorb_some absorbed
      rw [shape]
      dsimp only
      try split
      all_goals first
        | exact before
        | exact (nextChunk_blank _).1.trans before
  · unfold Recorder.jobStep at bookkeeping
    split at bookkeeping
    case h_8 ok => exact absurd rfl (unassembled ok)
    case h_9 ok => exact absurd rfl (unwritten ok)
    case h_11 => cases bookkeeping
    all_goals
      split at bookkeeping
      · rename_i phase
        cases bookkeeping
        simp [Recorder.refloor,Recorder.begin_,phase,Phase.unwritten]
      · cases bookkeeping

theorem published_cases {act : RecorderAct T} (sound : Sound tidOf r.world) (stepped : r.step tidOf act = some r') :
    r'.world.queue.recycleFloor = r.world.queue.recycleFloor ∨
      ∃ now tails, r.phase = .collected (.floor now) tails ∧
        r'.world.queue.recycleFloor = recycleFloor now (tails.map (·.2)) r.ring.batches := by
  rcases recorder_cases stepped with
    ⟨a,w',moved,rfl,_⟩ | ⟨rfl,absorbed⟩ | bookkeeping
  · exact .inl (step_rest sound moved).floor
  · obtain ⟨limit,moved⟩ := absorbStep_some absorbed
    exact .inl (step_rest sound moved).floor
  · unfold Recorder.jobStep at bookkeeping
    split at bookkeeping
    case h_10 =>
      split at bookkeeping
      · rename_i now tails collected
        cases bookkeeping
        exact .inr ⟨now,tails,collected,rfl⟩
      · cases bookkeeping
    case h_11 => cases bookkeeping
    all_goals
      split at bookkeeping
      · cases bookkeeping
        exact .inl rfl
      · cases bookkeeping

end Phases

section Shown

theorem shifts_same (same : r' = r) : Shifts r r' := by
  rw [same]
  exact ⟨fun _ => List.prefix_rfl,fun _ => Nat.le_refl _,fun _ _ present => .inl present⟩

theorem turn_shifts (traced : Traced tidOf s) (turn : Turn tidOf s s') : Shifts s.recorder s'.recorder := by
  have staying := (turn_timed traced turn).2
  cases turn with
  | quiet recorder => exact shifts_same recorder
  | forgets key recorder => exact shifts_same recorder
  | inserts t key kind ticks floor info callback alive recorder => exact shifts_same recorder
  | records t a stepped => exact recorder_shifts traced.timed.kept stepped traced.staying staying
  | own act stepped => exact recorder_shifts traced.timed.kept stepped traced.staying staying

omit [DecidableEq T] in
theorem placedStream_map (tid : UInt32) (places : List (T × EventBatch × Nat)) :
    (placedStream tid places).map (·.1) = streamOf tid (places.map (·.2.1)) := by
  rw [placedStream,streamOf,List.map_flatMap,List.filter_map,List.flatMap_map]
  apply List.flatMap_congr
  intro x _
  rw [List.map_map]
  exact List.zipIdx_map_fst _ _

omit [DecidableEq T] in
theorem placedStream_mem {tid : UInt32} {places : List (T × EventBatch × Nat)} {item : Entry × T × Nat}
    (present : item ∈ placedStream tid places) : ∃ x ∈ places, x.1 = item.2.1 ∧
      ∃ i, x.2.1.entries[i]? = some item.1 ∧ item.2.2 = x.2.2 + i := by
  obtain ⟨x,inside,here⟩ := List.mem_flatMap.mp present
  obtain ⟨⟨e,n⟩,placed,rfl⟩ := List.mem_map.mp here
  refine ⟨x,(List.mem_filter.mp inside).1,rfl,n-x.2.2,?_⟩
  obtain ⟨low,there⟩ := List.mem_zipIdx_iff_le_and_getElem?_sub.mp placed
  exact ⟨there,(Nat.add_sub_cancel' low).symm⟩

theorem gathered_batches (traced : Traced tidOf s) (tails : List (T × EventBatch)) :
    (s.gathered tails).map (·.2.1) =
      s.recorder.ring.batches ++ freshTails s.recorder.ring.batches (tails.map (·.2)) := by
  rw [Tracing.gathered,List.map_append,places_batches traced.timed.kept,List.map_map,fresh_tails]
  rfl

theorem assembled_events (traced : Traced tidOf s) (tails : List (T × EventBatch)) (start end_ : UInt64) :
    (s.assembled tails start end_).map (·.1) =
      assemble s.recorder.ring.batches (tails.map (·.2)) s.recorder.world.queue.clock
        s.recorder.ring.horizonTicks start end_ := by
  have same : ∀ stream ∈ streams (s.recorder.ring.batches ++
      freshTails s.recorder.ring.batches (tails.map (·.2))),
      (placedStream stream.1 (s.gathered tails)).map Prod.fst = stream.2 := by
    rintro ⟨tid,stream⟩ present
    obtain ⟨_,rfl⟩ := streams_mem.mp present
    rw [← gathered_batches traced tails]
    exact placedStream_map tid _
  rw [assemble_labelled _ _ _ _ _ same,Tracing.assembled,List.map_map]
  rfl

theorem assembled_item {tails : List (T × EventBatch)} {start end_ : UInt64} {d : Event × T × Nat}
    (present : d ∈ s.assembled tails start end_) : ∃ x ∈ s.gathered tails, x.1 = d.2.1 ∧
      ∃ i e, x.2.1.entries[i]? = some e ∧ d.2.2 = x.2.2 + i ∧ d.1.codeId = codeIdOf e.2 := by
  obtain ⟨⟨tid,emit⟩,sorted,rfl⟩ := List.mem_map.mp present
  have labelled_ := (StableSort.mem_iff _ _ _).mp sorted
  obtain ⟨stream,_,inside⟩ := List.mem_flatMap.mp labelled_
  obtain ⟨emit',emitted,same⟩ := List.mem_map.mp inside
  cases same
  have item := (emits_item _ emitted).resolve_right (by simp)
  obtain ⟨x,gathered,own,i,here,place⟩ := placedStream_mem item
  exact ⟨x,gathered,own,i,emit.item.1,here,place,toEvent_codeId _ _ _ _ _⟩

theorem gathered_stands (traced : Traced tidOf s) {todo : List T} {tails : List (T × EventBatch)}
    (scan : s.recorder.phase.scan = some (todo,tails)) (survey : Survey s todo tails) {x : T × EventBatch × Nat}
    (present : x ∈ s.gathered tails) : Shows s x.1 x.2.2 ∧ ∀ i e, x.2.1.entries[i]? = some e →
      (ownedBy x.1 s.recorder.world.ledger.pushed)[x.2.2+i]? = some e := by
  rcases List.mem_append.mp present with batch | tail
  · have visible := places_visible traced.timed.kept.sound batch
    exact ⟨.batch x.2 visible,fun i e here => visible_entries traced.timed.kept.sound visible here⟩
  · obtain ⟨y,fresh,rfl⟩ := List.mem_map.mp tail
    have read := (fresh_mem.mp fresh).1
    refine ⟨.tail todo tails y.2 scan read,?_⟩
    intro i e here
    have there := prefix_at (survey.copied y read) here
    rwa [List.getElem?_drop] at there

theorem within_shows {n m : Nat} (shows_ : Shows s t m) (later : m ≤ n) : Within s t n := ⟨m,later,shows_⟩

theorem shows_own {act : RecorderAct T} (recycles : Recycles tidOf s)
    (stepped : s.recorder.step tidOf act = some s'.recorder) (shifts : Shifts s.recorder s'.recorder)
    (starts : s'.starts = s.startsAfter act) (dumped : s'.dumped = s.dumpedAfter act) {m : Nat}
    (shows_ : Shows s' t m) : Within s t m := by
  cases shows_ with
  | hand => exact within_shows .hand (shifts.readable t)
  | batch p visible =>
    rcases shifts.visible t p visible with before | now
    · exact within_shows (.batch p before) (Nat.le_refl _)
    · exact within_shows .hand now.ge
  | tail todo tails x scan read =>
    rw [starts]
    obtain ⟨_,⟨other,before⟩ | ⟨_,_,rfl⟩ | ⟨goal,u,before,rfl,_,reading,rfl⟩⟩ := scan_cases stepped scan
    · have same : s.startsAfter act = s.starts := by
        cases act <;> first | rfl | exact absurd rfl other
      rw [same]
      exact within_shows (.tail todo tails x before read) (Nat.le_refl _)
    · cases read
    · have now : s.startsAfter .readTail = Function.update s.starts u (s.recorder.world.view u).readable := by
        simp only [Tracing.startsAfter,reading]
      rw [now]
      by_cases same : t = u
      · subst t
        rw [Function.update_self]
        exact within_shows .hand (Nat.le_refl _)
      · rw [Function.update_of_ne same]
        rcases List.mem_append.mp read with earlier | new
        · exact within_shows (.tail (u :: todo) before x (by rw [reading]; rfl) earlier) (Nat.le_refl _)
        · obtain ⟨y,_,pair⟩ := Option.map_eq_some_iff.mp (Option.mem_toList.mp new)
          cases pair
          exact absurd rfl same
  | dumped d waits own =>
    rw [dumped] at waits
    unfold Tracing.dumpedAfter at waits
    split at waits
    · split at waits
      · rename_i ok _ start end_ tails collected
        cases ok with
        | false => cases waits
        | true =>
          obtain ⟨x,gathered,same,i,_,_,place,_⟩ := assembled_item waits
          have scan : s.recorder.phase.scan = some ([],tails) := by rw [collected]; rfl
          have stands := gathered_stands recycles.toTraced scan (recycles.survey _ _ scan) gathered
          rw [← own,← same,place]
          exact within_shows stands.1 (Nat.le_add_right _ _)
      · exact within_shows (.dumped d waits own) (Nat.le_refl _)
    · split at waits
      · rename_i ok _ chunk rest writing
        cases ok with
        | false => cases waits
        | true => exact within_shows (.dumped d (List.mem_of_mem_drop waits) own) (Nat.le_refl _)
      · exact within_shows (.dumped d waits own) (Nat.le_refl _)
    · exact within_shows (.dumped d waits own) (Nat.le_refl _)

theorem within_turn (recycles : Recycles tidOf s) (turn : Turn tidOf s s') {n : Nat} (within : Within s' t n) :
    Within s t n := by
  have shifts := turn_shifts recycles.toTraced turn
  obtain ⟨m,later,shows_⟩ := within
  have same (recorder : s'.recorder = s.recorder) (starts : s'.starts = s.starts)
      (dumped : s'.dumped = s.dumped) : Shows s t m := by
    cases shows_ with
    | hand => exact recorder ▸ .hand
    | batch p visible => exact .batch p (recorder ▸ visible)
    | tail todo tails x scan read => exact starts ▸ .tail todo tails x (recorder ▸ scan) read
    | dumped d waits own => exact .dumped d (dumped ▸ waits) own
  have before : Within s t m := by
    cases turn with
    | quiet recorder interner origins starts dumped => exact within_shows (same recorder starts dumped) (Nat.le_refl _)
    | forgets key recorder interner origins starts dumped =>
      exact within_shows (same recorder starts dumped) (Nat.le_refl _)
    | inserts u key kind ticks floor info callback alive recorder interner origins starts dumped =>
      exact within_shows (same recorder starts dumped) (Nat.le_refl _)
    | records u a stepped own timely interner starts dumped => exact shows_own recycles stepped shifts starts dumped shows_
    | own act stepped recorder interner origins starts dumped =>
      exact shows_own recycles stepped shifts starts dumped shows_
  obtain ⟨k,first,shown⟩ := before
  exact ⟨k,first.trans later,shown⟩

end Shown

section Guarding

variable {reach reach' : T → Nat → Prop} {floor : UInt64}

theorem guards_turn (traced : Traced tidOf s) (turn : Turn tidOf s s') (guards : Guards s reach floor)
    (narrower : ∀ t n, reach' t n → reach t n) : Guards s' reach' floor := by
  obtain ⟨past,clear⟩ := guards
  cases turn with
  | quiet recorder interner origins starts dumped clock =>
    rw [← recorder,← interner] at clear
    exact ⟨UInt64.le_trans past clock,fun t n e freedAt inside => clear t n e freedAt (narrower t n inside)⟩
  | forgets key recorder forgotten origins starts dumped clock =>
    rw [← recorder] at clear
    refine ⟨clock ▸ past,?_⟩
    intro t n e freedAt inside here waits
    rw [forgotten] at waits
    rcases Interner.forget_free _ waits with before | now
    · exact clear t n e freedAt (narrower t n inside) here before
    · rw [show freedAt = s.clock from now]
      exact past
  | inserts t key kind ticks floor' info callback alive recorder inserted origins starts dumped clock =>
    rw [← recorder] at clear
    refine ⟨clock ▸ past,?_⟩
    intro t n e freedAt inside here waits
    rw [inserted] at waits
    exact clear t n e freedAt (narrower t n inside) here (Interner.insert_free traced.interner _ waits)
  | records u a stepped own timely interner starts dumped clock live logged =>
    rw [← interner] at clear
    refine ⟨clock ▸ past,?_⟩
    intro t n e freedAt inside here waits
    rcases logged with ⟨pushed,_⟩ | ⟨ticks,key,kind,id,info,_,mapped,_,pushed,_⟩
    · rw [pushed] at here
      exact clear t n e freedAt (narrower t n inside) here waits
    · rw [pushed] at here
      rcases ownedBy_snoc here with before | ⟨_,_,rfl⟩
      · exact clear t n e freedAt (narrower t n inside) before waits
      · rw [interner] at waits
        have code := Interner.mapped_code traced.interner mapped kind
        exact absurd mapped ((traced.interner.freed _ waits).2 key ∘ fun there => by rw [code]; exact there)
  | own act stepped recorder interner origins starts dumped clock =>
    obtain ⟨_,pushed⟩ := own_quiet stepped recorder.1 recorder.2.1
    rw [← interner,← pushed] at clear
    exact ⟨clock ▸ past,fun t n e freedAt inside => clear t n e freedAt (narrower t n inside)⟩

theorem insert_resolved (recycles : Recycles tidOf s) {key : UInt64} {info : CodeInfo}
    (guards : Guards s (Within s) floor) {n : Nat} {e : UInt64 × UInt32} {own : CodeInfo}
    (within : Within s t n) (here : (ownedBy t s.recorder.world.ledger.pushed)[n]? = some e)
    (origin : (ownedBy t s.origins)[n]? = some own) :
    (s.interner.insert info key floor).2.code (codeIdOf e.2) = some own := by
  have before := recycles.resolved t n e own within here origin
  cases inserted : s.interner.insert info key floor with
  | mk result i' =>
    cases result with
    | none => exact Interner.insert_none inserted ▸ before
    | some id =>
      rcases Interner.insert_cases recycles.interner inserted with ⟨_,rfl⟩ | ⟨_,assigns,handed⟩
      · exact before
      · have other : codeIdOf e.2 ≠ id := by
          rintro rfl
          rcases handed with fresh | ⟨freedAt,waits,below⟩
          · rw [fresh] at before
            cases before
          · exact UInt64.not_le.mpr below (guards.clear t n e freedAt within here waits)
        exact (assigns.others _ other).trans before

theorem resolved_turn (recycles : Recycles tidOf s) (turn : Turn tidOf s s') : Resolved s' := by
  intro t n e info within here origin
  have before := within_turn recycles turn within
  have resolved := recycles.resolved t n
  cases turn with
  | quiet recorder interner origins =>
    rw [recorder] at here
    rw [origins] at origin
    rw [interner]
    exact resolved e info before here origin
  | forgets key recorder forgotten origins =>
    rw [recorder] at here
    rw [origins] at origin
    rw [forgotten,Interner.forget_code]
    exact resolved e info before here origin
  | inserts u key kind ticks floor info' callback alive recorder inserted origins =>
    rw [recorder] at here
    rw [origins] at origin
    rw [inserted]
    exact insert_resolved recycles (recycles.floors.called u key kind ticks floor callback) before here origin
  | records u a stepped own timely interner starts dumped clock live logged =>
    rw [interner]
    rcases logged with ⟨pushed,origins⟩ | ⟨ticks,key,kind,id,info',_,mapped,alive,pushed,origins⟩
    · rw [pushed] at here
      rw [origins] at origin
      exact resolved e info before here origin
    · rw [pushed] at here
      rw [origins] at origin
      have lengths := Keyed.ownedBy_parallel recycles.parallel t
      rcases ownedBy_snoc here with old | ⟨_,end_,rfl⟩
      · rcases ownedBy_snoc origin with known | ⟨_,end_,_⟩
        · exact resolved e info before old known
        · have inside := (List.getElem?_eq_some_iff.mp old).1
          omega
      · rcases ownedBy_snoc origin with known | ⟨_,_,rfl⟩
        · have inside := (List.getElem?_eq_some_iff.mp known).1
          omega
        · obtain ⟨info',living,named⟩ := recycles.names key id mapped
          rw [alive] at living
          cases living
          rw [Interner.mapped_code recycles.interner mapped]
          exact named
  | own act stepped recorder interner origins =>
    obtain ⟨_,pushed⟩ := own_quiet stepped recorder.1 recorder.2.1
    rw [pushed] at here
    rw [origins] at origin
    rw [interner]
    exact resolved e info before here origin

end Guarding

end Trace0
