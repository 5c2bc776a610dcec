import Trace0.Ring
import Trace0.Snapshot
import Trace0.SnapshotNesting

namespace Trace0

-- The records of a dump in the order it returns them, each naming its thread and the place
-- in that thread's stream of the event it was written for.
def traced (history tails : List EventBatch) (horizon start end_ : UInt64) :
    List (UInt32 × Emit (Entry × Nat)) :=
  StableSort.sortByKey (fun x => (x.2.ticks Prod.fst horizon).toNat)
    ((streams (history ++ freshTails history tails)).flatMap fun s =>
      (emits Prod.fst start end_ s.2.zipIdx [] false).map (s.1,·))

theorem assemble_traced (history tails : List EventBatch) (clock : Clock)
    (horizon start end_ : UInt64) :
    assemble history tails clock horizon start end_ =
      (traced history tails horizon start end_).map fun x =>
        toEvent clock (x.2.record Prod.fst x.1 horizon) := by
  apply assemble_labelled
  intro s _
  exact List.zipIdx_map_fst 0 s.2

theorem traced_pair {history tails : List EventBatch} {horizon start end_ : UInt64} {tid : UInt32}
    {close : Entry × Nat} (present : (tid,.synthesized close) ∈ traced history tails horizon start end_) :
    [(tid,.synthesized close),(tid,.event close)].Sublist (traced history tails horizon start end_) ↔
      horizon ≤ close.1.1 := by
  unfold traced at present ⊢
  rw [StableSort.mem_iff,List.mem_flatMap] at present
  obtain ⟨s,stream,inside⟩ := present
  obtain ⟨e,emitted,same⟩ := List.mem_map.mp inside
  cases same
  have pair := (emits_pair Prod.fst emitted).map (s.1,·)
  have within := List.sublist_flatten_of_mem (List.mem_map_of_mem (f := fun s : UInt32 × List Entry =>
    (emits Prod.fst start end_ s.2.zipIdx [] false).map (s.1,·)) stream)
  rw [StableSort.pair_iff _ (pair.trans (by simpa [List.flatMap] using within))]
  simp only [Emit.ticks]
  exact UInt64.le_iff_toNat_le.symm

theorem traced_synthesized {history tails : List EventBatch} {horizon start end_ : UInt64}
    {tid : UInt32} {close : Entry × Nat} :
    (tid,.synthesized close) ∈ traced history tails horizon start end_ ↔
      close ∈ unmatched Prod.fst start end_
        (streamOf tid (history ++ freshTails history tails)).zipIdx := by
  have listed (stream : List Entry) :
      .synthesized close ∈ emits Prod.fst start end_ stream.zipIdx [] false ↔
        close ∈ unmatched Prod.fst start end_ stream.zipIdx := by
    rw [unmatched,← emits_unmatched Prod.fst start end_ stream.zipIdx [] false,List.mem_filterMap]
    constructor
    · exact fun inside => ⟨_,inside,rfl⟩
    · rintro ⟨e,inside,same⟩
      cases e <;> cases same
      exact inside
  unfold traced
  rw [StableSort.mem_iff,List.mem_flatMap]
  constructor
  · rintro ⟨⟨u,stream⟩,member,inside⟩
    obtain ⟨e,emitted,same⟩ := List.mem_map.mp inside
    cases same
    rw [← (streams_mem.mp member).2]
    exact (listed stream).mp emitted
  · intro inside
    have emitted := (listed _).mpr inside
    by_cases known : ∃ b ∈ history ++ freshTails history tails, b.tid = tid
    · exact ⟨(tid,_),streams_mem.mpr ⟨known,rfl⟩,List.mem_map_of_mem emitted⟩
    · have none : streamOf tid (history ++ freshTails history tails) = [] := by
        simp only [streamOf,List.flatMap_eq_nil_iff,List.mem_filter,decide_eq_true_eq]
        exact fun b present => absurd ⟨b,present.1,present.2⟩ known
      rw [none] at emitted
      simp [emits] at emitted

-- A thread's batches reach the ring in tick order: what arrives later holds nothing older
-- than the end of what arrived before.
def InOrder (batches : List EventBatch) : Prop :=
  batches.Pairwise fun a b => a.tid = b.tid → ∀ e ∈ b.entries, a.endTicks ≤ e.1

instance (batches : List EventBatch) : Decidable (InOrder batches) :=
  have (a b : EventBatch) : Decidable (a.tid = b.tid → ∀ e ∈ b.entries, a.endTicks ≤ e.1) :=
    have := List.decidableBAll (a.endTicks ≤ ·.1) b.entries
    inferInstance
  inferInstanceAs (Decidable (List.Pairwise _ _))

theorem unmatched_place {stream : List Entry} {start end_ : UInt64} {close : Entry × Nat}
    (inside : close ∈ unmatched Prod.fst start end_ stream.zipIdx) :
    stream[close.2]? = some close.1 := by
  have member := (List.mem_filter.mp inside).1
  obtain ⟨f,read,same⟩ := List.mem_map.mp (Brackets.scan_mem member)
  have own : f = close := by
    unfold mark at same
    split at same <;> cases same
    rfl
  subst own
  exact List.mem_zipIdx_iff_getElem?.mp ((List.takeWhile_sublist _).subset read)

-- A close that is older than the end of the last evicted batch although that batch was
-- another thread's, or the close is read from a tail, is all that can go before its open.
theorem horizon_order_iff (capacity : Nat) (calls : List RingCall) (ordered : InOrder (arrivals calls))
    (tails : List EventBatch) (clock : Clock) (start end_ : UInt64) :
    assemble (Ring.after capacity calls).batches tails clock
        (Ring.after capacity calls).horizonTicks start end_ =
      (traced (Ring.after capacity calls).batches tails
        (Ring.after capacity calls).horizonTicks start end_).map (fun x =>
          toEvent clock (x.2.record Prod.fst x.1 (Ring.after capacity calls).horizonTicks)) ∧
    ((∀ tid close, (tid,.synthesized close) ∈ traced (Ring.after capacity calls).batches tails
          (Ring.after capacity calls).horizonTicks start end_ →
        [(tid,.synthesized close),(tid,.event close)].Sublist
          (traced (Ring.after capacity calls).batches tails
            (Ring.after capacity calls).horizonTicks start end_)) ↔
      ∀ last ∈ (Ring.evictedBy capacity calls).getLast?, ∀ tid,
        ∀ close ∈ unmatched Prod.fst start end_ (streamOf tid ((Ring.after capacity calls).batches ++
          freshTails (Ring.after capacity calls).batches tails)).zipIdx,
        last.tid ≠ tid ∨ (streamOf tid (Ring.after capacity calls).batches).length ≤ close.2 →
          last.endTicks ≤ close.1.1) := by
  refine ⟨assemble_traced _ _ _ _ _ _,?_⟩
  obtain ⟨splits,horizon⟩ := ring_run capacity calls
  have positions : (∀ tid close, (tid,.synthesized close) ∈ traced (Ring.after capacity calls).batches
        tails (Ring.after capacity calls).horizonTicks start end_ →
      [(tid,.synthesized close),(tid,.event close)].Sublist
        (traced (Ring.after capacity calls).batches tails
          (Ring.after capacity calls).horizonTicks start end_)) ↔
      ∀ tid, ∀ close ∈ unmatched Prod.fst start end_ (streamOf tid
        ((Ring.after capacity calls).batches ++
          freshTails (Ring.after capacity calls).batches tails)).zipIdx,
        (Ring.after capacity calls).horizonTicks ≤ close.1.1 := by
    refine forall_congr' fun tid => forall_congr' fun close => ?_
    constructor
    · exact fun stands inside =>
        (traced_pair (traced_synthesized.mpr inside)).mp (stands (traced_synthesized.mpr inside))
    · exact fun le present => (traced_pair present).mpr (le (traced_synthesized.mp present))
  rw [positions,horizon]
  rw [splits] at ordered
  generalize Ring.evictedBy capacity calls = evicted at ordered ⊢
  generalize (Ring.after capacity calls).batches = history at ordered ⊢
  cases final : evicted.getLast? with
  | none => simp [Ring.horizonOf,final]
  | some last =>
    have end_eq : Ring.horizonOf evicted 0 = last.endTicks := by simp [Ring.horizonOf,final]
    rw [end_eq]
    constructor
    · intro all l same tid close inside _
      cases Option.mem_some_iff.mp same
      exact all tid close inside
    · intro some_ tid close inside
      by_cases other : last.tid ≠ tid ∨ (streamOf tid history).length ≤ close.2
      · exact some_ last rfl tid close inside other
      · simp only [not_or,ne_eq,not_not,Nat.not_le] at other
        obtain ⟨same,early⟩ := other
        -- the close is in a batch of the evicted batch's own thread, which arrived after it
        have place := unmatched_place inside
        rw [streamOf_append,List.getElem?_append_left early] at place
        have member := List.mem_of_getElem? place
        simp only [streamOf,List.mem_flatMap,List.mem_filter,decide_eq_true_eq] at member
        obtain ⟨b,⟨held,tidEq⟩,entry⟩ := member
        have before : last ∈ evicted := List.mem_of_getLast? final
        exact (List.pairwise_append.mp ordered).2.2 last before b held (same.trans tidEq.symm)
          close.1 entry

def beganAt (ticks : UInt64) (tid : UInt32) : EventBatch :=
  ⟨ticks,tid,[⟨0,packCodeKind 7 .Begin⟩],1⟩

def endedAt (ticks : UInt64) (tid : UInt32) : EventBatch :=
  ⟨ticks,tid,[⟨0,packCodeKind 7 .End⟩],1⟩

-- One thread, its open evicted: the made-up one stands before the close.
theorem horizon_order_one_thread :
    (1,.synthesized ((50,packCodeKind 7 .End),0)) ∈ traced [endedAt 50 1] [] 40 0 200 ∧
      [(1,.synthesized ((50,packCodeKind 7 .End),0)),(1,.event ((50,packCodeKind 7 .End),0))].Sublist
        (traced [endedAt 50 1] [] 40 0 200) := by
  have made : ((1 : UInt32),Emit.synthesized ((50,packCodeKind 7 .End),0)) ∈
      traced [endedAt 50 1] [] 40 0 200 := traced_synthesized.mpr (by decide)
  refine ⟨made,(horizon_order_iff 1 [.push (beganAt 40 1),.push (endedAt 50 1)] (by decide) [] .mock 0
    200).2.mpr (fun last evicted tid close inside other => ?_) 1 _ made⟩
  have first : last = beganAt 40 1 := (Option.some.inj evicted).symm
  have member : close.1 ∈ streamOf tid [endedAt 50 1] :=
    List.mem_of_getElem? (unmatched_place inside)
  simp only [streamOf,List.mem_flatMap,List.mem_filter,List.mem_singleton] at member
  obtain ⟨b,⟨rfl,_⟩,entry⟩ := member
  rw [List.mem_singleton.mp entry,first]
  decide

theorem other_threads_end_inverts :
    InOrder (arrivals [.push (beganAt 100 1),.push (endedAt 50 2)]) ∧
    (Ring.after 1 [.push (beganAt 100 1),.push (endedAt 50 2)]).batches = [endedAt 50 2] ∧
    (Ring.after 1 [.push (beganAt 100 1),.push (endedAt 50 2)]).horizonTicks = 100 ∧
    (2,.synthesized ((50,packCodeKind 7 .End),0)) ∈ traced [endedAt 50 2] [] 100 0 200 ∧
    ¬[(2,.synthesized ((50,packCodeKind 7 .End),0)),(2,.event ((50,packCodeKind 7 .End),0))].Sublist
      (traced [endedAt 50 2] [] 100 0 200) := by
  have made : ((2 : UInt32),Emit.synthesized ((50,packCodeKind 7 .End),0)) ∈
      traced [endedAt 50 2] [] 100 0 200 := traced_synthesized.mpr (by decide)
  refine ⟨by decide,by decide,by decide,made,fun stands => ?_⟩
  exact absurd ((traced_pair made).mp stands) (by decide)

open Brackets

def openBefore (start : UInt64) (stream : List Entry) : List Entry :=
  (opened (stream.filter fun e => decide (e.1 < start))).reverse

def within (start end_ : UInt64) (stream : List Entry) : List Entry :=
  stream.filter fun e => decide (start ≤ e.1 ∧ e.1 ≤ end_)

def windowOf (start end_ : UInt64) (stream : List Entry) : List Entry :=
  openBefore start stream ++ within start end_ stream

-- A stream a thread can have recorded whole: no close without its open, ticks never going back.
structure WholeStream (stream : List Entry) : Prop where
  matched : orphans (stream.map (mark id)) = []
  ordered : stream.Pairwise (·.1 ≤ ·.1)

def eventOf (clock : Clock) (tid : UInt32) (e : Entry) : Event :=
  .new (clock.nsSinceStart e.1) tid (codeIdOf e.2) (kindOf e.2)

def Event.seen (e : Event) : UInt64 × UInt32 × UInt32 × EventKind := (e.tsNs,e.tid,e.codeId,e.kind)

-- `Writer::drain`: what it hands to `write_batch` one batch after the other.
def drain (clock : Clock) : List EventBatch → Ring → List Event
  | [],_ => []
  | _ :: more,ring =>
    match ring.pop with
    | none => []
    | some (batch,rest) => batch.decodeInto clock ++ drain clock more rest

variable {stream : List Entry} {start end_ : UInt64}

theorem drain_ring (clock : Clock) (ring : Ring) :
    drain clock ring.batches ring = ring.batches.flatMap (·.decodeInto clock) := by
  cases ring with
  | mk batches bytes capacity floor horizon evicted =>
    induction batches generalizing bytes with
    | nil => rfl
    | cons batch rest ih =>
      simp only [drain,Ring.pop,List.flatMap_cons]
      rw [ih]

theorem sorted_split (keep : Entry → Bool) (ordered : stream.Pairwise (·.1 ≤ ·.1))
    (closed : ∀ a b : Entry, a.1 ≤ b.1 → keep b = true → keep a = true) :
    stream = stream.filter keep ++ stream.filter (!keep ·) := by
  induction stream with
  | nil => rfl
  | cons a rest ih =>
    rw [List.pairwise_cons] at ordered
    by_cases kept : keep a = true
    · simp only [List.filter_cons,kept,if_true,Bool.not_true,Bool.false_eq_true,if_false,List.cons_append]
      rw [← ih ordered.2]
    · have none : rest.filter keep = [] := by
        rw [List.filter_eq_nil_iff]
        exact fun b inside later => kept (closed a b (ordered.1 b inside) later)
      have all : rest.filter (!keep ·) = rest := by
        rw [List.filter_eq_self]
        intro b inside
        simpa using List.filter_eq_nil_iff.mp none b inside
      simp [kept,none,all]

theorem window_split (ordered : stream.Pairwise (·.1 ≤ ·.1)) (start end_ : UInt64) : ∃ behind,
    stream = stream.filter (fun e => decide (e.1 < start)) ++ (within start end_ stream ++ behind) ∧
      ∀ e ∈ behind, start ≤ e.1 ∧ end_ < e.1 := by
  refine ⟨(stream.filter fun e => !decide (e.1 < start)).filter fun e => !decide (e.1 ≤ end_),?_,?_⟩
  · have first := sorted_split (fun e => decide (e.1 < start)) ordered (by
      intro a b le before
      rw [decide_eq_true_eq] at before ⊢
      exact UInt64.lt_of_le_of_lt le before)
    have second := sorted_split (fun e => decide (e.1 ≤ end_))
      (ordered.filter fun e => !decide (e.1 < start)) (by
        intro a b le before
        rw [decide_eq_true_eq] at before ⊢
        exact UInt64.le_trans le before)
    have inside : (stream.filter fun e => !decide (e.1 < start)).filter (fun e => decide (e.1 ≤ end_)) =
        within start end_ stream := by
      rw [List.filter_filter,within]
      apply List.filter_congr
      intro e _
      have later : (!decide (e.1 < start)) = decide (start ≤ e.1) := by
        rw [← decide_not]
        exact decide_eq_decide.mpr UInt64.not_lt
      rw [later,Bool.decide_and,Bool.and_comm]
    rw [inside] at second
    rw [← second]
    exact first
  · intro e present
    obtain ⟨later,past⟩ := List.mem_filter.mp present
    have from_ := (List.mem_filter.mp later).2
    simp only [Bool.not_eq_true',decide_eq_false_iff_not] at past from_
    exact ⟨UInt64.not_lt.mp from_,UInt64.not_le.mp past⟩

theorem filled_whole {stack word : List Entry} (matched : (scan stack (word.map (mark id))).2 = []) :
    filled id stack word = word.map .event := by
  induction word generalizing stack with
  | nil => rfl
  | cons a rest ih =>
    rw [List.map_cons,scan_mark] at matched
    obtain ⟨here,later⟩ := List.append_eq_nil_iff.mp matched
    have unmade : ¬(¬opens (id a).2 = true ∧ stack = []) := by
      intro missing
      rw [if_pos missing] at here
      cases here
    rw [filled,if_neg unmade,List.nil_append,List.map_cons,ih later]

theorem emits_window_whole (whole : WholeStream stream) :
    emits id start end_ stream [] false =
      (openBefore start stream).map .carried ++ (within start end_ stream).map .event := by
  obtain ⟨behind,split,late⟩ := window_split whole.ordered start end_
  have early : ∀ a ∈ stream.filter (fun e => decide (e.1 < start)), (id a).1 < start := by
    intro a present
    simpa using (List.mem_filter.mp present).2
  have inside : ∀ a ∈ within start end_ stream, start ≤ (id a).1 ∧ (id a).1 ≤ end_ := by
    intro a present
    simpa using (List.mem_filter.mp present).2
  have matched := whole.matched
  rw [split,List.map_append,orphans,scan_append] at matched
  have rest := (List.append_eq_nil_iff.mp matched).2
  rw [List.map_append,scan_append] at rest
  have read := emits_before id start end_ early (within start end_ stream ++ behind) [] false
  rw [← split] at read
  rw [read,emits_carried id start end_ ?_,emits_window id start end_ _ inside late,
    filled_whole (List.append_eq_nil_iff.mp rest).1]
  · rfl
  · intro a present
    rcases List.mem_append.mp present with here | later
    · exact (inside a here).1
    · exact (late a later).1

theorem window_sorted (whole : WholeStream stream) (start end_ : UInt64) :
    (windowOf start end_ stream).Pairwise (·.1 ≤ ·.1) := by
  have carried : (openBefore start stream).Sublist (stream.filter fun e => decide (e.1 < start)) :=
    opened_sublist _
  refine List.pairwise_append.mpr ⟨(whole.ordered.filter _).sublist carried,whole.ordered.filter _,?_⟩
  intro a before b inside
  have early := (List.mem_filter.mp (carried.subset before)).2
  have from_ := (List.mem_filter.mp inside).2
  rw [decide_eq_true_eq] at early from_
  exact UInt64.le_trans (UInt64.le_of_lt early) from_.1

theorem replay_window (whole : WholeStream stream) (tid : UInt32) (horizon : UInt64) :
    replay tid horizon start end_ stream [] false = (windowOf start end_ stream).map fun e => (e.1,tid,e.2) := by
  have records := replay_emits id tid horizon start end_ stream [] false
  rw [List.map_id,List.map_nil,emits_window_whole whole] at records
  rw [records,windowOf,List.map_append,List.map_append,List.map_map,List.map_map]
  rfl

theorem window_thread {history tails : List EventBatch} (clock : Clock) (horizon : UInt64) (tid : UInt32)
    (whole : WholeStream (streamOf tid (history ++ freshTails history tails))) :
    (assemble history tails clock horizon start end_).filter (·.tid = tid) =
      (windowOf start end_ (streamOf tid (history ++ freshTails history tails))).map (eventOf clock tid) := by
  have sorted : ((windowOf start end_ (streamOf tid (history ++ freshTails history tails))).map
      fun e => (e.1,tid,e.2)).Pairwise fun a b : UInt64 × UInt32 × UInt32 => a.1.toNat ≤ b.1.toNat := by
    rw [List.pairwise_map]
    exact (window_sorted whole start end_).imp UInt64.le_iff_toNat_le.mp
  rw [assemble_thread,replay_window whole,StableSort.of_sorted _ sorted,List.map_map]
  rfl

theorem emits_inside (inside rest : List Entry) (stack : List Entry) (emitted : Bool)
    (within : ∀ e ∈ inside, start ≤ e.1 ∧ e.1 ≤ end_) :
    (inside.map Emit.event).Sublist (emits id start end_ (inside ++ rest) stack emitted) := by
  induction inside generalizing stack emitted with
  | nil => exact List.nil_sublist _
  | cons e inside ih =>
    obtain ⟨from_,until_⟩ := within e List.mem_cons_self
    have later := ih (if opens (id e).2 then e :: stack else stack.tail) true
      fun a inside => within a (List.mem_cons_of_mem _ inside)
    rw [List.map_cons,List.cons_append,emits]
    have here : ¬(id e).1 < start := UInt64.not_lt.mpr from_
    have inTime : ¬end_ < (id e).1 := UInt64.not_lt.mpr until_
    rw [if_neg here,if_neg inTime]
    exact ((later.cons_cons _).trans (List.sublist_append_right _ _)).trans (List.sublist_append_right _ _)

theorem assemble_inside (history tails : List EventBatch) (clock : Clock) (horizon start end_ : UInt64)
    (tid : UInt32) (ordered : (streamOf tid history).Pairwise (·.1 ≤ ·.1)) :
    ((within start end_ (streamOf tid history)).map (eventOf clock tid)).Sublist
      ((assemble history tails clock horizon start end_).filter (·.tid = tid)) := by
  obtain ⟨behind,split,_⟩ := window_split ordered start end_
  have inside : ((within start end_ (streamOf tid history)).map Emit.event).Sublist
      (emits id start end_ (streamOf tid (history ++ freshTails history tails)) [] false) := by
    rw [streamOf_append]
    nth_rewrite 2 [split]
    rw [List.append_assoc,emits_before id start end_ fun a present => by simpa using (List.mem_filter.mp present).2,
      List.append_assoc]
    exact emits_inside _ _ _ _ fun e present => by simpa using (List.mem_filter.mp present).2
  have records := inside.map (Emit.record id tid horizon)
  have same := replay_emits id tid horizon start end_ (streamOf tid (history ++ freshTails history tails)) [] false
  rw [List.map_id,List.map_nil] at same
  rw [← same,List.map_map] at records
  have sorted : ((within start end_ (streamOf tid history)).map (Emit.record id tid horizon ∘ Emit.event)).Pairwise
      fun a b => a.1.toNat ≤ b.1.toNat := by
    rw [List.pairwise_map]
    exact (ordered.filter _).imp UInt64.le_iff_toNat_le.mp
  have sub := (StableSort.sublist (fun record : UInt64 × UInt32 × UInt32 => record.1.toNat) sorted records).map
    (toEvent clock)
  rw [assemble_thread]
  rw [List.map_map] at sub
  exact sub

theorem drained_thread (clock : Clock) (batches : List EventBatch) (tid : UInt32) :
    (batches.flatMap (·.decodeInto clock)).filter (·.tid = tid) =
      (streamOf tid batches).map fun e => ⟨clock.nsSinceStart e.1,tid,e.2⟩ := by
  induction batches with
  | nil => rfl
  | cons batch rest ih =>
    have split := streamOf_append tid [batch] rest
    rw [List.singleton_append] at split
    rw [List.flatMap_cons,List.filter_append,ih,split,List.map_append]
    congr 1
    rw [EventBatch.decodeInto_entries,List.filter_map]
    by_cases same : batch.tid = tid
    · simp [streamOf,same,Function.comp_def]
    · simp [streamOf,same,Function.comp_def]

theorem window_whole (stream : List Entry) : windowOf 0 0xFFFFFFFFFFFFFFFF stream = stream := by
  have none : stream.filter (fun e => decide (e.1 < 0)) = [] := by
    rw [List.filter_eq_nil_iff]
    intro e _
    simp
  have all : within 0 0xFFFFFFFFFFFFFFFF stream = stream := by
    rw [within,List.filter_eq_self]
    intro e _
    have high := e.1.toNat_lt
    rw [decide_eq_true_eq]
    refine ⟨UInt64.le_iff_toNat_le.mpr (Nat.zero_le _),UInt64.le_iff_toNat_le.mpr ?_⟩
    exact Nat.le_of_lt_succ high
  rw [windowOf,openBefore,none,all]
  rfl

theorem assemble_window (history tails : List EventBatch) (clock : Clock) (horizon start end_ : UInt64)
    (whole : ∀ tid, WholeStream (streamOf tid (history ++ freshTails history tails))) :
    (∃ records : List (UInt64 × UInt32 × UInt32),
      assemble history tails clock horizon start end_ = records.map (toEvent clock) ∧
        records.Pairwise (·.1 ≤ ·.1) ∧
          ∀ r ∈ records, (r.1,r.2.2) ∈ streamOf r.2.1 (history ++ freshTails history tails)) ∧
      (∀ tid, (assemble history tails clock horizon start end_).filter (·.tid = tid) =
        (windowOf start end_ (streamOf tid (history ++ freshTails history tails))).map (eventOf clock tid)) ∧
      ∀ ring : Ring, ring.batches = history ++ freshTails history tails → start = 0 →
        end_ = 0xFFFFFFFFFFFFFFFF → ∀ tid,
          ((assemble history tails clock horizon start end_).filter (·.tid = tid)).map (·.seen) =
            ((drain clock ring.batches ring).filter (·.tid = tid)).map (·.seen) := by
  refine ⟨⟨_,rfl,?_,?_⟩,fun tid => window_thread clock horizon tid (whole tid),?_⟩
  · refine (StableSort.sorted (fun record : UInt64 × UInt32 × UInt32 => record.1.toNat) _).imp ?_
    intro a b le
    exact UInt64.le_iff_toNat_le.mpr le
  · intro r present
    rw [StableSort.mem_iff] at present
    obtain ⟨⟨tid,stream⟩,own,inside⟩ := List.mem_flatMap.mp present
    obtain ⟨_,rfl⟩ := streams_mem.mp own
    rw [replay_window (whole tid)] at inside
    obtain ⟨e,member,rfl⟩ := List.mem_map.mp inside
    rcases List.mem_append.mp member with carried | here
    · exact (List.mem_filter.mp ((opened_sublist _).subset carried)).1
    · exact (List.mem_filter.mp here).1
  · rintro ring same rfl rfl tid
    rw [window_thread clock horizon tid (whole tid),window_whole,drain_ring,same,drained_thread,
      List.map_map,List.map_map]
    apply List.map_congr_left
    intro e _
    simp [Event.seen,eventOf,Event.codeId,Event.kind,Event.new]

-- 7 is open when the window begins, 8 opens and closes inside it, 7 closes behind it.
def marked : EventBatch := ⟨30,1,[⟨0,packCodeKind 7 .Begin⟩,⟨10,packCodeKind 8 .Begin⟩,
  ⟨12,packCodeKind 8 .End⟩,⟨20,packCodeKind 7 .End⟩],4⟩

theorem marked_whole (tid : UInt32) : WholeStream (streamOf tid ([marked] ++ freshTails [marked] [])) := by
  by_cases own : tid = 1
  · subst own
    exact ⟨by decide,by decide⟩
  · have none : streamOf tid ([marked] ++ freshTails [marked] []) = [] := by
      simp [streamOf,freshTails,marked,Ne.symm own]
    rw [none]
    exact ⟨rfl,.nil⟩

theorem assemble_window_marked :
    (assemble [marked] [] .mock 0 35 45).filter (·.tid = 1) =
      (windowOf 35 45 (streamOf 1 [marked])).map (eventOf .mock 1) ∧
      (windowOf 35 45 (streamOf 1 [marked])).map (·.1) = [30,40,42] :=
  ⟨(assemble_window [marked] [] .mock 0 35 45 marked_whole).2.1 1,by decide⟩

end Trace0
