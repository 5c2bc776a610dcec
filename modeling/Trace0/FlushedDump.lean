import Trace0.Flushing
import Trace0.StreamOrder

namespace Trace0

section Records

variable {α : Type} (entry : α → Entry)

-- The event a record stands for; a synthesized one stands for none.
def Emit.own? : Emit α → Option α
  | .carried a | .event a => some a
  | .synthesized _ => none

def maxTicks : UInt64 := 0xFFFFFFFFFFFFFFFF

theorem emits_own (items stack : List α) (emitted : Bool) (ready : emitted = true ∨ stack = []) :
    (emits entry 0 maxTicks items stack emitted).filterMap Emit.own? = items := by
  have carried (stack : List α) (emitted : Bool) (ready : emitted = true ∨ stack = []) :
      (if emitted then [] else stack.reverse.map Emit.carried) = ([] : List (Emit α)) := by
    rcases ready with rfl | rfl
    · rfl
    · simp
  induction items generalizing stack emitted with
  | nil =>
    unfold emits
    rw [carried stack emitted ready]
    rfl
  | cons a rest ih =>
    have early : ¬(entry a).1 < 0 := by simp
    have late : ¬maxTicks < (entry a).1 := UInt64.not_lt.mpr (UInt64.le_iff_toNat_le.mpr (Nat.le_of_lt_succ (entry a).1.toNat_lt))
    have made : (if ¬opens (entry a).2 ∧ stack = [] then [Emit.synthesized a] else []).filterMap Emit.own? = [] := by
      split <;> rfl
    have own : (Emit.event a).own? = some a := rfl
    unfold emits
    simp only [early,late,if_false]
    rw [carried stack emitted ready,List.nil_append,List.filterMap_append,made,List.nil_append,
      List.filterMap_cons_some own,ih _ true (.inl rfl)]

def dumpedOf (tid : UInt32) (records : List (UInt32 × Emit Entry)) : List Entry :=
  (records.filter (·.1 = tid)).filterMap (·.2.own?)

theorem dumpedOf_stream (tid : UInt32) (batches : List EventBatch) (horizon : UInt64) :
    (dumpedOf tid (labelled id (·.2) batches horizon 0 maxTicks)).Perm (streamOf tid batches) := by
  have sorted := StableSort.perm (fun x : UInt32 × Emit Entry => (x.2.ticks id horizon).toNat)
    ((streams batches).flatMap fun s => (emits id 0 maxTicks s.2 [] false).map (s.1,·))
  refine ((sorted.filter _).filterMap _).trans ?_
  have own : (((streams batches).flatMap fun s => (emits id 0 maxTicks s.2 [] false).map (s.1,·)).filter (·.1 = tid)).filterMap
      (·.2.own?) = ((streams batches).filter (·.1 = tid)).flatMap (·.2) := by
    induction streams batches with
    | nil => rfl
    | cons s rest ih =>
      rw [List.flatMap_cons,List.filter_append,List.filterMap_append,ih,List.filter_cons]
      have all := emits_own id s.2 [] false (.inr rfl)
      split
      · rename_i same
        have here : ((emits id 0 maxTicks s.2 [] false).map (s.1,·)).filter (·.1 = tid) =
            (emits id 0 maxTicks s.2 [] false).map (s.1,·) := by
          rw [List.filter_eq_self]
          rintro x present
          obtain ⟨e,_,rfl⟩ := List.mem_map.mp present
          exact same
        rw [here,List.filterMap_map,List.flatMap_cons]
        exact congrArg (· ++ _) all
      · rename_i other
        have none : ((emits id 0 maxTicks s.2 [] false).map (s.1,·)).filter (·.1 = tid) = [] := by
          rw [List.filter_eq_nil_iff]
          rintro x present
          obtain ⟨e,_,rfl⟩ := List.mem_map.mp present
          exact other
        rw [none]
        rfl
  rw [own]
  rcases streams_filter batches tid with one | ⟨none,empty⟩
  · rw [one,List.flatMap_singleton]
  · rw [none,empty]
    rfl

end Records

variable {T : Type} [DecidableEq T] {tidOf : T → UInt32} {qid : Nat} {r : Recorder T} {acts : List (Live T)} {goal : Goal}
  {tails : List (T × EventBatch)} {t : T}

omit [DecidableEq T] in
theorem mem_tailsOf {w : World T} {threads : List T} {x : EventBatch} :
    (t,x) ∈ tailsOf w threads ↔ t ∈ threads ∧ (w.threads t).readTail w.queue.id = some x := by
  unfold tailsOf
  rw [List.mem_flatMap]
  constructor
  · rintro ⟨u,member,read⟩
    obtain ⟨y,here,same⟩ := Option.map_eq_some_iff.mp (Option.mem_toList.mp read)
    cases same
    exact ⟨member,here⟩
  · rintro ⟨member,read⟩
    exact ⟨t,member,Option.mem_toList.mpr (Option.map_eq_some_iff.mpr ⟨x,read,rfl⟩)⟩

theorem calm_tail {w : World T} (calm : Calm tidOf w) (t : T) :
    (w.threads t).readTail w.queue.id = if (w.threads t).window = [] then none
      else some ⟨(w.threads t).hot.baseTicks,tidOf t,(w.threads t).window,(w.threads t).window.length⟩ := by
  by_cases unseated : Unseated (w.threads t)
  · rw [readTail_unseated unseated,if_pos unseated.window]
  · have sound := calm.sound.threads t
    obtain ⟨o,armed,own⟩ := sound.standing.armed (.inl (calm.quiet t)) unseated
    have armed : Armed (w.threads t) o := armed
    have queueId : (w.threads t).hot.queueId = w.queue.id := (sound.seat.resolve_left fun absent => unseated absent.2).2.2
    have tid : (w.threads t).hot.tid = tidOf t := armed.tid.trans own
    have reads := readTail_points armed.toPoints sound.even
    rw [queueId,tid] at reads
    exact reads

omit [DecidableEq T] in
theorem tailsOf_threads (w : World T) (threads : List T) : ((tailsOf w threads).map (·.1)).Sublist threads := by
  induction threads with
  | nil => exact List.nil_sublist _
  | cons t rest ih =>
    have split : tailsOf w (t :: rest) = (((w.threads t).readTail w.queue.id).map (t,·)).toList ++ tailsOf w rest :=
      List.flatMap_cons
    rw [split,List.map_append]
    cases (w.threads t).readTail w.queue.id with
    | none => exact ih.cons t
    | some x => exact ih.cons_cons t

theorem idle_stream {threads : List T} (calm : Calm tidOf r.world) (distinct : Function.Injective tidOf)
    (unevicted : r.ring.batches = r.world.ledger.drained.map (·.2)) (read : tails = tailsOf r.world threads) (t : T) :
    streamOf (tidOf t) (r.ring.batches ++ freshTails r.ring.batches (tails.map (·.2))) =
      (ownedBy t r.world.ledger.drained).flatMap (·.entries) ++
        (ownedBy t (freshOf r.ring.batches tails)).flatMap (·.entries) := by
  rw [streamOf_append,fresh_tails]
  congr 1
  · rw [unevicted]
    exact streamOf_owned distinct (drained_tid calm.sound) t
  · refine streamOf_owned distinct (fun x present => ?_) t
    have tail := (fresh_mem.mp present).1
    rw [read,mem_tailsOf,calm_tail calm] at tail
    obtain ⟨_,tail⟩ := tail
    split at tail
    · cases tail
    · rw [← Option.some.inj tail]

-- A thread's calls left events in a batch that carries the base ticks of one it handed over.
def Hides (qid : Nat) (calls : List (Call T)) (t : T) : Prop :=
  ∃ o, opening qid t calls = some o ∧ o.again = true ∧ 0 < o.count

structure Dumped (tidOf : T → UInt32) (qid : Nat) (acts : List (Live T)) (r : Recorder T) (tails : List (T × EventBatch))
    (t : T) : Prop where
  whole : ¬Hides qid (callsOf acts) t → streamOf (tidOf t)
    (r.ring.batches ++ freshTails r.ring.batches (tails.map (·.2))) = ownedBy t r.world.ledger.pushed
  short : Hides qid (callsOf acts) t → (streamOf (tidOf t)
    (r.ring.batches ++ freshTails r.ring.batches (tails.map (·.2)))).length < (ownedBy t r.world.ledger.pushed).length

theorem collected_dumps (rested : Rested tidOf qid acts r) (distinct : Function.Injective tidOf)
    (accepted : ∀ s ∈ r.world.ledger.shipped, s.2.1 = true)
    (unevicted : r.ring.batches = r.world.ledger.drained.map (·.2))
    (collected : r.phase = .collected goal tails) (t : T) : Dumped tidOf qid acts r tails t := by
  obtain ⟨threads,recorders,read⟩ := rested.read [] tails (by rw [collected]; rfl)
  rw [List.append_nil] at recorders
  subst threads
  have calm := rested.calm
  have handedOver := accepted_drained calm.sound accepted (rested.emptied goal tails collected t)
  have told : handed (ownedBy t r.world.ledger.shipped) ++ (r.world.threads t).written = ownedBy t r.world.ledger.pushed := by
    have told := (calm.sound.threads t).told
    simp only [World.view,View.inHand,calm.quiet t] at told
    exact told
  rw [handed_flat,handedOver] at told
  have stream := idle_stream calm distinct unevicted read t
  have once : (tails.map (·.1)).Nodup := read ▸ rested.entered.distinct.sublist (tailsOf_threads _ _)
  have opens := rested.opens t
  have absent (unread : ∀ x, (t,x) ∉ freshOf r.ring.batches tails) : ownedBy t (freshOf r.ring.batches tails) = [] := by
    refine ownedBy_absent fun member => ?_
    obtain ⟨⟨u,x⟩,present,rfl⟩ := List.mem_map.mp member
    exact unread x present
  by_cases empty : (r.world.threads t).window = []
  · have none := calm_tail calm t
    rw [if_pos empty] at none
    have unread (x : EventBatch) : (t,x) ∉ freshOf r.ring.batches tails := fun present => by
      have tail := (fresh_mem.mp present).1
      rw [read,mem_tailsOf,none] at tail
      cases tail.2
    rw [absent unread,List.flatMap_nil,List.append_nil] at stream
    have unwritten : (r.world.threads t).written = [] := by simp [Local.written,empty]
    rw [unwritten,List.append_nil] at told
    refine ⟨fun _ => stream.trans told,?_⟩
    rintro ⟨o,here,_,more⟩
    rw [here] at opens
    have count : (r.world.threads t).window.length = o.count := opens.2.2.1
    rw [empty,List.length_nil] at count
    omega
  · have notFirst : ¬Unseated (r.world.threads t) := fun unseated => empty unseated.window
    have member : t ∈ r.world.recorders :=
      rested.entered.owners t ((calm.sound.threads t).seat.resolve_left fun absent => notFirst absent.2).2.1
    have tail := calm_tail calm t
    rw [if_neg empty] at tail
    have present := mem_tailsOf.mpr ⟨member,tail⟩
    rw [← read] at present
    have some_ : (r.world.threads t).written ≠ [] := by simp [Local.written,empty]
    cases here : opening qid t (callsOf acts) with
    | none =>
      rw [here] at opens
      exact absurd opens.1 notFirst
    | some o =>
      rw [here] at opens
      obtain ⟨_,base,count,_,again,_⟩ := opens
      have base : (r.world.threads t).hot.baseTicks = o.base := base
      have count : (r.world.threads t).window.length = o.count := count
      have again : o.again = true ↔ ∃ b ∈ ownedBy t r.world.ledger.drained, b.baseTicks = o.base := by
        rw [again,← handedOver]
        constructor
        · rintro ⟨s,offered,same⟩
          exact ⟨s.2,List.mem_map_of_mem offered,same⟩
        · rintro ⟨b,inside,same⟩
          obtain ⟨s,offered,rfl⟩ := List.mem_map.mp inside
          exact ⟨s,offered,same⟩
      have hides : Hides qid (callsOf acts) t ↔ o.again = true := by
        constructor
        · rintro ⟨o',same,twice,_⟩
          rw [here,Option.some.injEq] at same
          exact same ▸ twice
        · exact fun twice => ⟨o,here,twice,count ▸ List.length_pos_iff.mpr empty⟩
      have history (h : EventBatch) : h ∈ r.ring.batches ∧ h.tid = tidOf t ↔ h ∈ ownedBy t r.world.ledger.drained := by
        rw [unevicted,mem_ownedBy]
        constructor
        · rintro ⟨held,own⟩
          obtain ⟨⟨u,h⟩,drained,rfl⟩ := List.mem_map.mp held
          rwa [← distinct ((drained_tid calm.sound _ drained).symm.trans own)]
        · exact fun drained => ⟨List.mem_map.mpr ⟨_,drained,rfl⟩,drained_tid calm.sound _ drained⟩
      by_cases twice : o.again = true
      · obtain ⟨b,handed,same⟩ := again.mp twice
        obtain ⟨held,own⟩ := (history b).mpr handed
        have unread (x : EventBatch) : (t,x) ∉ freshOf r.ring.batches tails := fun kept => by
          obtain ⟨there,missing⟩ := fresh_mem.mp kept
          rw [read,mem_tailsOf,tail] at there
          rw [← Option.some.inj there.2] at missing
          exact missing b held ⟨own,same.trans base.symm⟩
        rw [absent unread,List.flatMap_nil,List.append_nil] at stream
        refine ⟨fun shown => absurd (hides.mpr twice) shown,fun _ => ?_⟩
        rw [stream,← told,List.length_append]
        exact Nat.lt_add_of_pos_right (List.length_pos_iff.mpr some_)
      · have missing (h : EventBatch) (held : h ∈ r.ring.batches) :
            ¬(h.tid = tidOf t ∧ h.baseTicks = (r.world.threads t).hot.baseTicks) := by
          rintro ⟨own,same⟩
          exact twice (again.mpr ⟨h,(history h).mp ⟨held,own⟩,same.trans base⟩)
        have kept := fresh_mem.mpr ⟨present,missing⟩
        have distinct : ((freshOf r.ring.batches tails).map (·.1)).Nodup := once.sublist (List.filter_sublist.map _)
        rw [ownedBy_once distinct kept,List.flatMap_singleton,entries_eq] at stream
        dsimp only at stream
        rw [Local.written] at told
        exact ⟨fun _ => stream.trans told,fun hidden => absurd (hides.mp hidden) twice⟩

def dumpRecords (r : Recorder T) (tails : List (T × EventBatch)) : List (UInt32 × Emit Entry) :=
  labelled id (·.2) (r.ring.batches ++ freshTails r.ring.batches (tails.map (·.2))) r.ring.horizonTicks 0 maxTicks

theorem flushes_hide (tidOf : T → UInt32) (distinct : Function.Injective tidOf) (qid : Nat) (clock : Clock)
    (capacityBytes : Nat) {acts : List (Live T)} {r : Recorder T} {tails : List (T × EventBatch)}
    (run : Machine.Runs (Recorder.live tidOf) Resting (.initial qid clock capacityBytes) acts r)
    (accepted : ∀ s ∈ r.world.ledger.shipped, s.2.1 = true)
    (unevicted : r.ring.batches = r.world.ledger.drained.map (·.2))
    (collected : r.phase = .collected (.dump 0 maxTicks) tails) :
    assemble r.ring.batches (tails.map (·.2)) r.world.queue.clock r.ring.horizonTicks 0 maxTicks =
      (dumpRecords r tails).map (fun x => toEvent r.world.queue.clock (x.2.record id x.1 r.ring.horizonTicks)) ∧
    ((∀ t, (ownedBy t ((callsOf acts).flatMap Call.logged)).Subperm (dumpedOf (tidOf t) (dumpRecords r tails))) ↔
      ∀ t, ¬Hides qid (callsOf acts) t) := by
  have rested := runs_rested run
  refine ⟨assemble_labelled id _ _ 0 maxTicks fun s _ => List.map_id _,?_⟩
  rw [← rested.pushed]
  have stream (t : T) := dumpedOf_stream (tidOf t)
    (r.ring.batches ++ freshTails r.ring.batches (tails.map (·.2))) r.ring.horizonTicks
  have dumps (t : T) := collected_dumps rested distinct accepted unevicted collected t
  constructor
  · intro all t hidden
    have few := (all t).length_le
    have short := (dumps t).short hidden
    rw [dumpRecords,(stream t).length_eq] at few
    omega
  · intro shown t
    have whole := stream t
    rw [(dumps t).whole (shown t)] at whole
    exact whole.symm.subperm

def testsResting (r : Recorder Unit) : Live Unit → Bool
  | .call (.push t _ ticks _ _) => r.phase = .idle ∧ (ownedBy t r.world.ledger.pushed).all (·.1 ≤ ticks)
  | .call _ => r.phase = .idle
  | .job _ => true

theorem testsResting_meets (r : Recorder Unit) (act : Live Unit) (tests : testsResting r act = true) : Resting r act := by
  cases act with
  | job _ => trivial
  | call c =>
    cases c with
    | push t run ticks codeId kind =>
      obtain ⟨idle,rising⟩ := of_decide_eq_true tests
      refine ⟨idle,?_⟩
      intro u _ later _ _ same
      cases same
      simpa using rising
    | flush t => exact ⟨of_decide_eq_true tests,by simp⟩
    | drain limit => exact ⟨of_decide_eq_true tests,by simp⟩

-- A push, a flush and a push at `late`, then a dump of everything.
def pushFlushPush (late : UInt64) : List (Live Unit) :=
  [.call (.push () 1 100 7 .Begin),.call (.flush ()),.call (.push () 1 late 7 .End),.job (.dump 0 maxTicks),.job .absorb,
    .job .absorb,.job .lock,.job .readTail,.job .unlock,.job .absorb]

theorem flushes_hide_gap : ∃ (r : Recorder Unit) (tails : List (Unit × EventBatch)),
    r.phase = .collected (.dump 0 maxTicks) tails ∧ tails.length = 1 ∧ r.ring.batches.length = 2 ∧
      ∀ t, (ownedBy t ((callsOf (pushFlushPush 8589934592)).flatMap Call.logged)).Subperm (dumpedOf 1 (dumpRecords r tails)) := by
  have ran : (Machine.checkedRun (Recorder.live fun _ => 1) testsResting (.initial 1 .mock 1000000)
      (pushFlushPush 8589934592)).map (fun r => (r.phase,r.ring.batches.length,r.world.ledger.shipped.all (·.2.1),
        decide (r.ring.batches = r.world.ledger.drained.map (·.2)))) =
      some (.collected (.dump 0 maxTicks) [((),⟨8589934592,1,[⟨0,packCodeKind 7 .End⟩],1⟩)],2,true,true) := by
    decide +kernel
  obtain ⟨r,run,facts⟩ := Option.map_eq_some_iff.mp ran
  simp only [Prod.mk.injEq,decide_eq_true_eq] at facts
  obtain ⟨phase,ring,accepted,unevicted⟩ := facts
  refine ⟨r,_,phase,rfl,ring,?_⟩
  refine (flushes_hide (fun _ => 1) (fun _ _ _ => rfl) 1 .mock 1000000 (Machine.runs_of_checked testsResting_meets run)
    (by simpa using accepted) unevicted phase).2.mpr ?_
  rintro _ ⟨o,here,again,_⟩
  cases here
  cases again

-- The second event lies in a batch that starts at the ticks of the flushed one.
theorem flushes_hide_renewed : ∃ (r : Recorder Unit) (tails : List (Unit × EventBatch)),
    Machine.Runs (Recorder.live fun _ => 1) Resting (.initial 1 .mock 1000000) (pushFlushPush 110) r ∧
      (∀ s ∈ r.world.ledger.shipped, s.2.1 = true) ∧ r.ring.batches = r.world.ledger.drained.map (·.2) ∧
      r.phase = .collected (.dump 0 maxTicks) tails ∧
      ¬(ownedBy () ((callsOf (pushFlushPush 110)).flatMap Call.logged)).Subperm (dumpedOf 1 (dumpRecords r tails)) := by
  have ran : (Machine.checkedRun (Recorder.live fun _ => 1) testsResting (.initial 1 .mock 1000000)
      (pushFlushPush 110)).map (fun r => (r.phase,r.world.ledger.shipped.all (·.2.1),
        decide (r.ring.batches = r.world.ledger.drained.map (·.2)),
        (dumpedOf 1 (dumpRecords r [((),⟨100,1,[⟨10,packCodeKind 7 .End⟩],1⟩)])).length)) =
      some (.collected (.dump 0 maxTicks) [((),⟨100,1,[⟨10,packCodeKind 7 .End⟩],1⟩)],true,true,1) := by
    decide +kernel
  obtain ⟨r,run,facts⟩ := Option.map_eq_some_iff.mp ran
  simp only [Prod.mk.injEq,decide_eq_true_eq] at facts
  obtain ⟨phase,accepted,unevicted,dumped⟩ := facts
  refine ⟨r,_,Machine.runs_of_checked testsResting_meets run,by simpa using accepted,unevicted,phase,fun all => ?_⟩
  have pushed : (ownedBy () ((callsOf (pushFlushPush 110)).flatMap Call.logged)).length = 2 := by decide
  have few := all.length_le
  omega

end Trace0
