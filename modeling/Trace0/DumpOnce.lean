import Trace0.Lib.Machine
import Trace0.StreamOrder

namespace Trace0

section Starting

variable {T : Type}

-- No two batches of a thread start at the same ticks: what tells a tail from the batches in
-- the history.
structure Rising (v : View T) : Prop where
  bases : (v.batches.map (·.baseTicks)).Pairwise (· < ·)
  pending : match v.stage with
    | .renewed ticks _ | .armed ticks _ => ∀ b ∈ v.batches, b.baseTicks < ticks
    | _ => True
  unstarted : v.l.cold.producer = none → v.batches = []

structure Paced (qid run : Nat) (pushed : List (UInt64 × UInt32)) (ticks : UInt64) : Prop where
  own : run = qid
  forward : ∀ e ∈ pushed, e.1 ≤ ticks
  few : (pushed.filter (·.1 = ticks)).length + 1 < batchN

variable {qid : Nat} {t : T} {tid : UInt32} {v v' : View T} {a : Act T}

theorem current_mem {v : View T} (idle : v.stage = .idle) (some_ : v.l.window ≠ []) :
    v.batches = v.shipped.map (·.2) ++ [⟨v.l.hot.baseTicks,v.l.hot.tid,v.l.window,batchN⟩] := by
  simp [View.batches,idle,current_some some_]

theorem missed_base (sound : ThreadSound qid t tid v) (based : Based v) (ticking : Ticking v)
    (idle : v.stage = .idle) (miss : EventQueue.fastPath v.l run ticks = false)
    (producer : v.l.cold.producer = some (qid,t)) (open_ : v.l.cold.batch = some o)
    (some_ : v.l.window ≠ []) (paced : Paced qid run v.pushed ticks) : v.l.hot.baseTicks < ticks := by
  obtain ⟨armed,_⟩ := ship_armed sound idle producer open_
  have seat := sound.seat.resolve_left fun absent => by simp [absent.2.producer] at producer
  have batches := current_mem idle some_
  have last : (⟨v.l.hot.baseTicks,v.l.hot.tid,v.l.window,batchN⟩ : EventBatch) ∈ v.batches := by
    rw [batches]
    exact List.mem_append_right _ (List.mem_singleton_self _)
  obtain ⟨e,rest,entries,first⟩ := based.first _ last
  have base : e.1 = v.l.hot.baseTicks := first
  have part : (e :: rest).Sublist v.pushed := by
    rw [← entries,← batches_pushed sound,batches,List.flatMap_append,List.flatMap_singleton]
    exact List.sublist_append_right _ _
  have behind : v.l.hot.baseTicks ≤ ticks := by
    rw [← base]
    exact paced.forward e (part.subset List.mem_cons_self)
  by_contra notBelow
  have same : v.l.hot.baseTicks = ticks := UInt64.le_antisymm behind (UInt64.not_lt.mp notBelow)
  have full : v.l.hot.cursor = o.start + batchN := by
    have near : ticks - v.l.hot.baseTicks ≤ deltaOverflow := by
      rw [same,UInt64.sub_self]
      decide
    have high := armed.high
    by_contra room
    have below : v.l.hot.cursor < v.l.hot.endAt := by
      rw [armed.finish]
      omega
    have own := seat.2.2.trans paced.own.symm
    simp [EventQueue.fastPath,below,own,near] at miss
  have count : (e :: rest).length = batchN := by
    rw [← entries,EventBatch.entries_length,window_length armed.toPoints,full]
    omega
  have level : (e :: rest).filter (·.1 = ticks) = e :: rest := by
    rw [List.filter_eq_self]
    intro d present
    have least := (ticking.pushed.sublist part)
    have most := paced.forward d (part.subset present)
    rw [decide_eq_true_eq]
    apply UInt64.le_antisymm most
    rw [← same,← base]
    rcases List.mem_cons.mp present with rfl | later
    · exact UInt64.le_refl _
    · exact (List.pairwise_cons.mp least).1 d later
  have most := (part.filter (·.1 = ticks)).length_le
  rw [level,count] at most
  have few := paced.few
  omega

theorem rising_bases (sound : ThreadSound qid t tid v) (based : Based v) (rising : Rising v)
    (moves : Moves qid t tid a v v') : (v'.batches.map (·.baseTicks)).Pairwise (· < ·) := by
  have bases := rising.bases
  cases moves_stretch sound moves with
  | same batches =>
    rw [batches]
    exact bases
  | fresh b ticks codeKind pending base entries batches =>
    have below := rising.pending
    simp only [pending] at below
    rw [batches,List.map_append,List.pairwise_append]
    refine ⟨bases,List.pairwise_singleton _ _,?_⟩
    intro early inside late last
    obtain ⟨c,member,rfl⟩ := List.mem_map.mp inside
    rw [List.map_singleton,List.mem_singleton] at last
    rw [last,base]
    exact below c member
  | blank b idle seated empty batches => exact absurd empty ((based.begun idle).resolve_left seated)
  | further front b b' e before batches continues entries =>
    rw [before] at bases
    rw [batches]
    simpa [continues.base] using bases

theorem unseated_before (sound : ThreadSound qid t tid v) (moves : Moves qid t tid a v v')
    (absent : v'.l.cold.producer = none) : Unseated v.l := by
  have seated : v.seated → v'.seated := by
    intro seated
    cases moves with
    | seat idle miss first direct => trivial
    | _ => exact seated
  rcases sound.seat with never | ⟨_,taken,_⟩
  · exact never.2
  · rcases (moves_sound sound moves).seat with none | ⟨present,_,_⟩
    · exact absurd (seated taken) none.1
    · rw [absent] at present
      cases present

theorem rising_moves (sound : ThreadSound qid t tid v) (based : Based v) (ticking : Ticking v)
    (rising : Rising v) (moves : Moves qid t tid a v v') (recording : v.stage.recording = true)
    (recording' : v'.stage.recording = true)
    (paced : ∀ run ticks codeId kind, a = .push t run ticks codeId kind → Paced qid run v.pushed ticks) :
    Rising v' := by
  refine ⟨rising_bases sound based rising moves,?_,?_⟩
  · have pending := rising.pending
    cases moves with
    | still => exact pending
    | drained splits => exact pending
    | seat idle miss first direct =>
      have none := rising.unstarted first
      simp only [View.batches,idle,List.append_eq_nil_iff] at none
      simp [View.batches,none.1]
    | ship idle miss producer open_ brk blank room =>
      have seated : ¬Unseated v.l := fun none => by simp [none.producer] at producer
      have some_ := (based.begun idle).resolve_left seated
      obtain ⟨armed,_⟩ := ship_armed sound idle producer open_
      have last := missed_base sound based ticking idle miss producer open_ some_ (paced _ _ _ _ rfl)
      have bases := rising.bases
      rw [current_mem idle some_,List.map_append,List.pairwise_append] at bases
      intro b present
      rw [View.batches] at present
      simp only [List.map_append,List.map_singleton,List.append_nil,current_batch armed] at present
      rcases List.mem_append.mp present with early | now
      · have below := bases.2.2 b.baseTicks (List.mem_map_of_mem early) v.l.hot.baseTicks
          (List.mem_singleton_self _)
        exact UInt64.lt_trans below last
      · rw [List.mem_singleton.mp now]
        exact last
    | armNew stage =>
      simp only [stage] at pending
      simp only [armNew_batches sound stage]
      exact pending
    | armRestored stage => simp [stage,Stage.recording] at recording
    | takeNone stage => simp [stage,Stage.recording] at recording
    | handOver stage => simp [stage,Stage.recording] at recording
    | _ => trivial
  · intro absent
    have none := unseated_before sound moves absent
    have empty := rising.unstarted none.producer
    cases moves_stretch sound moves with
    | same batches => exact batches.trans empty
    | fresh b ticks codeKind pending base entries batches =>
      have standing := sound.standing
      simp only [Standing,pending] at standing
      obtain ⟨o,armed,_⟩ := standing
      exact absurd none armed.seated
    | blank b idle seated empty batches => exact absurd none seated
    | further front b b' e before batches continues entries => simp [before] at empty

end Starting

variable {T : Type} [DecidableEq T]

-- Threads push and stay; the recorder does whatever it does.
def PushesOnly (r : Recorder T) : RecorderAct T → Prop
  | .record (.push t run ticks _ _) =>
    Paced r.world.queue.id run (ownedBy t r.world.ledger.pushed) ticks
  | .exit _ => False
  | _ => True

structure Pushing (tidOf : T → UInt32) (r : Recorder T) : Prop where
  timed : Timed tidOf r
  rising : ∀ t, Rising (r.world.view t)
  staying : ∀ t, (r.world.stage t).gone = false

-- What the dump hands to `replay` of one thread, in at most one stream: a beginning of what
-- the thread has pushed, so nothing twice, with all it had pushed when the dump began.
structure DumpedOnce (tidOf : T → UInt32) (r : Recorder T) (all : List (UInt32 × List Entry)) (t : T) :
    Prop where
  single : (all.filter (·.1 = tidOf t)).length ≤ 1
  inOrder : ∀ s ∈ all, s.1 = tidOf t → s.2 <+: ownedBy t r.world.ledger.pushed
  complete : ownedBy t r.began ≠ [] → ∃ s ∈ all, s.1 = tidOf t ∧ ownedBy t r.began <+: s.2

variable {tidOf : T → UInt32} {r r' : Recorder T} {tails : List (T × EventBatch)} {t : T}

theorem pushesOnly_inTime {act : RecorderAct T} (met : PushesOnly r act) : InTime r act := by
  cases act with
  | record a =>
    cases a with
    | push t run ticks codeId kind => exact met.forward
    | _ => trivial
  | _ => trivial

theorem pushing_step {act : RecorderAct T} (pushing : Pushing tidOf r) (met : PushesOnly r act)
    (stepped : r.step tidOf act = some r') : Pushing tidOf r' := by
  obtain ⟨timed,rising,staying⟩ := pushing
  have kept := timed.kept
  have moves (t : T) := recorder_moves kept.sound stepped t
  have unexited : ∀ t, act ≠ .exit t := by
    rintro t rfl
    exact met
  have stays := stays_step kept.sound stepped staying unexited
  have timed' := timed_step timed (pushesOnly_inTime met) stepped
  refine ⟨timed',?_,stays⟩
  intro t
  rcases moves t with same | ⟨a,moved,_,pushes,_⟩
  · rw [same]
    exact rising t
  · have recording := (kept.unflushed t).resolve_right (by simp [staying t])
    have recording' := (timed'.kept.unflushed t).resolve_right (by simp [stays t])
    apply rising_moves (kept.sound.threads t) (timed.based t) (timed.ticking t) (rising t) moved recording recording'
    intro run ticks codeId kind push
    have own := pushes t run ticks codeId kind push
    rw [own,push] at met
    exact met

theorem initial_pushing (id : Nat) (clock : Clock) (capacityBytes : Nat) :
    Pushing tidOf (Recorder.initial (T := T) id clock capacityBytes) := by
  refine ⟨initial_timed id clock capacityBytes,?_,fun _ => rfl⟩
  intro t
  have unseated : Unseated (Local.fresh : Local T) := ⟨rfl,rfl,rfl,rfl⟩
  have none : ((Recorder.initial id clock capacityBytes).world.view t).batches = [] := by
    simp [View.batches,World.view,World.initial,Recorder.initial,current_empty unseated.window]
  exact ⟨by simp [none],trivial,fun _ => none⟩

theorem hand_fresh (pushing : Pushing tidOf r) (distinct : Function.Injective tidOf)
    (scan : Scan r [] tails) (unevicted : r.ring.batches = r.world.ledger.drained.map (·.2))
    {x b : EventBatch} (read : (t,x) ∈ tails) (continues : Continues x b)
    (batches : (r.world.view t).batches = ownedBy t r.world.ledger.drained ++ [b]) :
    (t,x) ∈ freshOf r.ring.batches tails := by
  have sound := pushing.timed.kept.sound
  refine fresh_mem.mpr ⟨read,?_⟩
  rintro h inHistory ⟨tid,base⟩
  rw [unevicted] at inHistory
  obtain ⟨⟨u,h⟩,drained,rfl⟩ := List.mem_map.mp inHistory
  have same : u = t := by
    apply distinct
    rw [← drained_tid sound _ drained,← tail_tid sound scan _ read]
    exact tid
  subst u
  have bases := (pushing.rising t).bases
  rw [batches,List.map_append,List.pairwise_append] at bases
  have below := bases.2.2 h.baseTicks (List.mem_map_of_mem (mem_ownedBy.mpr drained)) b.baseTicks
    (List.mem_singleton_self _)
  rw [continues.base,← base] at below
  exact UInt64.lt_irrefl _ below

theorem stream_once (pushing : Pushing tidOf r) (distinct : Function.Injective tidOf)
    (scan : Scan r [] tails) (accepted : ∀ s ∈ r.world.ledger.shipped, s.2.1 = true)
    (empty : r.world.queue.held t = []) (unevicted : r.ring.batches = r.world.ledger.drained.map (·.2)) :
    streamOf (tidOf t) (r.ring.batches ++ freshTails r.ring.batches (tails.map (·.2))) <+:
        ownedBy t r.world.ledger.pushed ∧
      ownedBy t r.began <+:
        streamOf (tidOf t) (r.ring.batches ++ freshTails r.ring.batches (tails.map (·.2))) := by
  have kept := pushing.timed.kept
  have all := accepted_drained kept.sound accepted empty
  obtain ⟨hand,batches,one⟩ := batches_hand (r.world.view t)
  have shipped : (r.world.view t).shipped.map (·.2) = ownedBy t r.world.ledger.drained := all
  rw [shipped] at batches
  have pushed := batches_pushed (kept.sound.threads t)
  rw [batches,List.flatMap_append] at pushed
  have own : ownedBy t r.world.ledger.pushed = (r.world.view t).pushed := rfl
  rw [gathered_stream (k := 0) kept.sound scan distinct (by simpa using unevicted),List.drop_zero,own,← pushed]
  rcases fresh_once scan r.ring.batches t with none | ⟨x,present,alone⟩
  · rw [none,List.flatMap_nil,List.append_nil]
    refine ⟨List.prefix_append _ _,?_⟩
    by_cases read : t ∈ tails.map (·.1)
    · obtain ⟨⟨u,x⟩,inside,rfl⟩ := List.mem_map.mp read
      obtain ⟨i,copy,_⟩ := scan.tail u x inside
      rw [batches] at copy
      rcases copy.handed one with ⟨covered,_⟩ | ⟨_,_,b,last,continues⟩
      · exact covered
      · rw [last] at batches
        have kept_ := hand_fresh pushing distinct scan unevicted inside continues batches
        have some_ := mem_ownedBy.mpr kept_
        rw [none] at some_
        cases some_
    · rcases scan.bare t (by simp) read with done | gone
      · rw [handed_flat,all] at done
        exact done
      · rw [pushing.staying t] at gone
        cases gone
  · rw [alone,List.flatMap_singleton]
    obtain ⟨inside,missing⟩ := fresh_mem.mp present
    obtain ⟨i,copy,_⟩ := scan.tail t x inside
    rw [batches] at copy
    rcases copy.handed one with ⟨_,b,drained,continues⟩ | ⟨_,covered,b,last,continues⟩
    · apply absurd ⟨continues.tid,continues.base⟩ (missing b ?_)
      rw [unevicted]
      exact List.mem_map.mpr ⟨(t,b),mem_ownedBy.mp drained,rfl⟩
    · rw [last,List.flatMap_singleton]
      exact ⟨List.prefix_append_right_inj _ |>.mpr continues.entries,covered⟩

def DumpsOnce (tidOf : T → UInt32) (r : Recorder T) : Prop :=
  ∀ goal tails, r.phase = .collected goal tails → (∀ s ∈ r.world.ledger.shipped, s.2.1 = true) →
    r.ring.batches = r.world.ledger.drained.map (·.2) → ∀ t,
      streamOf (tidOf t) (r.ring.batches ++ freshTails r.ring.batches (tails.map (·.2))) <+:
          ownedBy t r.world.ledger.pushed ∧
        ownedBy t r.began <+:
          streamOf (tidOf t) (r.ring.batches ++ freshTails r.ring.batches (tails.map (·.2)))

theorem dumpsOnce_step {act : RecorderAct T} (distinct : Function.Injective tidOf)
    (pushing : Pushing tidOf r) (once : DumpsOnce tidOf r) (stepped : r.step tidOf act = some r') :
    DumpsOnce tidOf r' := by
  have kept := pushing.timed.kept
  intro goal tails collected accepted unevicted t
  rcases reaches_collected stepped collected with
    ⟨before,a,w',moved,rfl,_,undrained,_⟩ | ⟨rfl,phase,nothing,moved,drained,shape⟩
  · have same := (step_rest kept.sound moved).drained undrained
    simp only [Recorder.withWorld,same] at unevicted
    obtain ⟨inOrder,complete⟩ := once goal tails before (step_accepted kept.sound moved accepted) unevicted t
    exact ⟨inOrder.trans (moves_pushed (step_moves kept.sound moved t)),complete⟩
  · have scan := kept.scan [] tails (by rw [phase]; rfl)
    have ring : r'.ring = r.ring := by rw [shape]
    have began : r'.began = r.began := by rw [shape]
    rw [ring,drained] at unevicted
    obtain ⟨inOrder,complete⟩ := stream_once pushing distinct scan (step_accepted kept.sound moved accepted)
      (drain_none nothing t) unevicted
    rw [ring,began]
    exact ⟨inOrder.trans (moves_pushed (step_moves kept.sound moved t)),complete⟩

theorem dumped_once (tidOf : T → UInt32) (distinct : Function.Injective tidOf) (id : Nat) (clock : Clock)
    (capacityBytes : Nat) {acts : List (RecorderAct T)} {r : Recorder T} {goal : Goal}
    {tails : List (T × EventBatch)}
    (run : Machine.Runs (Recorder.step tidOf) PushesOnly (.initial id clock capacityBytes) acts r)
    (accepted : ∀ s ∈ r.world.ledger.shipped, s.2.1 = true)
    (unevicted : r.ring.batches = r.world.ledger.drained.map (·.2))
    (collected : r.phase = .collected goal tails) (t : T) :
    DumpedOnce tidOf r (streams (r.ring.batches ++ freshTails r.ring.batches (tails.map (·.2)))) t := by
  obtain ⟨_,once⟩ := run.invariant (I := fun r => Pushing tidOf r ∧ DumpsOnce tidOf r)
    ⟨initial_pushing id clock capacityBytes,by simp [DumpsOnce,Recorder.initial]⟩
    fun m act m' inv met stepped =>
      ⟨pushing_step inv.1 met stepped,dumpsOnce_step distinct inv.1 inv.2 stepped⟩
  obtain ⟨inOrder,complete⟩ := once goal tails collected accepted unevicted t
  refine ⟨?_,?_,?_⟩
  · rcases streams_filter (r.ring.batches ++ freshTails r.ring.batches (tails.map (·.2))) (tidOf t) with
      one | ⟨none,_⟩
    · rw [one]
      exact Nat.le_refl 1
    · rw [none]
      exact Nat.zero_le 1
  · rintro ⟨tid,stream⟩ present rfl
    obtain ⟨_,rfl⟩ := streams_mem.mp present
    exact inOrder
  · intro some_
    refine ⟨_,streams_of ?_,rfl,complete⟩
    intro blank
    rw [blank] at complete
    exact some_ (List.prefix_nil.mp complete)

def testsPushesOnly (r : Recorder Unit) : RecorderAct Unit → Bool
  | .record (.push t run ticks _ _) =>
    run == r.world.queue.id && (ownedBy t r.world.ledger.pushed).all (fun e => decide (e.1 ≤ ticks)) &&
      decide (((ownedBy t r.world.ledger.pushed).filter (·.1 = ticks)).length + 1 < batchN)
  | .exit _ => false
  | _ => true

theorem testsPushesOnly_meets (r : Recorder Unit) (act : RecorderAct Unit)
    (checked : testsPushesOnly r act = true) : PushesOnly r act := by
  cases act with
  | record a =>
    cases a with
    | push t run ticks codeId kind =>
      simp only [testsPushesOnly,Bool.and_eq_true,beq_iff_eq,List.all_eq_true,decide_eq_true_eq] at checked
      exact ⟨checked.1.1,checked.1.2,checked.2⟩
    | _ => trivial
  | exit t => cases checked
  | _ => trivial

-- One event in the batch the tail was read from, which is shipped and absorbed whole before
-- the dump assembles, and one pushed since.
theorem dumped_once_shipped : ∃ (r : Recorder Unit) (tails : List (Unit × EventBatch)),
    r.phase = .collected (.dump 0 200) tails ∧ tails.length = 1 ∧ r.ring.batches.length = 1 ∧
      (ownedBy () r.world.ledger.pushed).length = 2 ∧
      DumpedOnce (fun _ => 1) r (streams (r.ring.batches ++ freshTails r.ring.batches (tails.map (·.2)))) () := by
  have ran : (Machine.checkedRun (Recorder.step fun _ => 1) testsPushesOnly (.initial 1 .mock 1000000)
      [.record (.push () 1 100 7 .Begin),.record (.arm ()),.record (.write ()),.dump 0 200,.absorb,.lock,
        .readTail,.unlock,.record (.push () 1 8589934592 7 .End),.record (.arm ()),.record (.write ()),
        .absorb,.absorb]).map (fun r => (r.phase,r.ring.batches.length,r.world.ledger.pushed.length,
          r.world.ledger.shipped.all (·.2.1),decide (r.ring.batches = r.world.ledger.drained.map (·.2)))) =
      some (.collected (.dump 0 200) [((),⟨100,1,[⟨0,packCodeKind 7 .Begin⟩],1⟩)],1,2,true,true) := by
    decide +kernel
  obtain ⟨r,run,facts⟩ := Option.map_eq_some_iff.mp ran
  simp only [Prod.mk.injEq,decide_eq_true_eq] at facts
  obtain ⟨phase,ring,pushed,accepted,unevicted⟩ := facts
  refine ⟨r,_,phase,rfl,ring,?_,?_⟩
  · have all : ownedBy () r.world.ledger.pushed = r.world.ledger.pushed.map (·.2) := by simp [Keyed.ownedBy]
    rw [all,List.length_map,pushed]
  · exact dumped_once (fun _ => 1) (fun _ _ _ => rfl) 1 .mock 1000000
      (Machine.runs_of_checked testsPushesOnly_meets run) (by simpa using accepted) unevicted phase ()

end Trace0
