import Trace0.Lib.Machine
import Trace0.Scanning
import Mathlib.Data.List.Flatten

namespace Trace0

section Gathering

variable {T : Type} [DecidableEq T]

-- The ticks of a push are not behind those of the thread's earlier ones.
def InTime (r : Recorder T) : RecorderAct T → Prop
  | .record (.push t _ ticks _ _) => ∀ e ∈ ownedBy t r.world.ledger.pushed, e.1 ≤ ticks
  | _ => True

structure Timed (tidOf : T → UInt32) (r : Recorder T) : Prop where
  kept : Kept tidOf r
  ticking : ∀ t, Ticking (r.world.view t)
  based : ∀ t, Based (r.world.view t)

variable {tidOf : T → UInt32} {r r' : Recorder T} {t : T}

theorem timed_step {act : RecorderAct T} (timed : Timed tidOf r) (met : InTime r act)
    (stepped : r.step tidOf act = some r') : Timed tidOf r' := by
  obtain ⟨kept,ticking,based⟩ := timed
  have moves (t : T) := recorder_moves kept.sound stepped t
  refine ⟨kept_step kept stepped,?_,?_⟩
  · intro t
    rcases moves t with same | ⟨a,moved,_,pushes,_⟩
    · rw [same]
      exact ticking t
    · apply ticking_moves (ticking t) moved
      intro run ticks codeId kind push
      have own := pushes t run ticks codeId kind push
      rw [own,push] at met
      exact met
  · intro t
    rcases moves t with same | ⟨a,moved,_⟩
    · rw [same]
      exact based t
    · exact based_moves (kept.sound.threads t) (based t) moved (kept.unflushed t)

theorem initial_timed (id : Nat) (clock : Clock) (capacityBytes : Nat) :
    Timed tidOf (Recorder.initial (T := T) id clock capacityBytes) := by
  refine ⟨initial_kept id clock capacityBytes,?_,?_⟩
  · exact fun _ => ⟨List.Pairwise.nil,trivial⟩
  · intro t
    have unseated : Unseated (Local.fresh : Local T) := ⟨rfl,rfl,rfl,rfl⟩
    refine ⟨?_,fun _ => .inl unseated⟩
    simp [View.batches,World.view,World.initial,Recorder.initial,current_empty unseated.window]

section Batches

theorem drained_tid (sound : Sound tidOf r.world) : ∀ x ∈ r.world.ledger.drained, x.2.tid = tidOf x.1 := by
  rintro ⟨t,b⟩ present
  exact batches_tid (sound.threads t) b (drained_batches sound t b (mem_ownedBy.mpr present))

theorem tail_tid {todo : List T} {tails : List (T × EventBatch)} (sound : Sound tidOf r.world)
    (scan : Scan r todo tails) : ∀ x ∈ tails, x.2.tid = tidOf x.1 := by
  rintro ⟨t,x⟩ present
  obtain ⟨i,copy,_⟩ := scan.tail t x present
  obtain ⟨b,here,continues⟩ := copy.batch
  rw [← continues.tid]
  exact batches_tid (sound.threads t) b (List.mem_of_getElem? here)

theorem streamOf_owned {items : List (T × EventBatch)} (distinct : Function.Injective tidOf)
    (own : ∀ x ∈ items, x.2.tid = tidOf x.1) (t : T) :
    streamOf (tidOf t) (items.map (·.2)) = (ownedBy t items).flatMap (·.entries) := by
  have same : items.filter (fun x => x.2.tid = tidOf t) = items.filter (fun x => x.1 = t) := by
    apply List.filter_congr
    intro x present
    rw [own x present,decide_eq_decide]
    exact distinct.eq_iff
  rw [streamOf,List.filter_map]
  exact congrArg (fun l : List (T × EventBatch) => (l.map (·.2)).flatMap (·.entries)) same

theorem history_drop (kept : Kept tidOf r) :
    ∃ k, k ≤ r.world.ledger.drained.length ∧ r.ring.batches = (r.world.ledger.drained.drop k).map (·.2) := by
  obtain ⟨evicted,split⟩ := kept.history
  have length := congrArg List.length split
  rw [List.length_map,List.length_append] at length
  refine ⟨evicted.length,by omega,?_⟩
  rw [List.map_drop,split,List.drop_left]

def freshOf (history : List EventBatch) (tails : List (T × EventBatch)) : List (T × EventBatch) :=
  tails.filter fun x => !history.any fun h => h.tid = x.2.tid && h.baseTicks = x.2.baseTicks

omit [DecidableEq T] in
theorem fresh_tails (history : List EventBatch) (tails : List (T × EventBatch)) :
    freshTails history (tails.map (·.2)) = (freshOf history tails).map (·.2) := by
  rw [freshTails,List.filter_map]
  rfl

theorem history_sublist (sound : Sound tidOf r.world) (k : Nat) (t : T) :
    (ownedBy t (r.world.ledger.drained.drop k)).Sublist (r.world.view t).batches := by
  have drained : (ownedBy t r.world.ledger.drained).Sublist (acceptedOf (ownedBy t r.world.ledger.shipped)) := by
    have kept : acceptedOf (ownedBy t r.world.ledger.shipped) =
        ownedBy t r.world.ledger.drained ++ r.world.queue.held t := (sound.threads t).kept
    rw [kept]
    exact List.sublist_append_left _ _
  have shipped : (acceptedOf (ownedBy t r.world.ledger.shipped)).Sublist
      ((ownedBy t r.world.ledger.shipped).map (·.2)) := List.filter_sublist.map _
  exact ((ownedBy_sublist (List.drop_sublist k _) t).trans drained).trans
    (shipped.trans (List.sublist_append_left _ _))

omit [DecidableEq T] in
theorem fresh_mem {history : List EventBatch} {tails : List (T × EventBatch)} {x : T × EventBatch} :
    x ∈ freshOf history tails ↔
      x ∈ tails ∧ ∀ h ∈ history, ¬(h.tid = x.2.tid ∧ h.baseTicks = x.2.baseTicks) := by
  simp [freshOf]

theorem gathered_stream {tails : List (T × EventBatch)} (sound : Sound tidOf r.world)
    (scan : Scan r todo tails) (distinct : Function.Injective tidOf)
    (history : r.ring.batches = (r.world.ledger.drained.drop k).map (·.2)) (t : T) :
    streamOf (tidOf t) (r.ring.batches ++ freshTails r.ring.batches (tails.map (·.2))) =
      (ownedBy t (r.world.ledger.drained.drop k)).flatMap (·.entries) ++
        (ownedBy t (freshOf r.ring.batches tails)).flatMap (·.entries) := by
  rw [streamOf_append,fresh_tails]
  congr 1
  · rw [history]
    apply streamOf_owned distinct
    exact fun x present => drained_tid sound x (List.mem_of_mem_drop present)
  · apply streamOf_owned distinct
    exact fun x present => tail_tid sound scan x (fresh_mem.mp present).1

theorem fresh_once {tails : List (T × EventBatch)} (scan : Scan r todo tails)
    (history : List EventBatch) (t : T) :
    ownedBy t (freshOf history tails) = [] ∨
      ∃ x, (t,x) ∈ freshOf history tails ∧ ownedBy t (freshOf history tails) = [x] := by
  have once : ((freshOf history tails).map (·.1)).Nodup :=
    (List.nodup_append.mp scan.distinct).1.sublist (List.filter_sublist.map _)
  by_cases read : t ∈ (freshOf history tails).map (·.1)
  · obtain ⟨⟨u,x⟩,present,rfl⟩ := List.mem_map.mp read
    exact .inr ⟨x,present,ownedBy_once once present⟩
  · exact .inl (ownedBy_absent read)

end Batches

end Gathering

variable {T : Type} [DecidableEq T]

def Recorder.broughtIn (r : Recorder T) : List EventBatch :=
  r.ring.batches.drop (r.ring.batches.length - (r.world.ledger.drained.length - r.seen))

-- A tail whose batch is not in the history, evicted or refused by a full ring, has not been
-- overtaken: whatever came in of its thread since ends where the tail begins, or before.
def Unovertaken (r : Recorder T) (tails : List EventBatch) : Prop :=
  ∀ x ∈ tails, (∀ h ∈ r.ring.batches, ¬(h.tid = x.tid ∧ h.baseTicks = x.baseTicks)) →
    ∀ h ∈ r.broughtIn, h.tid = x.tid → h.endTicks ≤ x.baseTicks

variable {tidOf : T → UInt32} {r : Recorder T} {t : T} {k : Nat}

omit [DecidableEq T] in
theorem broughtIn_drop (marked : r.seen ≤ r.world.ledger.drained.length)
    (inside : k ≤ r.world.ledger.drained.length)
    (history : r.ring.batches = (r.world.ledger.drained.drop k).map (·.2)) :
    r.broughtIn = (r.world.ledger.drained.drop (max k r.seen)).map (·.2) := by
  have length := congrArg List.length history
  rw [List.length_map,List.length_drop] at length
  have count : k + (r.ring.batches.length - (r.world.ledger.drained.length - r.seen)) = max k r.seen := by
    omega
  rw [Recorder.broughtIn,history,← List.map_drop,List.drop_drop,← count,history]

theorem held_early (marked : r.seen ≤ r.world.ledger.drained.length)
    (inside : k ≤ r.world.ledger.drained.length)
    (history : r.ring.batches = (r.world.ledger.drained.drop k).map (·.2)) {h : EventBatch}
    (held : h ∈ ownedBy t (r.world.ledger.drained.drop k)) :
    h ∈ r.broughtIn ∨ h ∈ ownedBy t (r.world.ledger.drained.take r.seen) := by
  rw [broughtIn_drop marked inside history]
  rw [mem_ownedBy] at held ⊢
  obtain ⟨i,there⟩ := List.mem_iff_getElem?.mp held
  rw [List.getElem?_drop] at there
  by_cases late : r.seen ≤ k+i
  · refine .inl (List.mem_map.mpr ⟨(t,h),List.mem_iff_getElem?.mpr ⟨k+i - max k r.seen,?_⟩,rfl⟩)
    rw [List.getElem?_drop]
    have place : max k r.seen + (k+i - max k r.seen) = k+i := by omega
    rw [place]
    exact there
  · refine .inr (List.mem_iff_getElem?.mpr ⟨k+i,?_⟩)
    rw [List.getElem?_take_of_lt (by omega)]
    exact there

theorem ends_last {b : EventBatch} {e : UInt64 × UInt32} (sorted : b.entries.Pairwise (·.1 ≤ ·.1))
    (present : e ∈ b.entries) : e.1 ≤ b.endTicks := by
  obtain ⟨last,here⟩ : ∃ last, b.entries.getLast? = some last :=
    ⟨_,List.getLast?_eq_some_getLast (List.ne_nil_of_mem present)⟩
  obtain ⟨front,split⟩ := List.getLast?_eq_some_iff.mp here
  rw [b.endTicks_last last here]
  rw [split] at sorted present
  rcases List.mem_append.mp present with early | final
  · exact (List.pairwise_append.mp sorted).2.2 e early last (List.mem_singleton_self _)
  · rw [List.mem_singleton.mp final]
    exact UInt64.le_refl _

variable {tails : List (T × EventBatch)}

theorem pushed_sorted (timed : Timed tidOf r) (t : T) :
    ((r.world.view t).batches.flatMap (·.entries)).Pairwise (·.1 ≤ ·.1) := by
  rw [batches_pushed (timed.kept.sound.threads t)]
  exact (timed.ticking t).pushed

theorem thread_sorted (timed : Timed tidOf r) (scan : Scan r [] tails)
    (inside : k ≤ r.world.ledger.drained.length)
    (history : r.ring.batches = (r.world.ledger.drained.drop k).map (·.2))
    (met : Unovertaken r (tails.map (·.2))) (t : T) :
    ((ownedBy t (r.world.ledger.drained.drop k)).flatMap (·.entries) ++
      (ownedBy t (freshOf r.ring.batches tails)).flatMap (·.entries)).Pairwise (·.1 ≤ ·.1) := by
  have all := pushed_sorted timed t
  have part := history_sublist timed.kept.sound k t
  have held := all.sublist (part.flatMap (·.entries))
  rcases fresh_once scan r.ring.batches t with none | ⟨x,present,one⟩
  · rw [none,List.flatMap_nil,List.append_nil]
    exact held
  · rw [one,List.flatMap_singleton]
    obtain ⟨read,missing⟩ := fresh_mem.mp present
    obtain ⟨i,copy,early⟩ := scan.tail t x read
    obtain ⟨d,rest,entries,base⟩ := copy.first (timed.based t)
    have upTo := all.sublist copy.stands.sublist
    obtain ⟨_,tail,cross⟩ := List.pairwise_append.mp upTo
    refine List.pairwise_append.mpr ⟨held,tail,?_⟩
    intro e before f after
    obtain ⟨h,mine,here⟩ := List.mem_flatMap.mp before
    have inHistory : h ∈ r.ring.batches := by
      rw [history]
      exact List.mem_map.mpr ⟨(t,h),mem_ownedBy.mp mine,rfl⟩
    rcases held_early scan.marked inside history mine with late | drained
    · have own : h.tid = x.tid := by
        have first := drained_tid timed.kept.sound (t,h) (List.mem_of_mem_drop (mem_ownedBy.mp mine))
        exact first.trans (tail_tid timed.kept.sound scan (t,x) read).symm
      have ends : e.1 ≤ h.endTicks := by
        have alone := (List.pairwise_flatMap.mp held).1 h mine
        exact ends_last alone here
      have between : h.endTicks ≤ x.baseTicks :=
        met x (List.mem_map_of_mem read) missing h late own
      have starts : x.baseTicks ≤ f.1 := by
        rw [entries] at after tail
        rcases List.mem_cons.mp after with rfl | later
        · rw [base]
          exact UInt64.le_refl _
        · rw [← base]
          exact (List.pairwise_cons.mp tail).1 f later
      exact UInt64.le_trans ends (UInt64.le_trans between starts)
    · rcases early h drained with first | same
      · exact cross e (List.mem_flatMap.mpr ⟨h,first,here⟩) f after
      · exact absurd same (missing h inHistory)

theorem overtaken_unsorted (timed : Timed tidOf r) (scan : Scan r [] tails)
    (sorted : ∀ tid, (streamOf tid (r.ring.batches ++ freshTails r.ring.batches (tails.map (·.2)))).Pairwise
      (·.1 ≤ ·.1)) : Unovertaken r (tails.map (·.2)) := by
  intro x read missing h late own
  obtain ⟨⟨t,x⟩,here,rfl⟩ := List.mem_map.mp read
  have both := sorted x.tid
  rw [streamOf_append,List.pairwise_append] at both
  have held : h ∈ r.ring.batches := List.mem_of_mem_drop late
  have kept : x ∈ freshTails r.ring.batches (tails.map (·.2)) := by
    rw [fresh_tails]
    exact List.mem_map.mpr ⟨(t,x),fresh_mem.mpr ⟨here,missing⟩,rfl⟩
  obtain ⟨i,copy,_⟩ := scan.tail t x here
  obtain ⟨d,rest,entries,base⟩ := copy.first (timed.based t)
  obtain ⟨last,final⟩ : ∃ last, h.entries.getLast? = some last := by
    obtain ⟨k,_,history⟩ := history_drop timed.kept
    rw [history] at held
    obtain ⟨⟨u,h⟩,drained,rfl⟩ := List.mem_map.mp held
    have begun := drained_batches timed.kept.sound u h (mem_ownedBy.mpr (List.mem_of_mem_drop drained))
    obtain ⟨e,rest,entries,_⟩ := (timed.based u).first h begun
    exact ⟨_,List.getLast?_eq_some_getLast (by simp [entries])⟩
  rw [h.endTicks_last last final,← base]
  apply both.2.2 last ?_ d ?_
  · refine List.mem_flatMap.mpr ⟨h,List.mem_filter.mpr ⟨held,by simpa using own⟩,?_⟩
    exact List.mem_of_getLast? final
  · refine List.mem_flatMap.mpr ⟨x,List.mem_filter.mpr ⟨kept,by simp⟩,?_⟩
    rw [entries]
    exact List.mem_cons_self

theorem streams_sorted (timed : Timed tidOf r) (scan : Scan r [] tails)
    (distinct : Function.Injective tidOf) (met : Unovertaken r (tails.map (·.2))) :
    ∀ s ∈ streams (r.ring.batches ++ freshTails r.ring.batches (tails.map (·.2))),
      s.2.Pairwise (·.1 ≤ ·.1) := by
  obtain ⟨k,inside,history⟩ := history_drop timed.kept
  have sound := timed.kept.sound
  rintro ⟨tid,stream⟩ present
  obtain ⟨⟨b,here,own⟩,rfl⟩ := streams_mem.mp present
  obtain ⟨t,rfl⟩ : ∃ t, tidOf t = tid := by
    rw [fresh_tails,history] at here
    rcases List.mem_append.mp here with held | kept
    · obtain ⟨x,drained,rfl⟩ := List.mem_map.mp held
      exact ⟨x.1,(drained_tid sound x (List.mem_of_mem_drop drained)).symm.trans own⟩
    · obtain ⟨x,read,rfl⟩ := List.mem_map.mp kept
      exact ⟨x.1,(tail_tid sound scan x (fresh_mem.mp read).1).symm.trans own⟩
  rw [gathered_stream sound scan distinct history t]
  exact thread_sorted timed scan inside history met t

theorem streams_in_order (tidOf : T → UInt32) (distinct : Function.Injective tidOf) (id : Nat)
    (clock : Clock) (capacityBytes : Nat) {acts : List (RecorderAct T)} {r : Recorder T} {goal : Goal}
    {tails : List (T × EventBatch)}
    (run : Machine.Runs (Recorder.step tidOf) InTime (.initial id clock capacityBytes) acts r)
    (collected : r.phase = .collected goal tails) :
    (∀ s ∈ streams (r.ring.batches ++ freshTails r.ring.batches (tails.map (·.2))),
      s.2.Pairwise (·.1 ≤ ·.1)) ↔ Unovertaken r (tails.map (·.2)) := by
  have timed : Timed tidOf r := run.invariant (initial_timed id clock capacityBytes)
    fun m act m' timed met stepped => timed_step timed met stepped
  have scan := timed.kept.scan [] tails (by rw [collected]; rfl)
  constructor
  · intro sorted
    apply overtaken_unsorted timed scan
    intro tid
    by_cases none : streamOf tid (r.ring.batches ++ freshTails r.ring.batches (tails.map (·.2))) = []
    · rw [none]
      exact List.Pairwise.nil
    · exact sorted _ (streams_of none)
  · exact streams_sorted timed scan distinct

def testsInTime (r : Recorder Unit) : RecorderAct Unit → Bool
  | .record (.push t _ ticks _ _) => (ownedBy t r.world.ledger.pushed).all fun e => decide (e.1 ≤ ticks)
  | _ => true

theorem testsInTime_meets (r : Recorder Unit) (act : RecorderAct Unit) (checked : testsInTime r act = true) :
    InTime r act := by
  cases act with
  | record a =>
    cases a with
    | push t run ticks codeId kind => simpa [testsInTime,InTime] using checked
    | _ => trivial
  | _ => trivial

def pushAt (ticks : UInt64) : List (RecorderAct Unit) :=
  [.record (.push () 1 ticks 7 .Begin),.record (.arm ()),.record (.write ())]

-- A fresh tail of two events behind a batch of history.
theorem streams_in_order_once : ∃ (r : Recorder Unit) (tails : List (Unit × EventBatch)),
    r.phase = .collected (.dump 0 8589934700) tails ∧ r.ring.batches.length = 1 ∧
      (freshTails r.ring.batches (tails.map (·.2))).map (·.events.length) = [2] ∧
      ∀ s ∈ streams (r.ring.batches ++ freshTails r.ring.batches (tails.map (·.2))),
        s.2.Pairwise (·.1 ≤ ·.1) := by
  have ran : (Machine.checkedRun (Recorder.step fun _ => 1) testsInTime (.initial 1 .mock 1000000)
      (pushAt 100 ++ pushAt 8589934592 ++ [.record (.push () 1 8589934600 8 .Begin),.dump 0 8589934700,.absorb,
        .absorb,.lock,.readTail,.unlock,.absorb])).map (fun r => (r.phase,r.ring.batches,r.broughtIn)) =
      some (.collected (.dump 0 8589934700)
        [((),⟨8589934592,1,[⟨0,packCodeKind 7 .Begin⟩,⟨8,packCodeKind 8 .Begin⟩],2⟩)],
        [⟨100,1,[⟨0,packCodeKind 7 .Begin⟩],1024⟩],[]) := by
    decide +kernel
  obtain ⟨r,run,facts⟩ := Option.map_eq_some_iff.mp ran
  simp only [Prod.mk.injEq] at facts
  obtain ⟨phase,ring,none⟩ := facts
  refine ⟨r,_,phase,by rw [ring]; rfl,by rw [ring]; decide,?_⟩
  apply (streams_in_order (fun _ => 1) (fun _ _ _ => rfl) 1 .mock 1000000
    (Machine.runs_of_checked testsInTime_meets run) phase).mpr
  intro x read missing h late
  rw [none] at late
  cases late

-- The history holds one batch. The tail's own batch comes in after the tail was read and is
-- evicted for the next one, which then stands in front of the tail.
theorem evicted_tail_is_overtaken : ∃ (r : Recorder Unit) (tails : List (Unit × EventBatch)),
    Machine.Runs (Recorder.step fun _ => 1) InTime (.initial 1 .mock 8232)
      (pushAt 100 ++ [.dump 0 200,.absorb,.lock,.readTail,.unlock] ++ pushAt 8589934592 ++
        pushAt 17179869184 ++ [.absorb,.absorb]) r ∧
      r.phase = .collected (.dump 0 200) tails ∧
      ¬∀ s ∈ streams (r.ring.batches ++ freshTails r.ring.batches (tails.map (·.2))),
        s.2.Pairwise (·.1 ≤ ·.1) := by
  have ran : (Machine.checkedRun (Recorder.step fun _ => 1) testsInTime (.initial 1 .mock 8232)
      (pushAt 100 ++ [.dump 0 200,.absorb,.lock,.readTail,.unlock] ++ pushAt 8589934592 ++
        pushAt 17179869184 ++ [.absorb,.absorb])).map (fun r => (r.phase,r.ring.batches)) =
      some (.collected (.dump 0 200) [((),⟨100,1,[⟨0,packCodeKind 7 .Begin⟩],1⟩)],
        [⟨8589934592,1,[⟨0,packCodeKind 7 .Begin⟩],1024⟩]) := by
    decide +kernel
  obtain ⟨r,run,facts⟩ := Option.map_eq_some_iff.mp ran
  obtain ⟨phase,ring⟩ := Prod.mk.inj facts
  refine ⟨r,_,Machine.runs_of_checked testsInTime_meets run,phase,?_⟩
  rw [ring]
  decide +kernel

end Trace0
