import Trace0.Bystanders
import Trace0.Lib.Growing

namespace Trace0
open Growing

variable {T : Type}

def Local.current (l : Local T) : List EventBatch :=
  if l.window = [] then [] else [⟨l.hot.baseTicks,l.hot.tid,l.window,batchN⟩]

def View.batches (v : View T) : List EventBatch :=
  v.shipped.map (·.2) ++
    match v.stage with
    | .renewed _ _ => []
    | .taken _ full | .rearmed _ full => [full]
    | _ => v.l.current

theorem batches_hand (v : View T) :
    ∃ hand, v.batches = v.shipped.map (·.2) ++ hand ∧ hand.length ≤ 1 := by
  refine ⟨_,rfl,?_⟩
  split
  · exact Nat.zero_le _
  · exact Nat.le_refl _
  · exact Nat.le_refl _
  · unfold Local.current
    split <;> simp

structure Continues (a b : EventBatch) : Prop where
  base : b.baseTicks = a.baseTicks
  tid : b.tid = a.tid
  events : a.events <+: b.events

theorem Continues.refl (a : EventBatch) : Continues a a := ⟨rfl,rfl,List.prefix_rfl⟩

theorem Continues.copy (base : UInt64) (tid : UInt32) (events : List PackedEvent) (n m : Nat) :
    Continues ⟨base,tid,events,n⟩ ⟨base,tid,events,m⟩ := ⟨rfl,rfl,List.prefix_rfl⟩

theorem Continues.trans (a b c : EventBatch) (left : Continues a b) (right : Continues b c) :
    Continues a c :=
  ⟨right.base.trans left.base,right.tid.trans left.tid,left.events.trans right.events⟩

theorem Continues.entries {a b : EventBatch} (continues : Continues a b) : a.entries <+: b.entries := by
  rw [entries_eq,entries_eq,continues.base]
  exact continues.events.map _

abbrev Grown (before after : List EventBatch) : Prop := Grows Continues before after

theorem current_empty {l : Local T} (empty : l.window = []) : l.current = [] := if_pos empty

theorem current_some {l : Local T} (some_ : l.window ≠ []) :
    l.current = [⟨l.hot.baseTicks,l.hot.tid,l.window,batchN⟩] := if_neg some_

theorem current_batch {l : Local T} {o : OpenBatch} (armed : Armed l o) :
    ({o.batch with events := l.window} : EventBatch) =
      ⟨l.hot.baseTicks,l.hot.tid,l.window,batchN⟩ := by
  rw [armed.base,armed.tid,← armed.room]

theorem committed_batch {l : Local T} {o : OpenBatch} (armed : Armed l o)
    (events : o.batch.events = l.window) :
    o.batch = ⟨l.hot.baseTicks,l.hot.tid,l.window,batchN⟩ := by
  rw [← current_batch armed,← events]

theorem current_entries (l : Local T) : l.current.flatMap (·.entries) = l.written := by
  unfold Local.current
  split
  · rename_i empty
    simp [Local.written,empty]
  · simp [entries_eq,Local.written]

theorem batches_pushed {v : View T} (sound : ThreadSound qid t tid v) :
    v.batches.flatMap (·.entries) = v.pushed := by
  have hand : (match v.stage with
      | .renewed _ _ => []
      | .taken _ full | .rearmed _ full => [full]
      | _ => v.l.current : List EventBatch).flatMap (·.entries) = v.inHand := by
    cases stage : v.stage <;> simp [View.inHand,stage,current_entries]
  rw [← sound.told,View.batches,List.flatMap_append,List.flatMap_map,hand]
  rfl

theorem current_tid {l : Local T} {o : OpenBatch} (armed : Armed l o) : ∀ b ∈ l.current, b.tid = o.batch.tid := by
  intro b present
  unfold Local.current at present
  split at present
  · cases present
  · rw [List.mem_singleton.mp present]
    exact armed.tid

theorem batches_tid {v : View T} (sound : ThreadSound qid t tid v) : ∀ b ∈ v.batches, b.tid = tid := by
  have standing := sound.standing
  intro b present
  rcases List.mem_append.mp present with shipped | hand
  · obtain ⟨s,inside,rfl⟩ := List.mem_map.mp shipped
    exact (sound.shape s inside).1
  · cases stage : v.stage with
    | renewed ticks codeKind => simp [stage] at hand
    | taken leaving full =>
      simp only [Standing,stage] at standing
      simp only [stage,List.mem_singleton] at hand
      exact hand ▸ standing.1
    | rearmed leaving full =>
      simp only [Standing,stage] at standing
      simp only [stage,List.mem_singleton] at hand
      exact hand ▸ standing.1
    | exited =>
      simp only [Standing,stage] at standing
      simp [stage,current_empty standing] at hand
    | restored leaving =>
      simp only [Standing,stage] at standing
      obtain ⟨o,_,_,empty⟩ := standing
      simp [stage,current_empty empty] at hand
    | armed ticks codeKind =>
      simp only [Standing,stage] at standing
      obtain ⟨o,_,_,_,empty⟩ := standing
      simp [stage,current_empty empty] at hand
    | committed leaving =>
      simp only [Standing,stage] at standing
      simp only [stage] at hand
      rcases standing with none | ⟨o,armed,own,_⟩
      · simp [current_empty none.window] at hand
      · exact (current_tid armed b hand).trans own
    | _ =>
      simp only [Standing,stage] at standing
      simp only [stage] at hand
      rcases standing with none | ⟨o,armed,own⟩
      · simp [current_empty none.window] at hand
      · exact (current_tid armed b hand).trans own

section Writing

variable {l l' : Local T} {o : OpenBatch} {event : PackedEvent}

theorem current_write (armed : Armed l o) (room : l.hot.cursor < o.start + batchN)
    (wrote : EventQueue.writeSlot l event = some l') :
    l'.current = [⟨l.hot.baseTicks,l.hot.tid,l.window ++ [event],batchN⟩] := by
  obtain ⟨_,window⟩ := writeSlot_points armed.toPoints room wrote
  have changed := writeSlot_some wrote
  have base : l'.hot.baseTicks = l.hot.baseTicks := by rw [changed]
  have tid : l'.hot.tid = l.hot.tid := by rw [changed]
  have some_ : l'.window ≠ [] := by simp [window]
  rw [current_some some_,window,base,tid]

end Writing

-- How a step can change the list: not at all, by one batch behind it, or by one event in its
-- last batch. A batch begun by the thread's own push starts at that push's ticks; only after
-- a flush can one be begun before it has an event, or go on under an earlier base.
inductive Stretch (v v' : View T) : Prop where
  | same (batches : v'.batches = v.batches)
  | fresh (b : EventBatch) (ticks : UInt64) (codeKind : UInt32) (pending : v.stage = .armed ticks codeKind)
      (base : b.baseTicks = ticks) (entries : b.entries = [(ticks,codeKind)])
      (batches : v'.batches = v.batches ++ [b])
  | blank (b : EventBatch) (idle : v.stage = .idle) (seated : ¬Unseated v.l) (empty : v.l.window = [])
      (batches : v'.batches = v.batches ++ [b])
  | further (front : List EventBatch) (b b' : EventBatch) (e : UInt64 × UInt32)
      (before : v.batches = front ++ [b]) (batches : v'.batches = front ++ [b'])
      (continues : Continues b b') (entries : b'.entries = b.entries ++ [e])

theorem batches_done {v : View T} (leaving : Bool) (stage : v.stage = .done leaving) :
    v.batches = v.shipped.map (·.2) ++ v.l.current := by
  cases leaving <;> simp [View.batches,stage,Stage.done]

theorem fast_stretch {v v' : View T} (sound : ThreadSound qid t tid v) (idle : v.stage = .idle)
    (hit : EventQueue.fastPath v.l run ticks = true)
    (wrote : EventQueue.writeSlot v.l event = some v'.l) (after : v'.stage = .idle)
    (shipped : v'.shipped = v.shipped) : Stretch v v' := by
  obtain ⟨o,armed,_,room⟩ := fast_armed sound idle hit
  have seated : ¬Unseated v.l := armed.seated
  have current := current_write armed room wrote
  have batches : v'.batches = v.shipped.map (·.2) ++ v'.l.current := by
    simp [View.batches,after,shipped]
  by_cases empty : v.l.window = []
  · refine .blank ⟨v.l.hot.baseTicks,v.l.hot.tid,v.l.window ++ [event],batchN⟩ idle seated empty ?_
    rw [batches,current]
    simp [View.batches,idle,current_empty empty]
  · refine .further (v.shipped.map (·.2)) ⟨v.l.hot.baseTicks,v.l.hot.tid,v.l.window,batchN⟩
      ⟨v.l.hot.baseTicks,v.l.hot.tid,v.l.window ++ [event],batchN⟩ (entryAt v.l.hot.baseTicks event) ?_
      (batches.trans (by rw [current])) ⟨rfl,rfl,by simp⟩ ?_
    · simp [View.batches,idle,current_some empty]
    · simp [entries_eq]

theorem ship_stretch {v v' : View T} (sound : ThreadSound qid t tid v) (idle : v.stage = .idle)
    (producer : v.l.cold.producer = some (qid,t)) (open_ : v.l.cold.batch = some o)
    (after : v'.stage = .renewed ticks codeKind)
    (shipped : v'.shipped = v.shipped ++ [(accepted,{o.batch with events := v.l.window})]) :
    Stretch v v' := by
  obtain ⟨armed,_⟩ := ship_armed sound idle producer open_
  by_cases empty : v.l.window = []
  · have seated : ¬Unseated v.l := fun none => by simp [none.producer] at producer
    refine .blank {o.batch with events := v.l.window} idle seated empty ?_
    simp [View.batches,idle,after,shipped,current_empty empty]
  · exact .same (by simp [View.batches,idle,after,shipped,current_some empty,current_batch armed])

theorem write_stretch {v v' : View T} (sound : ThreadSound qid t tid v)
    (stage : v.stage = .armed ticks codeKind)
    (wrote : EventQueue.writeSlot v.l ⟨0,codeKind⟩ = some v'.l) (after : v'.stage = .idle)
    (shipped : v'.shipped = v.shipped) : Stretch v v' := by
  have standing := sound.standing
  simp only [Standing,stage] at standing
  obtain ⟨o,armed,_,base,empty⟩ := standing
  have current := current_write armed (window_room armed.toPoints empty) wrote
  have hot : v.l.hot.baseTicks = ticks := armed.base.trans base
  refine .fresh ⟨v.l.hot.baseTicks,v.l.hot.tid,v.l.window ++ [⟨0,codeKind⟩],batchN⟩ ticks codeKind stage
    hot ?_ ?_
  · simp [entries_eq,entryAt,empty,hot]
  · simp [View.batches,stage,after,shipped,current,current_empty empty]

theorem armNew_batches {v : View T} (sound : ThreadSound qid t tid v) (stage : v.stage = .renewed ticks codeKind) :
    View.batches {v with l := v.l.arm,stage := .armed ticks codeKind} = v.batches := by
  have standing := sound.standing
  simp only [Standing,stage] at standing
  obtain ⟨o,held,blank⟩ := standing
  obtain ⟨_,cleared,_⟩ := arm_blank held blank
  simp [View.batches,stage,current_empty cleared]

theorem moves_stretch {v v' : View T} {a : Act T} (sound : ThreadSound qid t tid v)
    (moves : Moves qid t tid a v v') : Stretch v v' := by
  have standing := sound.standing
  cases moves with
  | still => exact .same rfl
  | drained splits => exact .same rfl
  | fast idle hit wrote => exact fast_stretch sound idle hit wrote rfl rfl
  | seat idle miss first direct =>
    have unseated : Unseated v.l := by
      rcases sound.seat with absent | present
      · exact absent.2
      · simp [first] at present
    exact .same (by simp [View.batches,idle,current_empty unseated.window])
  | ship idle miss producer open_ brk blank room => exact ship_stretch sound idle producer open_ rfl rfl
  | armNew stage => exact .same (armNew_batches sound stage)
  | armRestored stage =>
    simp only [Standing,stage] at standing
    obtain ⟨o,armed,_,empty⟩ := standing
    obtain ⟨_,cleared⟩ := arm_again armed
    refine .same ((batches_done _ rfl).trans ?_)
    simp [View.batches,stage,current_empty cleared,current_empty empty]
  | armTaken stage => exact .same (by simp [View.batches,stage])
  | write stage wrote => exact write_stretch sound stage wrote rfl rfl
  | leave idle => exact .same (by simp [View.batches,idle])
  | commit enter committed =>
    have stage : v.stage = .idle ∨ v.stage = .leaving := by
      rcases enter with ⟨_,idle,_⟩ | ⟨_,leaving,_⟩
      · exact .inl idle
      · exact .inr leaving
    have same : v.batches = v.shipped.map (·.2) ++ v.l.current := by
      rcases stage with stage | stage <;> simp [View.batches,stage]
    by_cases none : Unseated v.l
    · rw [commit_unseated none] at committed
      cases Option.some.inj committed
      exact .same (by rw [same]; rfl)
    · obtain ⟨o,armed,_⟩ := sound.standing.armed stage none
      rw [commit_armed armed] at committed
      cases Option.some.inj committed
      exact .same (by rw [same]; simp [View.batches,Local.current])
  | takeNone stage empty =>
    exact .same ((batches_done _ rfl).trans (by simp [View.batches,stage]))
  | takeBack stage back =>
    obtain ⟨rfl,_⟩ := takeOpen_back back
    exact .same (by simp [View.batches,stage])
  | takeFull stage taken =>
    obtain ⟨o,held,rfl,some_,rfl⟩ := takeOpen_full taken
    obtain ⟨armed,_,events⟩ := committed_armed sound stage held
    have here : v.l.window ≠ [] := by rw [← events]; exact some_
    refine .same ?_
    simp only [View.batches,stage,current_some here,committed_batch armed events]
  | handOver stage room =>
    simp only [Standing,stage] at standing
    obtain ⟨_,_,o,armed,_,empty⟩ := standing
    refine .same ((batches_done _ rfl).trans ?_)
    simp [View.batches,stage,current_empty empty]

theorem moves_grown {v v' : View T} {a : Act T} (sound : ThreadSound qid t tid v)
    (moves : Moves qid t tid a v v') : Grown v.batches v'.batches := by
  cases moves_stretch sound moves with
  | same batches =>
    rw [batches]
    exact .refl Continues.refl _
  | fresh b ticks codeKind pending base entries batches =>
    rw [batches]
    exact .append Continues.refl _ _
  | blank b idle seated empty batches =>
    rw [batches]
    exact .append Continues.refl _ _
  | further front b b' e before batches continues entries =>
    rw [before,batches]
    exact .last Continues.refl continues front

def Shown (v : View T) : Prop :=
  match v.stage with
  | .renewed _ _ => v.l.hot.cursor = 0 ∨ ∃ start s, Points v.l start ∧
      v.shipped.getLast? = some s ∧ s.2 = ⟨v.l.hot.baseTicks,v.l.hot.tid,v.l.window,batchN⟩
  | .taken _ full => full = ⟨v.l.hot.baseTicks,v.l.hot.tid,v.l.window,batchN⟩
  | _ => True

theorem shown_done {v : View T} (leaving : Bool) (stage : v.stage = .done leaving) : Shown v := by
  cases leaving <;> simp [Shown,stage,Stage.done]

theorem alloc_window (l : Local T) (base : UInt64) (tid : UInt32) :
    (l.alloc base tid).window = l.window := window_congr rfl rfl rfl

theorem shown_moves {v v' : View T} {a : Act T} (sound : ThreadSound qid t tid v) (shown : Shown v)
    (moves : Moves qid t tid a v v') : Shown v' := by
  cases moves with
  | still => exact shown
  | drained splits => exact shown
  | seat idle miss first direct =>
    have unseated : Unseated v.l := by
      rcases sound.seat with absent | present
      · exact absent.2
      · simp [first] at present
    exact .inl unseated.cursor
  | ship idle miss producer open_ brk blank room =>
    obtain ⟨armed,_⟩ := ship_armed sound idle producer open_
    exact .inr ⟨_,_,⟨armed.nonnull,armed.finish,armed.low,armed.high⟩,List.getLast?_concat,
      current_batch armed⟩
  | takeFull stage taken =>
    obtain ⟨o,held,rfl,_,rfl⟩ := takeOpen_full taken
    obtain ⟨armed,_,events⟩ := committed_armed sound stage held
    simp only [Shown]
    rw [alloc_window]
    have batch := committed_batch armed events
    exact batch
  | armRestored stage => exact shown_done _ rfl
  | takeNone stage => exact shown_done _ rfl
  | handOver stage => exact shown_done _ rfl
  | _ => trivial

theorem readTail_some {l : Local T} {x : EventBatch} (read : l.readTail queueId = some x) :
    x = ⟨l.hot.baseTicks,l.hot.tid,l.window,l.window.length⟩ ∧ l.window ≠ [] := by
  unfold Local.readTail at read
  split at read
  · cases read
  · split at read
    · cases read
    · split at read
      · cases read
      · split at read
        · cases read
        · rename_i inside
          cases read
          refine ⟨rfl,fun empty => inside (.inl ?_)⟩
          exact Nat.sub_eq_zero_iff_le.mp (by simpa [Local.window] using empty)

theorem tail_last {v : View T} {x : EventBatch} (sound : ThreadSound qid t tid v) (shown : Shown v)
    (read : v.l.readTail queueId = some x) :
    ∃ front b, v.batches = front ++ [b] ∧ Continues x b ∧ b.events = x.events := by
  obtain ⟨shape,some_⟩ := readTail_some read
  have standing := sound.standing
  have copies (b : EventBatch) (same : b = ⟨v.l.hot.baseTicks,v.l.hot.tid,v.l.window,batchN⟩) :
      Continues x b ∧ b.events = x.events := by
    rw [same,shape]
    exact ⟨.copy _ _ _ _ _,by simp⟩
  have open_ (same : v.batches = v.shipped.map (·.2) ++ v.l.current) :
      ∃ front b, v.batches = front ++ [b] ∧ Continues x b ∧ b.events = x.events := by
    rw [current_some some_] at same
    exact ⟨_,_,same,copies _ rfl⟩
  cases stage : v.stage with
  | idle => exact open_ (by simp [View.batches,stage])
  | leaving => exact open_ (by simp [View.batches,stage])
  | committed leaving => exact open_ (by simp [View.batches,stage])
  | renewed ticks codeKind =>
    simp only [Shown,stage] at shown
    rcases shown with null | ⟨start,s,_,last,same⟩
    · exact absurd (by simp [Local.window,null]) some_
    · obtain ⟨front,split⟩ := List.getLast?_eq_some_iff.mp last
      exact ⟨front.map (·.2),s.2,by simp [View.batches,stage,split],copies _ same⟩
  | taken leaving full =>
    simp only [Shown,stage] at shown
    exact ⟨v.shipped.map (·.2),full,by simp [View.batches,stage],copies _ shown⟩
  | armed ticks codeKind =>
    simp only [Standing,stage] at standing
    obtain ⟨o,_,_,_,empty⟩ := standing
    exact absurd empty some_
  | restored leaving =>
    simp only [Standing,stage] at standing
    obtain ⟨o,_,_,empty⟩ := standing
    exact absurd empty some_
  | rearmed leaving full =>
    simp only [Standing,stage] at standing
    obtain ⟨_,_,o,_,_,empty⟩ := standing
    exact absurd empty some_
  | exited =>
    simp only [Standing,stage] at standing
    exact absurd standing some_

def Stage.recording : Stage → Bool
  | .idle | .renewed _ _ | .armed _ _ => true
  | _ => false

theorem tail_none {v : View T} (sound : ThreadSound qid t tid v)
    (recording : v.stage.recording = true) (read : v.l.readTail qid = none) :
    v.batches = v.shipped.map (·.2) := by
  have standing := sound.standing
  cases stage : v.stage with
  | renewed ticks codeKind => simp [View.batches,stage]
  | armed ticks codeKind =>
    simp only [Standing,stage] at standing
    obtain ⟨o,_,_,_,empty⟩ := standing
    simp [View.batches,stage,current_empty empty]
  | idle =>
    have empty : v.l.window = [] := by
      by_cases none : Unseated v.l
      · exact none.window
      · obtain ⟨o,armed,_⟩ := sound.standing.armed (.inl stage) none
        have seat := sound.seat.resolve_left fun absent => none absent.2
        have reads := readTail_points armed.toPoints sound.even
        rw [seat.2.2,read] at reads
        by_contra some_
        rw [if_neg some_] at reads
        cases reads
    simp [View.batches,stage,current_empty empty]
  | _ => rw [stage] at recording; cases recording

-- A copy `x` of the batch at place `i`; what the thread had pushed when it was asked for
-- stands in the copy and in front of it.
structure TailAt (began : List (UInt64 × UInt32)) (batches : List EventBatch) (x : EventBatch)
    (i : Nat) : Prop where
  some_ : x.events ≠ []
  batch : ∃ b, batches[i]? = some b ∧ Continues x b
  covers : began <+: (batches.take i).flatMap (·.entries) ++ x.entries

theorem TailAt.grown {began : List (UInt64 × UInt32)} {before after : List EventBatch}
    {x : EventBatch} {i : Nat} (tail : TailAt began before x i) (grown : Grown before after) :
    TailAt began after x i := by
  obtain ⟨b,here,continues⟩ := tail.batch
  obtain ⟨c,there,further⟩ := grown.kept i b here
  refine ⟨tail.some_,⟨c,there,continues.trans _ _ _ further⟩,?_⟩
  rw [grown.take_eq (List.getElem?_eq_some_iff.mp here).1]
  exact tail.covers

theorem tail_at {v : View T} {x : EventBatch} {began : List (UInt64 × UInt32)}
    (sound : ThreadSound qid t tid v) (shown : Shown v) (read : v.l.readTail queueId = some x)
    (before : began <+: v.pushed) :
    ∃ i, TailAt began v.batches x i ∧
      ∀ h ∈ v.batches, h ∈ v.batches.take i ∨ h.tid = x.tid ∧ h.baseTicks = x.baseTicks := by
  obtain ⟨front,b,split,continues,events⟩ := tail_last sound shown read
  obtain ⟨shape,some_⟩ := readTail_some read
  have window : x.events = v.l.window := by simp only [shape]
  have same : b.entries = x.entries := by rw [entries_eq,entries_eq,continues.base,events]
  have pushed := batches_pushed sound
  rw [split] at pushed ⊢
  refine ⟨front.length,⟨window ▸ some_,⟨b,by simp,continues⟩,?_⟩,fun h present => ?_⟩
  · rw [List.take_left' rfl,← same]
    simpa [← pushed] using before
  · rw [List.take_left' rfl]
    rcases List.mem_append.mp present with early | last
    · exact .inl early
    · rw [List.mem_singleton.mp last]
      exact .inr ⟨continues.tid,continues.base⟩

theorem prefix_upTo {batches : List EventBatch} {b : EventBatch} {i : Nat} (here : batches[i]? = some b) :
    (batches.take i).flatMap (·.entries) ++ b.entries <+: batches.flatMap (·.entries) := by
  obtain ⟨inside,same⟩ := List.getElem?_eq_some_iff.mp here
  have split := List.take_append_drop (i+1) batches
  rw [List.take_succ_eq_append_getElem inside,same] at split
  have whole := congrArg (fun l : List EventBatch => l.flatMap (·.entries)) split
  simp only [List.flatMap_append,List.flatMap_cons,List.flatMap_nil,List.append_nil] at whole
  exact ⟨_,whole⟩

theorem TailAt.stands {began : List (UInt64 × UInt32)} {batches : List EventBatch} {x : EventBatch}
    {i : Nat} (tail : TailAt began batches x i) :
    (batches.take i).flatMap (·.entries) ++ x.entries <+: batches.flatMap (·.entries) := by
  obtain ⟨b,here,continues⟩ := tail.batch
  exact (List.prefix_append_right_inj _ |>.mpr continues.entries).trans (prefix_upTo here)

-- Where the copied batch has been handed over, the handed-over batches cover what the copy
-- does; where it has not, it is the one in the thread's hands.
theorem TailAt.handed {began : List (UInt64 × UInt32)} {front hand : List EventBatch} {x : EventBatch}
    {i : Nat} (tail : TailAt began (front ++ hand) x i) (one : hand.length ≤ 1) :
    (began <+: front.flatMap (·.entries) ∧ ∃ b ∈ front, Continues x b) ∨
      (i = front.length ∧ began <+: front.flatMap (·.entries) ++ x.entries ∧
        ∃ b, hand = [b] ∧ Continues x b) := by
  obtain ⟨b,here,continues⟩ := tail.batch
  have covers := tail.covers
  obtain ⟨inside,same⟩ := List.getElem?_eq_some_iff.mp here
  by_cases early : i < front.length
  · rw [List.getElem_append_left early] at same
    refine .inl ⟨?_,b,same ▸ List.getElem_mem _,continues⟩
    rw [List.take_append_of_le_length early.le] at covers
    have upTo := prefix_upTo (List.getElem?_eq_some_iff.mpr ⟨early,same⟩)
    exact (covers.trans (List.prefix_append_right_inj _ |>.mpr continues.entries)).trans upTo
  · have last : i = front.length := by
      rw [List.length_append] at inside
      omega
    subst last
    rw [List.take_left' rfl] at covers
    refine .inr ⟨rfl,covers,b,?_,continues⟩
    match hand,one with
    | [],_ => simp at inside
    | [c],_ =>
      simp at same
      rw [same]

theorem Moves.unflushed {v v' : View T} {a : Act T} (moves : Moves qid t tid a v v')
    (recorded : a ≠ .flush t) (before : v.stage.recording = true ∨ v.stage.gone = true) :
    v'.stage.recording = true ∨ v'.stage.gone = true := by
  rcases before with recording | gone
  · cases moves with
    | still => exact .inl recording
    | drained splits => exact .inl recording
    | fast idle => exact .inl rfl
    | seat idle => exact .inl rfl
    | ship idle => exact .inl rfl
    | armNew stage => exact .inl rfl
    | write stage => exact .inl rfl
    | leave idle => exact .inr rfl
    | commit enter committed =>
      rcases enter with ⟨flush,_,_⟩ | ⟨_,_,leaving⟩
      · exact absurd flush recorded
      · exact .inr leaving
    | armRestored stage => simp [stage,Stage.recording] at recording
    | armTaken stage => simp [stage,Stage.recording] at recording
    | takeNone stage => simp [stage,Stage.recording] at recording
    | takeBack stage => simp [stage,Stage.recording] at recording
    | takeFull stage => simp [stage,Stage.recording] at recording
    | handOver stage => simp [stage,Stage.recording] at recording
  · exact .inr (moves.gone gone)

-- The ticks a thread has pushed never go back, and neither does the push it is inside.
structure Ticking (v : View T) : Prop where
  pushed : v.pushed.Pairwise (·.1 ≤ ·.1)
  pending : match v.stage with
    | .renewed ticks _ | .armed ticks _ => ∀ e ∈ v.pushed, e.1 ≤ ticks
    | _ => True

theorem pairwise_push {pushed : List (UInt64 × UInt32)} {e : UInt64 × UInt32}
    (sorted : pushed.Pairwise (·.1 ≤ ·.1)) (last : ∀ d ∈ pushed, d.1 ≤ e.1) :
    (pushed ++ [e]).Pairwise (·.1 ≤ ·.1) := by
  refine List.pairwise_append.mpr ⟨sorted,List.pairwise_singleton _ _,fun d earlier f here => ?_⟩
  rw [List.mem_singleton.mp here]
  exact last d earlier

theorem ticking_done {v : View T} (sorted : v.pushed.Pairwise (·.1 ≤ ·.1)) (leaving : Bool)
    (stage : v.stage = .done leaving) : Ticking v := by
  refine ⟨sorted,?_⟩
  cases leaving <;> simp [stage,Stage.done]

theorem ticking_moves {v v' : View T} {a : Act T} (ticking : Ticking v)
    (moves : Moves qid t tid a v v')
    (forward : ∀ run ticks codeId kind, a = .push t run ticks codeId kind → ∀ e ∈ v.pushed, e.1 ≤ ticks) :
    Ticking v' := by
  have sorted := ticking.pushed
  have pending := ticking.pending
  cases moves with
  | still => exact ticking
  | drained splits => exact ⟨sorted,pending⟩
  | fast idle hit wrote => exact ⟨pairwise_push sorted (forward _ _ _ _ rfl),trivial⟩
  | seat idle miss first direct => exact ⟨sorted,forward _ _ _ _ rfl⟩
  | ship idle miss producer open_ brk blank room => exact ⟨sorted,forward _ _ _ _ rfl⟩
  | armNew stage =>
    simp only [stage] at pending
    exact ⟨sorted,pending⟩
  | write stage wrote =>
    simp only [stage] at pending
    exact ⟨pairwise_push sorted pending,trivial⟩
  | armRestored stage => exact ticking_done sorted _ rfl
  | takeNone stage => exact ticking_done sorted _ rfl
  | handOver stage => exact ticking_done sorted _ rfl
  | _ => exact ⟨sorted,trivial⟩

structure Based (v : View T) : Prop where
  first : ∀ b ∈ v.batches, ∃ e rest, b.entries = e :: rest ∧ e.1 = b.baseTicks
  begun : v.stage = .idle → Unseated v.l ∨ v.l.window ≠ []

theorem done_recording {leaving : Bool} {stage : Stage}
    (unflushed : stage.recording = true ∨ stage.gone = true)
    (inside : stage.recording = false ∧ stage.gone = leaving) : Stage.done leaving ≠ .idle := by
  rcases unflushed with recording | gone
  · rw [inside.1] at recording
    cases recording
  · rw [← inside.2,gone]
    simp [Stage.done]

theorem wrote_window {l l' : Local T} {o : OpenBatch} {event : PackedEvent} (armed : Armed l o)
    (room : l.hot.cursor < o.start + batchN) (wrote : EventQueue.writeSlot l event = some l') :
    l'.window ≠ [] := by
  obtain ⟨_,window⟩ := writeSlot_points armed.toPoints room wrote
  simp [window]

theorem begun_moves {v v' : View T} {a : Act T} (sound : ThreadSound qid t tid v)
    (moves : Moves qid t tid a v v') (unflushed : v.stage.recording = true ∨ v.stage.gone = true)
    (begun : v.stage = .idle → Unseated v.l ∨ v.l.window ≠ []) :
    v'.stage = .idle → Unseated v'.l ∨ v'.l.window ≠ [] := by
  have standing := sound.standing
  cases moves with
  | still => exact begun
  | drained splits => exact begun
  | fast idle hit wrote =>
    obtain ⟨o,armed,_,room⟩ := fast_armed sound idle hit
    exact fun _ => .inr (wrote_window armed room wrote)
  | write stage wrote =>
    simp only [Standing,stage] at standing
    obtain ⟨o,armed,_,_,empty⟩ := standing
    exact fun _ => .inr (wrote_window armed (window_room armed.toPoints empty) wrote)
  | armRestored stage =>
    exact fun done => absurd done (done_recording unflushed (by simp [stage,Stage.recording,Stage.gone]))
  | takeNone stage =>
    exact fun done => absurd done (done_recording unflushed (by simp [stage,Stage.recording,Stage.gone]))
  | handOver stage =>
    exact fun done => absurd done (done_recording unflushed (by simp [stage,Stage.recording,Stage.gone]))
  | _ => simp

theorem based_moves {v v' : View T} {a : Act T} (sound : ThreadSound qid t tid v) (based : Based v)
    (moves : Moves qid t tid a v v') (unflushed : v.stage.recording = true ∨ v.stage.gone = true) :
    Based v' := by
  refine ⟨?_,begun_moves sound moves unflushed based.begun⟩
  have first := based.first
  cases moves_stretch sound moves with
  | same batches =>
    rw [batches]
    exact first
  | fresh b ticks codeKind pending base entries batches =>
    rw [batches]
    intro c present
    rcases List.mem_append.mp present with old | new
    · exact first c old
    · rw [List.mem_singleton.mp new]
      exact ⟨_,_,entries,base.symm⟩
  | blank b idle seated empty batches =>
    exact absurd empty ((based.begun idle).resolve_left seated)
  | further front b b' e before batches continues entries =>
    rw [before] at first
    rw [batches]
    intro c present
    rcases List.mem_append.mp present with old | new
    · exact first c (List.mem_append_left _ old)
    · obtain ⟨d,rest,split,base⟩ := first b (List.mem_append_right _ (List.mem_singleton_self _))
      rw [List.mem_singleton.mp new]
      exact ⟨d,rest ++ [e],by rw [entries,split]; rfl,base.trans continues.base.symm⟩

theorem TailAt.first {v : View T} {began : List (UInt64 × UInt32)} {x : EventBatch} {i : Nat}
    (based : Based v) (tail : TailAt began v.batches x i) :
    ∃ e rest, x.entries = e :: rest ∧ e.1 = x.baseTicks := by
  obtain ⟨b,here,continues⟩ := tail.batch
  obtain ⟨e,rest,entries,base⟩ := based.first b (List.mem_of_getElem? here)
  obtain ⟨more,split⟩ := continues.entries
  cases own : x.entries with
  | nil =>
    have none : x.events = [] := by simpa [EventBatch.entries] using own
    exact absurd none tail.some_
  | cons d rest =>
    rw [own,entries] at split
    obtain ⟨rfl,_⟩ := List.cons.inj split
    exact ⟨d,rest,rfl,base.trans continues.base⟩

end Trace0
