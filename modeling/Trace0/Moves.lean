import Trace0.Armed
import Trace0.World

namespace Trace0

variable {T : Type}

structure View (T : Type) where
  l : Local T
  stage : Stage
  seated : Prop
  held : List EventBatch
  pushed : List (UInt64 × UInt32)
  shipped : List (Bool × EventBatch)
  drained : List EventBatch

def World.view [DecidableEq T] (w : World T) (t : T) : View T :=
  ⟨w.threads t,w.stage t,t ∈ w.queue.owners,w.queue.held t,
    ownedBy t w.ledger.pushed,ownedBy t w.ledger.shipped,ownedBy t w.ledger.drained⟩

-- Everything a step can do to one thread, with the guards under which it does it. The
-- thread's own calls come first; `drained` is the consumer's side of its ring.
inductive Moves (qid : Nat) (t : T) (tid : UInt32) : Act T → View T → View T → Prop where
  | still : Moves qid t tid a v v
  | fast (idle : v.stage = .idle) (hit : EventQueue.fastPath v.l run ticks = true)
      (wrote : EventQueue.writeSlot v.l
        ⟨(ticks - v.l.hot.baseTicks).toUInt32,packCodeKind codeId kind⟩ = some l') :
      Moves qid t tid (.push t run ticks codeId kind) v
        {v with l := l',stage := .idle,pushed := v.pushed ++ [(ticks,packCodeKind codeId kind)]}
  | seat (idle : v.stage = .idle) (miss : EventQueue.fastPath v.l run ticks = false)
      (first : v.l.cold.producer = none) (direct : Bool) :
      Moves qid t tid (.push t run ticks codeId kind) v
        {v with
          l := {v.l with
            cold := ⟨some (qid,t),some ⟨v.l.brk,.withCapacity batchN ticks tid⟩⟩
            hot := {v.l.hot with queueId := qid,clockDirect := direct}
            brk := v.l.brk + batchN}
          stage := .renewed ticks (packCodeKind codeId kind)
          seated := True}
  | ship (idle : v.stage = .idle) (miss : EventQueue.fastPath v.l run ticks = false)
      (seated : v.l.cold.producer = some (qid,t)) (open_ : v.l.cold.batch = some o)
      (brk : v.l.brk ≤ brk') (blank : Blank o' ticks tid)
      (room : accepted = true ↔ v.held.length < batchesCapacity) :
      Moves qid t tid (.push t run ticks codeId kind) v
        {v with
          l := {v.l with cold := {v.l.cold with batch := some o'},brk := brk'}
          stage := .renewed ticks (packCodeKind codeId kind)
          held := if accepted then v.held ++ [{o.batch with events := v.l.window}] else v.held
          shipped := v.shipped ++ [(accepted,{o.batch with events := v.l.window})]}
  | armNew (stage : v.stage = .renewed ticks codeKind) :
      Moves qid t tid (.arm t) v {v with l := v.l.arm,stage := .armed ticks codeKind}
  | armRestored (stage : v.stage = .restored leaving) :
      Moves qid t tid (.arm t) v {v with l := v.l.arm,stage := .done leaving}
  | armTaken (stage : v.stage = .taken leaving full) :
      Moves qid t tid (.arm t) v {v with l := v.l.arm,stage := .rearmed leaving full}
  | write (stage : v.stage = .armed ticks codeKind)
      (wrote : EventQueue.writeSlot v.l ⟨0,codeKind⟩ = some l') :
      Moves qid t tid (.write t) v
        {v with l := l',stage := .idle,pushed := v.pushed ++ [(ticks,codeKind)]}
  | leave (idle : v.stage = .idle) : Moves qid t tid (.leave t) v {v with stage := .leaving}
  | commit (enter : a = .flush t ∧ v.stage = .idle ∧ leaving = false ∨
        a = .commit t ∧ v.stage = .leaving ∧ leaving = true)
      (committed : v.l.commit = some l') :
      Moves qid t tid a v {v with l := l',stage := .committed leaving}
  | takeNone (stage : v.stage = .committed leaving) (empty : v.l.takeOpen = none) :
      Moves qid t tid (.take t) v {v with stage := .done leaving}
  | takeBack (stage : v.stage = .committed leaving) (nothing : v.l.takeOpen = some (l',none)) :
      Moves qid t tid (.take t) v {v with l := l',stage := .restored leaving}
  | takeFull (stage : v.stage = .committed leaving) (some_ : v.l.takeOpen = some (l',some full)) :
      Moves qid t tid (.take t) v {v with l := l',stage := .taken leaving full}
  | handOver (stage : v.stage = .rearmed leaving full)
      (room : accepted = true ↔ v.held.length < batchesCapacity) :
      Moves qid t tid (.handOver t) v
        {v with
          stage := .done leaving
          held := if accepted then v.held ++ [full] else v.held
          shipped := v.shipped ++ [(accepted,full)]}
  | drained (splits : v.held = out ++ held') :
      Moves qid t tid (.drain limit) v {v with held := held',drained := v.drained ++ out}

-- What holds of one thread between any two steps. The case on the stage says what `Hot` and
-- `Cold` agree on there; a thread that was never seated has neither.
def Standing (tid : UInt32) (v : View T) : Prop :=
  match v.stage with
  | .idle | .leaving => Unseated v.l ∨ ∃ o, Armed v.l o ∧ o.batch.tid = tid
  | .committed _ =>
    Unseated v.l ∨ ∃ o, Armed v.l o ∧ o.batch.tid = tid ∧ o.batch.events = v.l.window
  | .restored _ => ∃ o, Armed v.l o ∧ o.batch.tid = tid ∧ v.l.window = []
  | .renewed ticks _ => ∃ o, v.l.cold.batch = some o ∧ Blank o ticks tid
  | .armed ticks _ =>
    ∃ o, Armed v.l o ∧ o.batch.tid = tid ∧ o.batch.baseTicks = ticks ∧ v.l.window = []
  | .taken _ full =>
    full.tid = tid ∧ full.capacity = batchN ∧
      ∃ o, v.l.cold.batch = some o ∧ Blank o full.baseTicks tid
  | .rearmed _ full =>
    full.tid = tid ∧ full.capacity = batchN ∧
      ∃ o, Armed v.l o ∧ o.batch.tid = tid ∧ v.l.window = []
  | .exited => v.l.window = []

def View.inHand (v : View T) : List (UInt64 × UInt32) :=
  match v.stage with
  | .renewed _ _ => []
  | .taken _ full | .rearmed _ full => full.entries
  | _ => v.l.written

def handed (shipped : List (Bool × EventBatch)) : List (UInt64 × UInt32) :=
  shipped.flatMap (·.2.entries)

def acceptedOf (shipped : List (Bool × EventBatch)) : List EventBatch :=
  (shipped.filter (·.1)).map (·.2)

structure ThreadSound (qid : Nat) (t : T) (tid : UInt32) (v : View T) : Prop where
  standing : Standing tid v
  brk : 0 < v.l.brk
  even : v.l.hot.epoch % 2 ≠ 1
  seat : (¬v.seated ∧ Unseated v.l) ∨
    (v.l.cold.producer = some (qid,t) ∧ v.seated ∧ v.l.hot.queueId = qid)
  kept : acceptedOf v.shipped = v.drained ++ v.held
  told : handed v.shipped ++ v.inHand = v.pushed
  shape : ∀ s ∈ v.shipped, s.2.tid = tid ∧ s.2.capacity = batchN

@[simp] theorem handed_append (left right : List (Bool × EventBatch)) :
    handed (left ++ right) = handed left ++ handed right := by simp [handed]

@[simp] theorem handed_single (s : Bool × EventBatch) : handed [s] = s.2.entries := by simp [handed]

theorem accepted_append (shipped : List (Bool × EventBatch)) (accepted : Bool) (b : EventBatch) :
    acceptedOf (shipped ++ [(accepted,b)]) =
      acceptedOf shipped ++ if accepted then [b] else [] := by
  cases accepted <;> simp [acceptedOf]

theorem fastPath_true {l : Local T} {run : Nat} {ticks : UInt64}
    (hit : EventQueue.fastPath l run ticks = true) :
    l.hot.cursor < l.hot.endAt ∧ l.hot.queueId = run ∧ ticks - l.hot.baseTicks ≤ deltaOverflow := by
  simpa [EventQueue.fastPath,and_assoc] using hit

variable {qid : Nat} {t : T} {tid : UInt32} {v v' : View T} {a : Act T}

theorem Standing.armed (standing : Standing tid v) (stage : v.stage = .idle ∨ v.stage = .leaving)
    (seated : ¬Unseated v.l) : ∃ o, Armed v.l o ∧ o.batch.tid = tid := by
  unfold Standing at standing
  rcases stage with stage | stage
  all_goals
    rw [stage] at standing
    exact standing.resolve_left seated

theorem fast_armed (sound : ThreadSound qid t tid v) (idle : v.stage = .idle)
    (hit : EventQueue.fastPath v.l run ticks = true) :
    ∃ o, Armed v.l o ∧ o.batch.tid = tid ∧ v.l.hot.cursor < o.start + batchN := by
  obtain ⟨below,_,_⟩ := fastPath_true hit
  have seated : ¬Unseated v.l := fun none => by
    rw [none.cursor,none.endAt] at below
    exact Nat.lt_irrefl 0 below
  obtain ⟨o,armed,tidEq⟩ := sound.standing.armed (.inl idle) seated
  exact ⟨o,armed,tidEq,armed.finish ▸ below⟩

theorem ship_armed (sound : ThreadSound qid t tid v) (idle : v.stage = .idle)
    (producer : v.l.cold.producer = some (qid,t)) (held : v.l.cold.batch = some o) :
    Armed v.l o ∧ o.batch.tid = tid := by
  have seated : ¬Unseated v.l := fun none => by simp [none.producer] at producer
  obtain ⟨p,armed,tidEq⟩ := sound.standing.armed (.inl idle) seated
  have same : p = o := Option.some.inj (armed.held.symm.trans held)
  exact same ▸ ⟨armed,tidEq⟩

theorem window_entries {l : Local T} {o : OpenBatch} (armed : Armed l o) :
    ({o.batch with events := l.window} : EventBatch).entries = l.written := by
  simp [entries_eq,Local.written,armed.base]

theorem sound_fast (sound : ThreadSound qid t tid v) (idle : v.stage = .idle)
    (hit : EventQueue.fastPath v.l run ticks = true)
    (wrote : EventQueue.writeSlot v.l
      ⟨(ticks - v.l.hot.baseTicks).toUInt32,codeKind⟩ = some l') :
    ThreadSound qid t tid
      {v with l := l',stage := .idle,pushed := v.pushed ++ [(ticks,codeKind)]} := by
  obtain ⟨o,armed,tidEq,room⟩ := fast_armed sound idle hit
  obtain ⟨_,_,near⟩ := fastPath_true hit
  obtain ⟨after,grown⟩ := writeSlot_armed armed room wrote
  have changed := writeSlot_some wrote
  have decoded : entryAt o.batch.baseTicks ⟨(ticks - v.l.hot.baseTicks).toUInt32,codeKind⟩ =
      (ticks,codeKind) := by
    rw [entryAt,← armed.base,delta_decodes near]
  refine ⟨.inr ⟨o,after,tidEq⟩,?_,?_,?_,sound.kept,?_,sound.shape⟩
  · subst changed; exact sound.brk
  · subst changed; exact sound.even
  · have seat := sound.seat
    subst changed
    exact .inr (seat.resolve_left fun absent => armed.seated absent.2)
  · have told := sound.told
    simp only [View.inHand,idle] at told ⊢
    rw [grown,decoded,← List.append_assoc,told]

theorem sound_seat (sound : ThreadSound qid t tid v) (idle : v.stage = .idle)
    (first : v.l.cold.producer = none) (direct : Bool) :
    ThreadSound qid t tid {v with
      l := {v.l with
        cold := ⟨some (qid,t),some ⟨v.l.brk,.withCapacity batchN ticks tid⟩⟩
        hot := {v.l.hot with queueId := qid,clockDirect := direct}
        brk := v.l.brk + batchN}
      stage := .renewed ticks codeKind
      seated := True} := by
  have unseated : Unseated v.l := by
    rcases sound.seat with absent | present
    · exact absent.2
    · simp [first] at present
  refine ⟨⟨_,rfl,sound.brk,rfl,rfl,rfl⟩,Nat.lt_of_lt_of_le sound.brk (Nat.le_add_right _ _),
    sound.even,.inr ⟨rfl,trivial,rfl⟩,sound.kept,?_,sound.shape⟩
  have told := sound.told
  simpa [View.inHand,idle,unseated.written] using told

theorem sound_ship (sound : ThreadSound qid t tid v) (idle : v.stage = .idle)
    (producer : v.l.cold.producer = some (qid,t)) (open_ : v.l.cold.batch = some o)
    (brk : v.l.brk ≤ brk') (blank : Blank o' ticks tid) (accepted : Bool) :
    ThreadSound qid t tid {v with
      l := {v.l with cold := {v.l.cold with batch := some o'},brk := brk'}
      stage := .renewed ticks codeKind
      held := if accepted then v.held ++ [{o.batch with events := v.l.window}] else v.held
      shipped := v.shipped ++ [(accepted,{o.batch with events := v.l.window})]} := by
  obtain ⟨armed,tidEq⟩ := ship_armed sound idle producer open_
  refine ⟨⟨o',rfl,blank⟩,Nat.lt_of_lt_of_le sound.brk brk,sound.even,?_,?_,?_,?_⟩
  · exact .inr (sound.seat.resolve_left fun absent => by simp [absent.2.producer] at producer)
  · rw [accepted_append,sound.kept]
    cases accepted <;> simp
  · have told := sound.told
    simp only [View.inHand,idle] at told ⊢
    rw [handed_append,handed_single,window_entries armed,told,List.append_nil]
  · intro s present
    rcases List.mem_append.mp present with earlier | last
    · exact sound.shape s earlier
    · rw [List.mem_singleton.mp last]
      exact ⟨tidEq,armed.room⟩

theorem sound_arm (sound : ThreadSound qid t tid v) (held : v.l.cold.batch = some o) (stage : Stage)
    (standing : Standing tid {v with l := v.l.arm,stage := stage})
    (hand : View.inHand {v with l := v.l.arm,stage := stage} = v.inHand) :
    ThreadSound qid t tid {v with l := v.l.arm,stage := stage} := by
  obtain ⟨cold,_,brk,queueId,epoch⟩ := arm_frame v.l
  refine ⟨standing,by simpa only [brk] using sound.brk,?_,?_,sound.kept,?_,sound.shape⟩
  · simpa only [epoch,even_step] using sound.even
  · refine .inr ?_
    have seat := sound.seat.resolve_left fun absent => by simp [absent.2.batch] at held
    simpa only [cold,queueId] using seat
  · rw [hand]
    exact sound.told

theorem sound_armNew (sound : ThreadSound qid t tid v) (stage : v.stage = .renewed ticks codeKind) :
    ThreadSound qid t tid {v with l := v.l.arm,stage := .armed ticks codeKind} := by
  have standing := sound.standing
  simp only [Standing,stage] at standing
  obtain ⟨o,held,blank⟩ := standing
  obtain ⟨armed,empty,_,_⟩ := arm_blank held blank
  refine sound_arm sound held _ ⟨o,armed,blank.tid,blank.base,empty⟩ ?_
  simp [View.inHand,stage,Local.written,empty]

theorem standing_done {v : View T} {o : OpenBatch} (armed : Armed v.l o) (tidEq : o.batch.tid = tid)
    (empty : v.l.window = []) (leaving : Bool) (stage : v.stage = .done leaving) :
    Standing tid v := by
  cases leaving
  · simp only [Standing,stage,Stage.done,Bool.false_eq_true,if_false]
    exact .inr ⟨o,armed,tidEq⟩
  · simpa only [Standing,stage,Stage.done,if_true] using empty

theorem inHand_done {v : View T} (leaving : Bool) (stage : v.stage = .done leaving) :
    v.inHand = v.l.written := by
  cases leaving <;> simp [View.inHand,stage,Stage.done]

theorem sound_armRestored (sound : ThreadSound qid t tid v) (stage : v.stage = .restored leaving) :
    ThreadSound qid t tid {v with l := v.l.arm,stage := .done leaving} := by
  have standing := sound.standing
  simp only [Standing,stage] at standing
  obtain ⟨o,armed,tidEq,empty⟩ := standing
  obtain ⟨rearmed,cleared⟩ := arm_again armed
  refine sound_arm sound armed.held _ (standing_done rearmed tidEq cleared leaving rfl) ?_
  rw [inHand_done leaving rfl]
  simp [View.inHand,stage,Local.written,cleared,empty]

theorem sound_armTaken (sound : ThreadSound qid t tid v) (stage : v.stage = .taken leaving full) :
    ThreadSound qid t tid {v with l := v.l.arm,stage := .rearmed leaving full} := by
  have standing := sound.standing
  simp only [Standing,stage] at standing
  obtain ⟨tidEq,room,o,held,blank⟩ := standing
  obtain ⟨armed,empty,_,_⟩ := arm_blank held blank
  refine sound_arm sound held _ ⟨tidEq,room,o,armed,blank.tid,empty⟩ ?_
  simp [View.inHand,stage]

theorem sound_write (sound : ThreadSound qid t tid v) (stage : v.stage = .armed ticks codeKind)
    (wrote : EventQueue.writeSlot v.l ⟨0,codeKind⟩ = some l') :
    ThreadSound qid t tid
      {v with l := l',stage := .idle,pushed := v.pushed ++ [(ticks,codeKind)]} := by
  have standing := sound.standing
  simp only [Standing,stage] at standing
  obtain ⟨o,armed,tidEq,base,empty⟩ := standing
  obtain ⟨after,grown⟩ := writeSlot_armed armed (window_room armed.toPoints empty) wrote
  have changed := writeSlot_some wrote
  refine ⟨.inr ⟨o,after,tidEq⟩,?_,?_,?_,sound.kept,?_,sound.shape⟩
  · subst changed; exact sound.brk
  · subst changed; exact sound.even
  · have seat := sound.seat
    subst changed
    exact .inr (seat.resolve_left fun absent => armed.seated absent.2)
  · have told := sound.told
    have decoded : entryAt o.batch.baseTicks ⟨0,codeKind⟩ = (ticks,codeKind) := by
      simp [entryAt,base]
    simp only [View.inHand,stage] at told ⊢
    rw [grown,decoded,← List.append_assoc,told]

theorem sound_leave (sound : ThreadSound qid t tid v) (idle : v.stage = .idle) :
    ThreadSound qid t tid {v with stage := .leaving} := by
  refine ⟨?_,sound.brk,sound.even,sound.seat,sound.kept,?_,sound.shape⟩
  · have standing := sound.standing
    simpa only [Standing,idle] using standing
  · have told := sound.told
    simpa only [View.inHand,idle] using told

theorem sound_commit (sound : ThreadSound qid t tid v)
    (stage : v.stage = .idle ∨ v.stage = .leaving) (committed : v.l.commit = some l') :
    ThreadSound qid t tid {v with l := l',stage := .committed leaving} := by
  have told := sound.told
  have hand : v.inHand = v.l.written := by
    rcases stage with stage | stage <;> simp [View.inHand,stage]
  rw [hand] at told
  by_cases none : Unseated v.l
  · rw [commit_unseated none] at committed
    cases Option.some.inj committed
    exact ⟨.inl none,sound.brk,sound.even,sound.seat,sound.kept,told,sound.shape⟩
  · obtain ⟨o,armed,tidEq⟩ := sound.standing.armed stage none
    rw [commit_armed armed] at committed
    cases Option.some.inj committed
    have after := armed_committed armed
    refine ⟨.inr ⟨_,after,tidEq,by simp⟩,sound.brk,sound.even,?_,sound.kept,?_,sound.shape⟩
    · exact .inr (sound.seat.resolve_left fun absent => none absent.2)
    · simpa [View.inHand] using told

theorem takeOpen_back {l l' : Local T} (back : l.takeOpen = some (l',none)) :
    l' = l ∧ ∃ o, l.cold.batch = some o ∧ (l.cold.producer = none ∨ o.batch.events = []) := by
  unfold Local.takeOpen at back
  cases held : l.cold.batch with
  | none => simp [held] at back
  | some o =>
    simp only [held] at back
    split at back
    · rename_i nothing
      cases Option.some.inj back
      exact ⟨rfl,o,rfl,by simpa [Option.isNone_iff_eq_none] using nothing⟩
    · cases back

theorem takeOpen_full {l l' : Local T} (taken : l.takeOpen = some (l',some full)) :
    ∃ o, l.cold.batch = some o ∧ full = o.batch ∧ full.events ≠ [] ∧
      l' = l.alloc o.batch.baseTicks o.batch.tid := by
  unfold Local.takeOpen at taken
  cases held : l.cold.batch with
  | none => simp [held] at taken
  | some o =>
    simp only [held] at taken
    split at taken
    · cases taken
    · rename_i something
      cases Option.some.inj taken
      exact ⟨o,rfl,rfl,fun empty => something (.inr empty),rfl⟩

theorem takeOpen_none {l : Local T} (none : l.takeOpen = none) : l.cold.batch = Option.none := by
  unfold Local.takeOpen at none
  cases held : l.cold.batch with
  | none => rfl
  | some o =>
    simp only [held] at none
    split at none <;> cases none

theorem committed_armed (sound : ThreadSound qid t tid v) (stage : v.stage = .committed leaving)
    (held : v.l.cold.batch = some o) :
    Armed v.l o ∧ o.batch.tid = tid ∧ o.batch.events = v.l.window := by
  have standing := sound.standing
  simp only [Standing,stage] at standing
  obtain ⟨p,armed,tidEq,events⟩ := standing.resolve_left fun none => by simp [none.batch] at held
  have same : p = o := Option.some.inj (armed.held.symm.trans held)
  exact same ▸ ⟨armed,tidEq,events⟩

theorem sound_takeNone (sound : ThreadSound qid t tid v) (stage : v.stage = .committed leaving)
    (empty : v.l.takeOpen = none) : ThreadSound qid t tid {v with stage := .done leaving} := by
  have standing := sound.standing
  simp only [Standing,stage] at standing
  have unseated : Unseated v.l := standing.resolve_right fun ⟨o,armed,_⟩ => by
    have absent := takeOpen_none empty
    rw [armed.held] at absent
    cases absent
  have told := sound.told
  simp only [View.inHand,stage] at told
  refine ⟨?_,sound.brk,sound.even,sound.seat,sound.kept,?_,sound.shape⟩
  · cases leaving
    · exact .inl unseated
    · exact unseated.window
  · rw [inHand_done leaving rfl]
    exact told

theorem sound_takeBack (sound : ThreadSound qid t tid v) (stage : v.stage = .committed leaving)
    (back : v.l.takeOpen = some (l',none)) :
    ThreadSound qid t tid {v with l := l',stage := .restored leaving} := by
  obtain ⟨rfl,o,held,nothing⟩ := takeOpen_back back
  obtain ⟨armed,tidEq,events⟩ := committed_armed sound stage held
  have producer := (sound.seat.resolve_left fun absent => by simp [absent.2.batch] at held).1
  have empty : v.l.window = [] := by
    rw [← events]
    exact nothing.resolve_left (by simp [producer])
  have told := sound.told
  simp only [View.inHand,stage] at told
  exact ⟨⟨o,armed,tidEq,empty⟩,sound.brk,sound.even,sound.seat,sound.kept,told,sound.shape⟩

theorem sound_takeFull (sound : ThreadSound qid t tid v) (stage : v.stage = .committed leaving)
    (taken : v.l.takeOpen = some (l',some full)) :
    ThreadSound qid t tid {v with l := l',stage := .taken leaving full} := by
  obtain ⟨o,held,rfl,_,rfl⟩ := takeOpen_full taken
  obtain ⟨armed,tidEq,events⟩ := committed_armed sound stage held
  have seat := sound.seat.resolve_left fun absent => by simp [absent.2.batch] at held
  refine ⟨⟨tidEq,armed.room,_,rfl,⟨sound.brk,rfl,tidEq,rfl⟩⟩,
    Nat.lt_of_lt_of_le sound.brk (Nat.le_add_right _ _),sound.even,.inr seat,sound.kept,?_,
    sound.shape⟩
  have told := sound.told
  simp only [View.inHand,stage] at told ⊢
  rw [← told,← window_entries armed,← events]

theorem sound_handOver (sound : ThreadSound qid t tid v) (stage : v.stage = .rearmed leaving full)
    (accepted : Bool) :
    ThreadSound qid t tid {v with
      stage := .done leaving
      held := if accepted then v.held ++ [full] else v.held
      shipped := v.shipped ++ [(accepted,full)]} := by
  have standing := sound.standing
  simp only [Standing,stage] at standing
  obtain ⟨tidEq,room,o,armed,openTid,empty⟩ := standing
  have told := sound.told
  simp only [View.inHand,stage] at told
  refine ⟨standing_done armed openTid empty leaving rfl,sound.brk,sound.even,sound.seat,?_,?_,?_⟩
  · rw [accepted_append,sound.kept]
    cases accepted <;> simp
  · rw [inHand_done leaving rfl]
    simp [Local.written,empty,told]
  · intro s present
    rcases List.mem_append.mp present with earlier | last
    · exact sound.shape s earlier
    · rw [List.mem_singleton.mp last]
      exact ⟨tidEq,room⟩

theorem moves_sound (sound : ThreadSound qid t tid v) (moves : Moves qid t tid a v v') :
    ThreadSound qid t tid v' := by
  cases moves with
  | still => exact sound
  | fast idle hit wrote => exact sound_fast sound idle hit wrote
  | seat idle miss first direct => exact sound_seat sound idle first direct
  | ship idle miss producer open_ brk blank room =>
    exact sound_ship sound idle producer open_ brk blank _
  | armNew stage => exact sound_armNew sound stage
  | armRestored stage => exact sound_armRestored sound stage
  | armTaken stage => exact sound_armTaken sound stage
  | write stage wrote => exact sound_write sound stage wrote
  | leave idle => exact sound_leave sound idle
  | commit enter committed =>
    refine sound_commit sound ?_ committed
    rcases enter with ⟨_,idle,_⟩ | ⟨_,leaving,_⟩
    · exact .inl idle
    · exact .inr leaving
  | takeNone stage empty => exact sound_takeNone sound stage empty
  | takeBack stage back => exact sound_takeBack sound stage back
  | takeFull stage taken => exact sound_takeFull sound stage taken
  | handOver stage room => exact sound_handOver sound stage _
  | drained splits =>
    refine ⟨sound.standing,sound.brk,sound.even,sound.seat,?_,sound.told,sound.shape⟩
    rw [sound.kept,splits,List.append_assoc]

end Trace0
