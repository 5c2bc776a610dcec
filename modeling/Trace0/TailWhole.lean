import Trace0.TailReads

namespace Trace0.Tails

variable {T R : Type}

def Pc.pushing : Pc → Option Push
  | .pushBase p => some p
  | .pushCursor p _ => some p
  | .pushEnd p _ _ => some p
  | .pushQueue p _ _ => some p
  | .slow p => some p
  | _ => none

namespace Cell

variable {c c' : Cell} {q : Nat}

-- On one queue alone a thread has no batch before it is the queue's producer, and frees none.
structure Single (c : Cell) (q : Nat) : Prop where
  pushes : ∀ p, c.pc.pushing = some p → p.queue = q
  seat : (c.producer = none ∧ c.hot.cursor = 0 ∧ c.hot.endAt = 0 ∧ c.batch = none ∧ (c.pc = .idle ∨ c.pc.pushing ≠ none)) ∨
    c.producer = some q ∧ (c.pc.freed = true → c.hot.cursor = 0)

theorem Single.clean (single : c.Single q) : c.dangles = false := by
  cases freed : c.pc.freed with
  | false => simp [dangles,freed]
  | true =>
    have blank : c.hot.cursor = 0 := by
      rcases single.seat with ⟨_,blank,_⟩ | ⟨_,blank⟩
      · exact blank
      · exact blank freed
    simp [dangles,blank]

theorem Single.seated (single : c.Single q) (going : c.pc ≠ .idle) (past : c.pc.pushing = none) :
    c.producer = some q ∧ (c.pc.freed = true → c.hot.cursor = 0) := by
  refine single.seat.resolve_left ?_
  rintro ⟨_,_,_,_,idle | pushing⟩
  · exact going idle
  · exact pushing past

theorem Single.moves (single : c.Single q) {pc : Pc} (same : pc.pushing = c.pc.pushing) (pushing : pc.pushing ≠ none)
    (owned : pc.freed = false) : Single {c with pc := pc} q := by
  refine ⟨fun p here => single.pushes p (same.symm.trans here),?_⟩
  rcases single.seat with ⟨producer,cursor,endAt,batch,_⟩ | ⟨producer,_⟩
  · exact .inl ⟨producer,cursor,endAt,batch,.inr pushing⟩
  · exact .inr ⟨producer,fun freed => absurd (freed.symm.trans owned) (by simp)⟩

theorem advance_past {direct full : Bool} {start : Nat} (past : c.pc.pushing = none) (stepped : c.advance direct start full = some c') :
    c'.producer = c.producer ∧ c'.pc.pushing = none ∧
      (c'.pc.freed = true → c.pc.freed = true ∧ c'.hot.cursor = c.hot.cursor) := by
  unfold advance at stepped
  cases here : c.pc with
  | idle =>
    rw [here] at stepped
    cases stepped
  | pushSlot p delta cursor | bump cursor | slowCursor p | slowSlot p cursor | handOver full | commitCursor reason =>
    rw [here] at stepped
    cases stepped
    exact ⟨rfl,rfl,nofun⟩
  | storeQueue p | storeClock p =>
    rw [here] at stepped
    cases stepped
    exact ⟨rfl,rfl,fun _ => ⟨rfl,rfl⟩⟩
  | commitEnd reason cursor =>
    rw [here] at stepped
    cases stepped
    cases reason <;> exact ⟨rfl,rfl,nofun⟩
  | ship p | take =>
    rw [here] at stepped
    dsimp only at stepped
    repeat' split at stepped
    all_goals cases stepped
    all_goals exact ⟨rfl,rfl,nofun⟩
  | arm next =>
    rw [here] at stepped
    cases stepped
    cases next with
    | seated p => exact ⟨rfl,rfl,fun _ => ⟨rfl,rfl⟩⟩
    | _ => exact ⟨rfl,rfl,nofun⟩
  | armOdd next epoch =>
    rw [here] at stepped
    cases stepped
    exact ⟨rfl,rfl,nofun⟩
  | arming stores next epoch =>
    rw [here] at stepped
    cases stores with
    | nil =>
      cases stepped
      cases next <;> exact ⟨rfl,rfl,nofun⟩
    | cons store stores =>
      cases stepped
      exact ⟨rfl,rfl,nofun⟩
  | _ =>
    rw [here] at past
    cases past

theorem advance_single {direct full : Bool} {start : Nat} (kept : c.Kept) (single : c.Single q)
    (stepped : c.advance direct start full = some c') : c'.Single q := by
  have knows := kept.knows
  have whole := stepped
  unfold advance at stepped
  cases here : c.pc with
  | idle =>
    rw [here] at stepped
    cases stepped
  | pushBase p | pushCursor p delta =>
    rw [here] at stepped
    cases stepped
    exact single.moves (by rw [here]; rfl) (by simp [Pc.pushing]) rfl
  | pushEnd p delta cursor =>
    rw [here] at stepped
    cases stepped
    split <;> exact single.moves (by rw [here]; rfl) (by simp [Pc.pushing]) rfl
  | pushQueue p delta cursor =>
    rw [here] at stepped knows
    cases stepped
    split
    · rcases single.seat with ⟨_,_,endAt,_⟩ | ⟨producer,_⟩
      · have below := knows.2
        omega
      · exact ⟨nofun,.inr ⟨producer,nofun⟩⟩
    · exact single.moves (by rw [here]; rfl) (by simp [Pc.pushing]) rfl
  | slow p =>
    have own : p.queue = q := single.pushes p (by rw [here]; rfl)
    rw [here] at stepped
    dsimp only at stepped
    split at stepped
    · rename_i owns
      cases stepped
      exact ⟨nofun,.inr ⟨own ▸ owns,nofun⟩⟩
    · rename_i stale
      split at stepped
      · cases stepped
      · cases stepped
        rcases single.seat with ⟨_,blank,_⟩ | ⟨producer,_⟩
        · exact ⟨nofun,.inr ⟨congrArg some own,fun _ => blank⟩⟩
        · exact absurd (own ▸ producer) stale
  | _ =>
    obtain ⟨producer,blank⟩ := single.seated (by rw [here]; simp) (by rw [here]; rfl)
    obtain ⟨same,past,freed⟩ := advance_past (by rw [here]; rfl) whole
    refine ⟨fun p pushing => ?_,.inr ⟨same.trans producer,fun now => ?_⟩⟩
    · rw [past] at pushing
      cases pushing
    · exact (freed now).2.trans (blank (freed now).1)

theorem step_single (kept : c.Kept) (single : c.Single q) {a : WriterAct} (own : ∀ p, a = .push p → p.queue = q)
    (stepped : c.step a = some c') : c'.Single q := by
  cases a with
  | push p =>
    cases here : c.pc with
    | idle =>
      simp only [step,here] at stepped
      cases stepped
      refine ⟨?_,?_⟩
      · intro other same
        cases same
        exact own p rfl
      · rcases single.seat with ⟨producer,cursor,endAt,batch,_⟩ | ⟨producer,_⟩
        · exact .inl ⟨producer,cursor,endAt,batch,.inr (by simp [Pc.pushing])⟩
        · exact .inr ⟨producer,by simp [Pc.freed]⟩
    | _ => simp [step,here] at stepped
  | flush =>
    cases here : c.pc with
    | idle =>
      cases present : c.batch with
      | none =>
        simp only [step,here,present] at stepped
        cases stepped
        exact single
      | some o =>
        have same : c' = {c with pc := .commitCursor .flush} := by simpa [step,here,present] using stepped.symm
        subst same
        rcases single.seat with ⟨_,_,_,batch,_⟩ | ⟨producer,_⟩
        · rw [present] at batch
          cases batch
        · exact ⟨by simp [Pc.pushing],.inr ⟨producer,by simp [Pc.freed]⟩⟩
    | _ => simp [step,here] at stepped
  | step direct start full => exact advance_single kept single stepped

theorem fresh_single (q : Nat) : fresh.Single q := ⟨nofun,.inl ⟨rfl,rfl,rfl,rfl,.inl rfl⟩⟩

end Cell

def Act.on (q : Nat) : Act T R → Bool
  | .writer _ (.push p) => p.queue = q
  | _ => true

def OneQueue (acts : List (Act T R)) : Prop := ∃ q, ∀ act ∈ acts, act.on q = true

theorem Reader.step_clean {r r' : Reader T} {c : Cell} (clean : r.strayed = false) (still : c.dangles = false)
    (stepped : r.step c = some r') : r'.strayed = false := by
  unfold step retry at stepped
  repeat' split at stepped
  all_goals cases stepped
  all_goals first | exact clean | simp [clean,still]

namespace Sys

variable {s s' : Sys T R} {q : Nat}

structure Alone (s : Sys T R) (q : Nat) : Prop where
  sound : s.Sound
  cells : ∀ t, (s.cells t).Single q
  readers : ∀ r reader, s.readers r = some reader → reader.strayed = false

variable [DecidableEq T] [DecidableEq R]

theorem step_alone (alone : s.Alone q) (act : Act T R) (own : act.on q = true) (stepped : s.step act = some s') : s'.Alone q := by
  refine ⟨step_sound alone.sound act stepped,?_,?_⟩
  · cases act with
    | writer t a =>
      obtain ⟨c,moved,rfl⟩ := Option.map_eq_some_iff.mp stepped
      have single : c.Single q := by
        refine Cell.step_single (alone.sound.cells t) (alone.cells t) ?_ moved
        rintro p rfl
        simpa [Act.on] using own
      intro u
      by_cases same : u = t
      · subst u
        dsimp only
        rw [Function.update_self]
        exact single
      · dsimp only
        rw [Function.update_of_ne same]
        exact alone.cells u
    | reuse t memory =>
      obtain ⟨c,moved,_⟩ := Option.map_eq_some_iff.mp stepped
      have dangles := (Option.ite_none_right_eq_some.mp moved).1
      rw [(alone.cells t).clean] at dangles
      cases dangles
    | readTail r t queue =>
      rw [asked stepped]
      exact alone.cells
    | read r =>
      obtain ⟨_,_,_,_,rfl⟩ := read_parts stepped
      exact alone.cells
    | fork t =>
      cases stepped
      intro u
      dsimp only
      split
      · exact alone.cells t
      · exact Cell.fresh_single q
  · intro r found there
    cases act with
    | writer t a | reuse t memory =>
      obtain ⟨c,_,rfl⟩ := Option.map_eq_some_iff.mp stepped
      exact alone.readers r found there
    | readTail asking t queue =>
      rw [asked stepped] at there
      by_cases same : r = asking
      · subst r
        dsimp only at there
        rw [Function.update_self,Option.some.injEq] at there
        rw [← there]
      · dsimp only at there
        rw [Function.update_of_ne same] at there
        exact alone.readers r found there
    | read reading =>
      obtain ⟨reader,next,present,read,rfl⟩ := read_parts stepped
      by_cases same : r = reading
      · subst r
        dsimp only at there
        rw [Function.update_self,Option.some.injEq] at there
        subst found
        exact Reader.step_clean (alone.readers _ _ present) (alone.cells _).clean read
      · dsimp only at there
        rw [Function.update_of_ne same] at there
        exact alone.readers r found there
    | fork t =>
      cases stepped
      cases there

theorem runs_alone {acts : List (Act T R)} (run : Machine.Runs step Machine.anything initial acts s)
    (own : ∀ act ∈ acts, act.on q = true) : s.Alone q :=
  run.among.invariant ⟨initial_sound,fun _ => Cell.fresh_single q,nofun⟩ fun _ act _ alone among stepped =>
    step_alone alone act (own act among) stepped

end Sys

def Cell.Whole (c : Cell) (batch : EventBatch) : Prop :=
  ∃ last ∈ c.armed, batch.baseTicks = last.baseTicks ∧ batch.tid = last.tid ∧ batch.events <+: last.events.map (·.2)

variable [DecidableEq T] [DecidableEq R]

theorem tails_whole {acts : List (Act T R)} {s s' : Sys T R} {r : R} {reader : Reader T} {batch : EventBatch}
    (run : Machine.Runs Sys.step Machine.anything Sys.initial acts s) (there : s.readers r = some reader)
    (stepped : s.step (.read r) = some s') (returned : (s'.readers r).bind Reader.tail = some batch)
    (few : ¬ reader.Lapped (s.cells reader.thread)) (own : OneQueue acts ∨ reader.strayed = false) :
    (s.cells reader.thread).Whole batch := by
  have clean : reader.strayed = false := by
    rcases own with ⟨q,own⟩ | clean
    · exact (Sys.runs_alone run own).readers r reader there
    · exact clean
  have sound := Sys.runs_sound run
  obtain ⟨found,next,same,read,rfl⟩ := Sys.read_parts stepped
  rw [there,Option.some.injEq] at same
  subst found
  dsimp only at returned
  rw [Function.update_self,Option.bind_some] at returned
  obtain ⟨last,front,newest,base,tid,first,events,_⟩ :=
    Reader.returned_shown (sound.cells _) (sound.readers r reader there) read returned few clean
  refine ⟨last,List.mem_of_getLast? newest,base,tid,?_⟩
  rw [events]
  exact first.map _

-- Two pushes to one queue, the second too late for the first one's batch.
def early : Push := ⟨1,5,7,1⟩
def late : Push := ⟨1,8589934597,7,2⟩

def stepping (n start : Nat) : List (Act Nat Nat) := List.replicate n (.writer 0 (.step true start false))

-- One event, and a reader that has loaded the epoch, the cursor and the end.
def halfRead : List (Act Nat Nat) :=
  .writer 0 (.push early) :: stepping 16 4096 ++ .readTail 0 0 1 :: List.replicate 4 (.read 0)

def readRest : List (Act Nat Nat) := List.replicate 4 (.read 0)

theorem tails_whole_one : ∃ s s' : Sys Nat Nat, ∃ batch,
    Machine.Runs Sys.step Machine.anything Sys.initial (halfRead ++ readRest.dropLast) s ∧ s.step (.read 0) = some s' ∧
      (s'.readers 0).bind Reader.tail = some batch ∧ batch.events = [⟨0,1⟩] ∧ (s.cells 0).Whole batch := by
  have checked : ((Machine.run Sys.step (Sys.initial : Sys Nat Nat) (halfRead ++ readRest.dropLast)).bind fun s =>
      (s.readers 0).bind fun reader => (s.step (.read 0)).bind fun s' =>
        if (s'.readers 0).bind Reader.tail = some ⟨5,7,[⟨0,1⟩],1⟩ ∧ reader.thread = 0 ∧
          (s.cells 0).arms = reader.since then some () else none) = some () := by decide +kernel
  obtain ⟨s,ran,checked⟩ := Option.bind_eq_some_iff.mp checked
  obtain ⟨reader,there,checked⟩ := Option.bind_eq_some_iff.mp checked
  obtain ⟨s',stepped,checked⟩ := Option.bind_eq_some_iff.mp checked
  obtain ⟨⟨returned,own,still⟩,_⟩ := Option.ite_none_right_eq_some.mp checked
  have run := Machine.runs_of_run ran
  refine ⟨s,s',_,run,stepped,returned,rfl,?_⟩
  have whole := tails_whole run there stepped returned (Reader.not_lapped (by rw [own]; exact still)) (.inl ⟨1,by decide⟩)
  rwa [own] at whole

theorem writer_runs {acts : List WriterAct} {c c' : Cell} {t : T} {s : Sys T R}
    {ok : Cell → WriterAct → Prop} (run : Machine.Runs Cell.step ok c acts c') (here : s.cells t = c) :
    ∃ s' : Sys T R, Machine.Runs Sys.step Machine.anything s (acts.map (.writer t)) s' ∧ s'.cells t = c' ∧
      s'.readers = s.readers := by
  induction run with
  | nil => exact ⟨s,.nil,here,rfl⟩
  | snoc prior met moved ih =>
    rename_i m a c'
    obtain ⟨s₁,path,cell,readers⟩ := ih
    refine ⟨{s₁ with cells := Function.update s₁.cells t c'},?_,Function.update_self _ _ _,readers⟩
    rw [List.map_append]
    refine path.snoc trivial ?_
    show ((s₁.cells t).step a).map _ = _
    rw [cell,moved]
    rfl

theorem reader_runs {c : Cell} {acts : List Unit} {r : R} {reader reader' : Reader T} {s : Sys T R}
    (run : Machine.Runs (fun reader (_ : Unit) => reader.step c) Machine.anything reader acts reader')
    (there : s.readers r = some reader) (here : s.cells reader.thread = c) :
    ∃ s' : Sys T R, Machine.Runs Sys.step Machine.anything s (acts.map fun _ => .read r) s' ∧ s'.cells = s.cells ∧
      s'.readers r = some reader' ∧ reader'.thread = reader.thread := by
  induction run with
  | nil => exact ⟨s,.nil,rfl,there,rfl⟩
  | snoc prior met moved ih =>
    rename_i m a reader'
    obtain ⟨s₁,path,cells,now,same⟩ := ih
    refine ⟨{s₁ with readers := Function.update s₁.readers r (some reader')},?_,cells,Function.update_self _ _ _,
      (Reader.step_frame moved).1.trans same⟩
    rw [List.map_append]
    refine path.snoc trivial (Option.bind_eq_some_iff.mpr ⟨m,now,Option.bind_eq_some_iff.mpr ⟨reader',?_,rfl⟩⟩)
    rw [same,cells,here]
    exact moved

section Slots

variable {r : Reader T} {c : Cell} {cursor endAt : Nat} {base : UInt64} {tid : UInt32} {events : List PackedEvent}

omit [DecidableEq T] in
theorem slot_loads (here : r.pc = .slots cursor endAt base tid events) (more : events.length < cursor - (endAt - batchN))
    (still : c.dangles = false) :
    r.step c = some {r with pc := .slots cursor endAt base tid (events ++ [c.slots (endAt - batchN + events.length)])} := by
  unfold Reader.step
  rw [here]
  dsimp only
  rw [if_pos more,still,Bool.or_false]

omit [DecidableEq T] in
theorem slots_return (here : r.pc = .slots cursor endAt base tid events) (all : events.length = cursor - (endAt - batchN))
    (same : c.hot.epoch = r.epoch) : r.step c = some {r with pc := .returned (some ⟨base,tid,events,events.length⟩)} := by
  unfold Reader.step
  rw [here]
  exact (if_neg (by omega)).trans (if_neg (not_not.mpr same))

end Slots

-- The thread after its first batch was handed over: an empty one stands at 8192.
def waiting (epoch : UInt64) (arms : Nat) (slots : Nat → PackedEvent) (armed : List Armed) : Cell :=
  ⟨{Hot.empty with cursor := 8192,endAt := 8192+batchN,baseTicks := 5,tid := 7,queueId := 1,clockDirect := true,epoch := epoch},
    some 1,some ⟨8192,.withCapacity batchN 5 7⟩,slots,.idle,arms,armed⟩

def flushing : List WriterAct := .flush :: List.replicate 10 (.step true 8192 false)
def overtaking : List WriterAct := .push late :: List.replicate 15 (.step true 12288 false)

theorem flushes (epoch : UInt64) (arms : Nat) (slots : Nat → PackedEvent) (armed : List Armed) :
    Machine.run Cell.step (waiting epoch arms slots armed) flushing =
      some (waiting (epoch+2) (arms+1) slots (armed ++ [⟨5,7,[]⟩])) := by
  simp [flushing,List.replicate,Machine.run,Cell.step,Cell.advance,Cell.measure,EventBatch.withCapacity,Cell.armStores,
    Store.apply,Cell.afterArm,waiting]

theorem overtakes (epoch : UInt64) (arms : Nat) (slots : Nat → PackedEvent) (armed : List Armed) :
    ∃ c,Machine.run Cell.step (waiting epoch arms slots armed) overtaking = some c ∧ c.hot.epoch = epoch+2 ∧
      c.hot.baseTicks = late.ticks ∧ c.hot.tid = 7 ∧ c.slots = slots ∧ c.armed = armed ++ [⟨late.ticks,7,[]⟩] ∧
      c.dangles = false := by
  simp [Cell.dangles,Pc.freed,overtaking,late,List.replicate,Machine.run,Cell.step,Cell.advance,Cell.measure,EventBatch.withCapacity,
    Cell.renew,Cell.armStores,Store.apply,Cell.afterArm,waiting,batchN,deltaOverflow]

def Flushed (n : Nat) (c : Cell) : Prop :=
  ∃ slots armed, c = waiting (.ofNat (2*(n+2))) (n+2) slots armed ∧ slots 4096 = ⟨0,1⟩ ∧ ∀ last ∈ armed, last.baseTicks = 5

theorem flushed_again (n : Nat) (c : Cell) (flushed : Flushed n c) :
    ∃ acts c', Machine.Runs Cell.step (fun _ a => ∀ p, a ≠ .push p) c acts c' ∧ Flushed (n+1) c' := by
  obtain ⟨slots,armed,rfl,slot,bases⟩ := flushed
  have epoch : UInt64.ofNat (2*(n+2)) + 2 = .ofNat (2*(n+1+2)) := by
    rw [show 2*(n+1+2) = 2*(n+2) + 2 by omega,UInt64.ofNat_add]
    rfl
  have flushed := (Machine.runs_of_run (flushes (.ofNat (2*(n+2))) (n+2) slots armed)).among
  refine ⟨flushing,_,flushed.mono ?_,slots,armed ++ [⟨5,7,[]⟩],by rw [epoch],slot,?_⟩
  · rintro _ a among p rfl
    simp [flushing] at among
  intro last among
  rcases List.mem_append.mp among with before | now
  · exact bases last before
  · rw [List.mem_singleton.mp now]

def handing : List (Act Nat Nat) := .writer 0 .flush :: stepping 11 8192

theorem hands : ∃ s : Sys Nat Nat, Machine.run Sys.step Sys.initial (halfRead ++ handing) = some s ∧
    s.readers 0 = some ⟨0,1,tailRetries,2,1,false,.baseTicks 4097 5120⟩ ∧ Flushed 0 (s.cells 0) := by
  have checked : ((Machine.run Sys.step (Sys.initial : Sys Nat Nat) (halfRead ++ handing)).bind fun s =>
      if s.readers 0 = some ⟨0,1,tailRetries,2,1,false,.baseTicks 4097 5120⟩ ∧
          (let c := s.cells 0
          c.hot = (waiting 4 2 c.slots []).hot ∧ c.producer = some 1 ∧ c.batch = (waiting 4 2 c.slots []).batch ∧
            c.pc = .idle ∧ c.arms = 2 ∧ c.slots 4096 = ⟨0,1⟩ ∧ ∀ last ∈ c.armed, last.baseTicks = 5)
        then some () else none) = some () := by decide +kernel
  obtain ⟨s,ran,checked⟩ := Option.bind_eq_some_iff.mp checked
  obtain ⟨⟨reader,hot,producer,batch,pc,arms,slot,bases⟩,_⟩ := Option.ite_none_right_eq_some.mp checked
  refine ⟨s,ran,reader,(s.cells 0).slots,(s.cells 0).armed,?_,slot,bases⟩
  calc
    s.cells 0 = ⟨(s.cells 0).hot,(s.cells 0).producer,(s.cells 0).batch,(s.cells 0).slots,(s.cells 0).pc,(s.cells 0).arms,
        (s.cells 0).armed⟩ := rfl
    _ = waiting 4 2 (s.cells 0).slots (s.cells 0).armed := by
      rw [hot,producer,batch,pc,arms]
      rfl

-- `2^63` arms later the epoch is the one the reader has loaded, and it takes the new base for
-- the old event.
theorem tails_torn : ∃ acts : List (Act Nat Nat), ∃ s s' : Sys Nat Nat, ∃ reader batch, OneQueue acts ∧
    Machine.Runs Sys.step Machine.anything Sys.initial acts s ∧ s.readers 0 = some reader ∧ s.step (.read 0) = some s' ∧
      (s'.readers 0).bind Reader.tail = some batch ∧ ¬ (s.cells reader.thread).Whole batch := by
  obtain ⟨s₁,ran,half,flushed⟩ := hands
  obtain ⟨acts,c,flushes,slots,armed,rfl,slot,bases⟩ := Machine.Runs.again flushed_again (2^63-2) flushed
  obtain ⟨s₂,second,cell₂,readers₂⟩ := writer_runs flushes rfl
  obtain ⟨last,overtaken,epoch,baseTicks,tid,kept,grown,still⟩ := overtakes (.ofNat (2*(2^63-2+2))) (2^63-2+2) slots armed
  obtain ⟨s₃,third,cell₃,readers₃⟩ := writer_runs (Machine.runs_of_run overtaken) cell₂
  rw [readers₂] at readers₃
  have there : s₃.readers 0 = some ⟨0,1,tailRetries,2,1,false,.baseTicks 4097 5120⟩ := by rw [readers₃,half]
  have event := slot_loads (r := (⟨0,1,tailRetries,2,1,false,.slots 4097 5120 last.hot.baseTicks last.hot.tid []⟩ : Reader Nat))
    (c := last) rfl Nat.zero_lt_one still
  have loads : Machine.Runs (fun (reader : Reader Nat) (_ : Unit) => reader.step last) Machine.anything
      ⟨0,1,tailRetries,2,1,false,.baseTicks 4097 5120⟩ [(),(),()]
      ⟨0,1,tailRetries,2,1,false,.slots 4097 5120 last.hot.baseTicks last.hot.tid [last.slots 4096]⟩ :=
    .cons trivial rfl (.cons trivial rfl (.cons trivial event .nil))
  rw [baseTicks,tid,kept,slot] at loads
  obtain ⟨s₄,fourth,cells₄,full,_⟩ := reader_runs loads there cell₃
  have lap : last.hot.epoch = 2 := epoch.trans (by decide +kernel)
  have returns : Reader.step ⟨0,1,tailRetries,2,1,false,.slots 4097 5120 late.ticks 7 [⟨0,1⟩]⟩ (s₄.cells 0) =
      some ⟨0,1,tailRetries,2,1,false,.returned (some ⟨late.ticks,7,[⟨0,1⟩],1⟩)⟩ := by
    rw [cells₄,cell₃]
    exact slots_return rfl rfl lap
  have stepped : s₄.step (.read 0) = some _ :=
    Option.bind_eq_some_iff.mpr ⟨_,full,Option.bind_eq_some_iff.mpr ⟨_,returns,rfl⟩⟩
  have run := (((Machine.runs_of_run ran).append second).append third).append fourth
  refine ⟨_,s₄,_,_,⟨late.ticks,7,[⟨0,1⟩],1⟩,⟨1,?_⟩,run,full,stepped,by dsimp only; rw [Function.update_self]; rfl,?_⟩
  · have first : ∀ act ∈ halfRead ++ handing, act.on 1 = true := by decide
    have second : ∀ act ∈ overtaking.map (Act.writer 0 : _ → Act Nat Nat), act.on 1 = true := by decide
    have third : ∀ act ∈ acts.map (Act.writer 0 : _ → Act Nat Nat), act.on 1 = true := by
      intro act present
      obtain ⟨a,among,rfl⟩ := List.mem_map.mp present
      cases a with
      | push p => exact absurd rfl (flushes.each _ among p)
      | _ => rfl
    intro act present
    rcases List.mem_append.mp present with earlier | read
    · rcases List.mem_append.mp earlier with earlier | overtakes
      · exact (List.mem_append.mp earlier).elim (first act) (third act)
      · exact second act overtakes
    · obtain ⟨_,_,rfl⟩ := List.mem_map.mp read
      rfl
  rintro ⟨own,among,base,_,events⟩
  rw [cells₄,cell₃,grown] at among
  rcases List.mem_append.mp among with before | now
  · rw [bases own before] at base
    cases base
  · rw [List.mem_singleton.mp now] at events
    cases List.prefix_nil.mp events

end Trace0.Tails
