import Trace0.Lib.Machine
import Trace0.Steps

namespace Trace0

variable {T : Type} [DecidableEq T]

-- The calls of the source run to their end, one after another, on any threads.
inductive Call (T : Type) where
  | push (t : T) (run : Nat) (ticks : UInt64) (codeId : UInt32) (kind : EventKind)
  | flush (t : T)
  | drain (limit : Nat)

def Call.Valid : Call T → Prop
  | .push _ _ _ codeId _ => codeId ≤ codeIdMax
  | .flush _ | .drain _ => True

instance (c : Call T) : Decidable c.Valid :=
  match c with
  | .push _ _ _ codeId _ => inferInstanceAs (Decidable (codeId ≤ codeIdMax))
  | .flush _ | .drain _ => isTrue trivial

def Call.logged : Call T → List (T × UInt64 × UInt32)
  | .push t _ ticks codeId kind => [(t,ticks,packCodeKind codeId kind)]
  | .flush _ | .drain _ => []

def pushesOf (tidOf : T → UInt32) (t : T) (calls : List (Call T)) :
    List (UInt64 × UInt32 × UInt32 × EventKind) :=
  calls.flatMap fun
    | .push u _ ticks codeId kind => if u = t then [(ticks,tidOf t,codeId,kind)] else []
    | .flush _ | .drain _ => []

def EventBatch.decoded (b : EventBatch) : List (UInt64 × UInt32 × UInt32 × EventKind) :=
  b.events.map fun p => (b.baseTicks + p.deltaTicks.toUInt64,b.tid,p.codeId,p.kind)

def Local.openBatch (l : Local T) : List EventBatch :=
  match l.cold.batch with
  | none => []
  | some o => [{o.batch with events := l.window}]

namespace World

def callPush (tidOf : T → UInt32) (w : World T) (t : T) (run : Nat) (ticks : UInt64)
    (codeId : UInt32) (kind : EventKind) : Option (World T) := do
  let w ← w.step tidOf (.push t run ticks codeId kind)
  if w.stage t = .idle then some w
  else
    let w ← w.step tidOf (.arm t)
    w.step tidOf (.write t)

-- `record_dropped` is given what the flush returned: what it added to `lost`.
def callFlush (tidOf : T → UInt32) (w : World T) (t : T) : Option (World T) := do
  let before := w.ledger.lost
  let w ← w.step tidOf (.flush t)
  let w ← w.step tidOf (.take t)
  let w ← (if w.stage t = .idle then some w else w.step tidOf (.arm t))
  let w ← (if w.stage t = .idle then some w else w.step tidOf (.handOver t))
  w.step tidOf (.recordDropped (w.ledger.lost - before))

def call (tidOf : T → UInt32) (w : World T) : Call T → Option (World T)
  | .push t run ticks codeId kind => w.callPush tidOf t run ticks codeId kind
  | .flush t => w.callFlush tidOf t
  | .drain limit => w.step tidOf (.drain limit)

end World

variable {tidOf : T → UInt32} {w w' : World T} {t u : T}

theorem callPush_source (idle : w.stage t = .idle)
    (called : w.callPush tidOf t run ticks codeId kind = some w') :
    w.queue.pushWithCtx t (w.threads t) run ticks (tidOf t) codeId kind =
      some (w'.queue,w'.threads t) := by
  unfold World.callPush at called
  obtain ⟨m,first,rest⟩ := Option.bind_eq_some_iff.mp called
  simp only [World.step,idle,if_true] at first
  unfold World.pushStep at first
  dsimp only at first
  unfold EventQueue.pushWithCtx
  dsimp only
  split at first
  · rename_i hit
    obtain ⟨l,wrote,rfl⟩ := Option.map_eq_some_iff.mp first
    simp only [World.logPushed,World.put,Function.update_self,if_true] at rest
    cases Option.some.inj rest
    simp only [hit,if_true,wrote,Option.map_some,Function.update_self]
  · rename_i miss
    rw [if_neg miss]
    unfold EventQueue.slowPath
    split at first
    · rename_i stale
      cases Option.some.inj first
      simp only [World.register,World.withQueue,World.put,Function.update_self,World.step,
        reduceCtorEq,if_false,Option.bind_eq_bind,Option.bind_some] at rest
      obtain ⟨l,wrote,rfl⟩ := Option.map_eq_some_iff.mp rest
      simp [stale,EventQueue.initProducer,wrote,World.logPushed]
    · rename_i fresh
      obtain ⟨⟨q,l,accepted,full⟩,shipped,rfl⟩ := Option.map_eq_some_iff.mp first
      simp only [World.logShipped,World.withQueue,World.put,Function.update_self,World.step,
        reduceCtorEq,if_false,Option.bind_eq_bind,Option.bind_some] at rest
      obtain ⟨l,wrote,rfl⟩ := Option.map_eq_some_iff.mp rest
      simp [fresh,EventQueue.shipAndRenew,shipped,wrote,World.logPushed]

theorem callFlush_source (idle : w.stage t = .idle) (called : w.callFlush tidOf t = some w') :
    ∃ q lost, flushPartial w.queue (w.threads t) = some (q,w'.threads t,lost) ∧
      w'.queue = q.recordDropped lost := by
  unfold World.callFlush at called
  obtain ⟨m,first,rest⟩ := Option.bind_eq_some_iff.mp called
  simp only [World.step,idle,if_true] at first
  obtain ⟨l,committed,rfl⟩ := Option.map_eq_some_iff.mp first
  simp only [World.step,World.put,Function.update_self,Option.bind_eq_bind,Option.bind_some] at rest
  unfold flushPartial
  simp only [committed,Option.bind_eq_bind,Option.bind_some]
  unfold World.takeStep at rest
  simp only [Function.update_self] at rest
  split at rest
  · simp only [World.put,Function.update_self,Stage.done,Bool.false_eq_true,if_false,if_true,
      Option.bind_some,Option.some.injEq] at rest
    subst rest
    exact ⟨w.queue,0,by simp,by simp⟩
  · simp only [World.put,Function.update_self,Stage.done,Bool.false_eq_true,if_false,if_true,
      reduceCtorEq,Option.bind_some,Option.some.injEq] at rest
    subst rest
    exact ⟨w.queue,0,by simp,by simp⟩
  · rename_i full _
    simp only [World.put,Function.update_self,reduceCtorEq,if_false,Option.bind_some] at rest
    obtain ⟨m,handed,rest⟩ := Option.bind_eq_some_iff.mp rest
    unfold World.handOverStep at handed
    simp only [World.put,Function.update_self] at handed
    obtain ⟨producer,present,handed⟩ := Option.bind_eq_some_iff.mp handed
    cases Option.some.inj rest
    split at handed
    · rename_i q accepted
      cases Option.some.inj handed
      refine ⟨q,0,?_,by simp [World.logShipped,World.withQueue]⟩
      simp only [present,accepted,Option.bind_some,World.logShipped,World.withQueue,
        Function.update_self]
    · rename_i refused
      cases Option.some.inj handed
      refine ⟨w.queue,full.events.length,?_,by simp [World.logShipped,World.logLost]⟩
      simp only [present,refused,Option.bind_some,World.logShipped,World.logLost,
        Function.update_self]

-- Between calls: no thread inside one, and every flush's loss given to the counter.
structure Calm (tidOf : T → UInt32) (w : World T) : Prop where
  sound : Sound tidOf w
  quiet : ∀ t, w.stage t = .idle
  settled : w.ledger.lost = w.ledger.recorded
  present : w.ledger.exitLost = 0

theorem push_enabled (sound : Sound tidOf w) (idle : w.stage t = .idle) (run : Nat) (ticks : UInt64)
    (codeId : UInt32) (kind : EventKind) :
    ∃ m, w.step tidOf (.push t run ticks codeId kind) = some m := by
  simp only [World.step,idle,if_true,World.pushStep]
  split
  · rename_i hit
    obtain ⟨o,armed,_⟩ := fast_armed (sound.threads t) idle hit
    obtain ⟨l,wrote⟩ := writeSlot_enabled armed
      ⟨(ticks - (w.threads t).hot.baseTicks).toUInt32,packCodeKind codeId kind⟩
    exact ⟨_,Option.map_eq_some_iff.mpr ⟨l,wrote,rfl⟩⟩
  · split
    · exact ⟨_,rfl⟩
    · rename_i fresh
      obtain ⟨producer,_⟩ := (stale_producer sound).2 (Bool.eq_false_iff.mpr fresh)
      obtain ⟨o,armed,_⟩ := idle_armed sound idle producer
      unfold EventQueue.ship
      simp only [commit_armed armed,producer,Option.bind_eq_bind,Option.bind_some]
      split <;> exact ⟨_,rfl⟩

theorem push_stops (sound : Sound tidOf w) (idle : w.stage t = .idle)
    (stepped : w.step tidOf (.push t run ticks codeId kind) = some w') :
    (∀ u, u ≠ t → w'.stage u = w.stage u) ∧
    (w'.stage t = .idle ∧
        w'.ledger = {w.ledger with
          pushed := w.ledger.pushed ++ [(t,ticks,packCodeKind codeId kind)]} ∨
      w'.stage t = .renewed ticks (packCodeKind codeId kind) ∧
        ∃ shipped, w'.ledger = {w.ledger with shipped := shipped}) := by
  simp only [World.step,idle,if_true] at stepped
  rcases pushStep_cases sound idle stepped with
    ⟨_,l',_,rfl⟩ | ⟨_,_,_,rfl⟩ | ⟨_,_,o,o',brk',q',accepted,_,_,_,_,_,rfl⟩
  · refine ⟨fun u other => ?_,.inl ⟨?_,rfl⟩⟩
    · simp [World.logPushed,World.put,other]
    · simp [World.logPushed,World.put]
  · refine ⟨fun u other => ?_,.inr ⟨?_,_,rfl⟩⟩
    · simp [World.register,World.withQueue,World.put,other]
    · simp [World.register,World.withQueue,World.put]
  · refine ⟨fun u other => ?_,.inr ⟨?_,_,rfl⟩⟩
    · simp [World.logShipped,World.withQueue,World.put,other]
    · simp [World.logShipped,World.withQueue,World.put]

theorem callPush_calm (calm : Calm tidOf w) (t : T) (run : Nat) (ticks : UInt64) (codeId : UInt32)
    (kind : EventKind) : ∃ w', w.callPush tidOf t run ticks codeId kind = some w' ∧ Calm tidOf w' ∧
      w'.ledger.pushed = w.ledger.pushed ++ [(t,ticks,packCodeKind codeId kind)] := by
  obtain ⟨m,first⟩ := push_enabled calm.sound (calm.quiet t) run ticks codeId kind
  have sound := step_sound calm.sound first
  obtain ⟨others,stops⟩ := push_stops calm.sound (calm.quiet t) first
  unfold World.callPush
  simp only [first,Option.bind_eq_bind,Option.bind_some]
  rcases stops with ⟨idle,ledger⟩ | ⟨renewed,shipped,ledger⟩
  · refine ⟨m,by simp [idle],⟨sound,fun u => ?_,?_,?_⟩,by rw [ledger]⟩
    · by_cases same : u = t
      · exact same ▸ idle
      · rw [others u same,calm.quiet u]
    · rw [ledger]; exact calm.settled
    · rw [ledger]; exact calm.present
  · have armed : m.step tidOf (.arm t) =
        some (m.put t (m.threads t).arm (.armed ticks (packCodeKind codeId kind))) := by
      simp [World.step,renewed]
    have soundArmed := step_sound sound armed
    have standing := (soundArmed.threads t).standing
    simp only [Standing,World.view,World.put,Function.update_self] at standing
    obtain ⟨o,armedLocal,_⟩ := standing
    obtain ⟨l,wrote⟩ := writeSlot_enabled armedLocal ⟨0,packCodeKind codeId kind⟩
    have written : (m.put t (m.threads t).arm (.armed ticks (packCodeKind codeId kind))).step tidOf
        (.write t) = some (((m.put t (m.threads t).arm
          (.armed ticks (packCodeKind codeId kind))).put t l .idle).logPushed t ticks
            (packCodeKind codeId kind)) := by
      simp [World.step,World.put,wrote]
    refine ⟨_,by simpa [renewed,armed] using written,
      ⟨step_sound soundArmed written,fun u => ?_,?_,?_⟩,?_⟩
    · by_cases same : u = t
      · subst u
        simp [World.logPushed,World.put]
      · simp [World.logPushed,World.put,same,others u same,calm.quiet u]
    · simpa [World.logPushed,World.put,ledger] using calm.settled
    · simpa [World.logPushed,World.put,ledger] using calm.present
    · simp [World.logPushed,World.put,ledger]

theorem flush_enabled (sound : Sound tidOf w) (idle : w.stage t = .idle) :
    ∃ l, (w.threads t).commit = some l := by
  by_cases none : Unseated (w.threads t)
  · exact ⟨_,commit_unseated none⟩
  · obtain ⟨o,armed,_⟩ := (sound.threads t).standing.armed (.inl idle) none
    exact ⟨_,commit_armed armed⟩

-- `take` and what follows it, up to the hand-over: the thread is idle again with nothing
-- lost, or has a batch in hand and its ring to offer it to.
theorem flush_taken (sound : Sound tidOf w) (stage : w.stage t = .committed false) :
    ∃ y m, w.step tidOf (.take t) = some y ∧
      (if y.stage t = .idle then some y else y.step tidOf (.arm t)) = some m ∧
      Sound tidOf m ∧ m.ledger = w.ledger ∧ (∀ u, u ≠ t → m.stage u = w.stage u) ∧
      (m.stage t = .idle ∨ ∃ full, m.stage t = .rearmed false full) := by
  have taken : w.step tidOf (.take t) = some (w.takeStep t false) := by simp [World.step,stage]
  have soundTaken := step_sound sound taken
  have rearm (l : Local T) (s s' : Stage) (busy : s ≠ .idle)
      (armed : (w.put t l s).step tidOf (.arm t) = some ((w.put t l s).put t l.arm s'))
      (before : Sound tidOf (w.put t l s)) (ends : s' = .idle ∨ ∃ full, s' = .rearmed false full) :
      ∃ m, (if (w.put t l s).stage t = .idle then some (w.put t l s)
          else (w.put t l s).step tidOf (.arm t)) = some m ∧
        Sound tidOf m ∧ m.ledger = w.ledger ∧ (∀ u, u ≠ t → m.stage u = w.stage u) ∧
        (m.stage t = .idle ∨ ∃ full, m.stage t = .rearmed false full) := by
    refine ⟨_,?_,step_sound before armed,rfl,fun u other => ?_,?_⟩
    · rw [if_neg (by simpa [World.put] using busy),armed]
    · simp [World.put,other]
    · simpa [World.put] using ends
  refine ⟨w.takeStep t false,?_⟩
  rw [taken]
  simp only [true_and]
  unfold World.takeStep at soundTaken ⊢
  split at soundTaken
  · refine ⟨_,if_pos (by simp [World.put,Stage.done]),soundTaken,rfl,fun u other => ?_,.inl ?_⟩
    · simp [World.put,other]
    · simp [World.put,Stage.done]
  · exact rearm _ _ .idle (by simp) (by simp [World.step,World.put,Stage.done]) soundTaken (.inl rfl)
  · rename_i full _
    exact rearm _ _ (.rearmed false full) (by simp) (by simp [World.step,World.put]) soundTaken
      (.inr ⟨full,rfl⟩)

theorem handOver_enabled (sound : Sound tidOf w) (stage : w.stage t = .rearmed leaving full) :
    ∃ m, w.step tidOf (.handOver t) = some m := by
  have standing := (sound.threads t).standing
  simp only [Standing,World.view,stage] at standing
  obtain ⟨_,_,o,armed,_⟩ := standing
  have producer : (w.threads t).cold.producer = some (w.queue.id,t) :=
    ((sound.threads t).seat.resolve_left fun absent => armed.seated absent.2).1
  simp only [World.step,stage,World.handOverStep,producer,Option.bind_eq_bind,Option.bind_some]
  split <;> exact ⟨_,rfl⟩

theorem calm_recorded (sound : Sound tidOf m) (quiet : ∀ u, m.stage u = .idle)
    (settled : w.ledger.lost = w.ledger.recorded) (before : w.ledger.lost ≤ m.ledger.lost)
    (recorded : m.ledger.recorded = w.ledger.recorded) (present : m.ledger.exitLost = 0) :
    ∃ w', m.step tidOf (.recordDropped (m.ledger.lost - w.ledger.lost)) = some w' ∧
      Calm tidOf w' ∧ w'.ledger.pushed = m.ledger.pushed := by
  refine ⟨_,rfl,⟨step_sound (a := .recordDropped (m.ledger.lost - w.ledger.lost)) sound rfl,
    quiet,?_,present⟩,rfl⟩
  simp only [recorded]
  omega

theorem callFlush_calm (calm : Calm tidOf w) (t : T) : ∃ w', w.callFlush tidOf t = some w' ∧
    Calm tidOf w' ∧ w'.ledger.pushed = w.ledger.pushed := by
  obtain ⟨l,committed⟩ := flush_enabled calm.sound (calm.quiet t)
  have flushed : w.step tidOf (.flush t) = some (w.put t l (.committed false)) := by
    simp [World.step,calm.quiet t,committed]
  have others (u : T) (other : u ≠ t) : (w.put t l (.committed false)).stage u = .idle := by
    simp [World.put,other,calm.quiet u]
  obtain ⟨y,m,took,taken,sound,ledger,same,ends⟩ :=
    flush_taken (t := t) (step_sound calm.sound flushed) (by simp [World.put])
  have ledger : m.ledger = w.ledger := ledger
  unfold World.callFlush
  simp only [flushed,took,taken,Option.bind_eq_bind,Option.bind_some]
  rcases ends with idle | ⟨full,stage⟩
  · have quiet (u : T) : m.stage u = .idle := by
      by_cases here : u = t
      · exact here ▸ idle
      · rw [same u here,others u here]
    obtain ⟨w',recorded,calm',pushed⟩ := calm_recorded sound quiet calm.settled
      (by rw [ledger]) (by rw [ledger]) (by rw [ledger]; exact calm.present)
    exact ⟨w',by simpa [idle] using recorded,calm',by rw [pushed,ledger]⟩
  · obtain ⟨n,handed⟩ := handOver_enabled sound stage
    have stepped := handed
    simp only [World.step,stage] at stepped
    obtain ⟨q,accepted,_,_,rfl⟩ := handOver_cases sound stage stepped
    have quiet (u : T) : ((((m.put t (m.threads t) (.done false)).withQueue q).logShipped t accepted
        full).logLost false (if accepted then 0 else full.events.length)).stage u = .idle := by
      by_cases here : u = t
      · subst u
        simp [World.logLost,World.logShipped,World.withQueue,World.put,Stage.done]
      · simp [World.logLost,World.logShipped,World.withQueue,World.put,here,same u here,calm.quiet u]
    obtain ⟨w',recorded,calm',pushed⟩ := calm_recorded (step_sound sound handed) quiet calm.settled
      (by simp [World.logLost,World.logShipped,World.withQueue,World.put,ledger])
      (by simp [World.logLost,World.logShipped,World.withQueue,World.put,ledger])
      (by simpa [World.logLost,World.logShipped,World.withQueue,World.put,ledger] using calm.present)
    refine ⟨w',by simpa [stage,handed] using recorded,calm',?_⟩
    rw [pushed]
    simp [World.logLost,World.logShipped,World.withQueue,World.put,ledger]

theorem call_calm (calm : Calm tidOf w) (c : Call T) : ∃ w', w.call tidOf c = some w' ∧
    Calm tidOf w' ∧ w'.ledger.pushed = w.ledger.pushed ++ c.logged := by
  cases c with
  | push t run ticks codeId kind => exact callPush_calm calm t run ticks codeId kind
  | flush t => simpa only [World.call,Call.logged,List.append_nil] using callFlush_calm calm t
  | drain limit =>
    refine ⟨_,rfl,⟨step_sound (a := .drain limit) calm.sound rfl,calm.quiet,?_,?_⟩,by simp [Call.logged]⟩
    · exact calm.settled
    · exact calm.present

theorem calls_calm (calm : Calm tidOf w) (calls : List (Call T)) :
    ∃ w', Machine.run (World.call tidOf) w calls = some w' ∧ Calm tidOf w' ∧
      w'.ledger.pushed = w.ledger.pushed ++ calls.flatMap Call.logged := by
  induction calls generalizing w with
  | nil => exact ⟨w,rfl,calm,by simp⟩
  | cons c calls ih =>
    obtain ⟨m,called,calmNext,logged⟩ := call_calm calm c
    obtain ⟨w',ran,calm',pushed⟩ := ih calmNext
    refine ⟨w',?_,calm',?_⟩
    · simp only [Machine.run,called,Option.bind_some,ran]
    · rw [pushed,logged,List.flatMap_cons,List.append_assoc]

def decodeEntry (tid : UInt32) (e : UInt64 × UInt32) : UInt64 × UInt32 × UInt32 × EventKind :=
  (e.1,tid,codeIdOf e.2,kindOf e.2)

theorem decoded_entries (b : EventBatch) : b.decoded = b.entries.map (decodeEntry b.tid) := by
  simp [EventBatch.decoded,EventBatch.entries,decodeEntry,PackedEvent.codeId,PackedEvent.kind]

theorem openBatch_decoded (calm : Calm tidOf w) (t : T) :
    (w.threads t).openBatch.flatMap (·.decoded) = (w.threads t).written.map (decodeEntry (tidOf t)) := by
  by_cases none : Unseated (w.threads t)
  · simp [Local.openBatch,none.batch,none.written]
  · obtain ⟨o,armed,tidEq⟩ := (calm.sound.threads t).standing.armed (.inl (calm.quiet t)) none
    have entries := window_entries armed
    have held : (w.threads t).cold.batch = some o := armed.held
    have tidEq : o.batch.tid = tidOf t := tidEq
    simp only [Local.openBatch,held,List.flatMap_cons,List.flatMap_nil,List.append_nil]
    rw [decoded_entries,tidEq]
    exact congrArg _ entries

theorem pushesOf_logged (t : T) {calls : List (Call T)} (valid : ∀ c ∈ calls, c.Valid) :
    pushesOf tidOf t calls =
      (ownedBy t (calls.flatMap Call.logged)).map (decodeEntry (tidOf t)) := by
  induction calls with
  | nil => rfl
  | cons c calls ih =>
    have rest := ih fun d present => valid d (List.mem_cons_of_mem _ present)
    have first := valid c List.mem_cons_self
    rw [List.flatMap_cons,ownedBy_append,List.map_append,← rest]
    cases c with
    | push u run ticks codeId kind =>
      by_cases same : u = t <;>
        simp [pushesOf,Call.logged,same,decodeEntry,mask_of_le codeId first]
    | flush u => simp [pushesOf,Call.logged]
    | drain limit => simp [pushesOf,Call.logged]

theorem calls_conserve (tidOf : T → UInt32) (id : Nat) (clock : Clock) (calls : List (Call T))
    (valid : ∀ c ∈ calls, c.Valid) :
    ∃ w, Machine.run (World.call tidOf) (.initial id clock) calls = some w ∧
      w.queue.dropped = rejectedEvents w.ledger.shipped ∧
      ∀ t, acceptedOf (ownedBy t w.ledger.shipped) = ownedBy t w.ledger.drained ++ w.queue.held t ∧
        ((ownedBy t w.ledger.shipped).map (·.2) ++ (w.threads t).openBatch).flatMap (·.decoded) =
          pushesOf tidOf t calls := by
  have start : Calm tidOf (.initial id clock) :=
    ⟨initial_sound id clock,fun _ => rfl,rfl,rfl⟩
  obtain ⟨w,ran,calm,pushed⟩ := calls_calm start calls
  refine ⟨w,ran,?_,fun t => ⟨(calm.sound.threads t).kept,?_⟩⟩
  · have balance := calm.sound.balance
    have settled := calm.settled
    have present := calm.present
    omega
  · have told := (calm.sound.threads t).told
    simp only [World.view,View.inHand,calm.quiet t,pushed] at told
    have handed : ((ownedBy t w.ledger.shipped).map (·.2)).flatMap (·.decoded) =
        (handed (ownedBy t w.ledger.shipped)).map (decodeEntry (tidOf t)) := by
      rw [handed,List.map_flatMap,List.flatMap_map]
      refine List.flatMap_congr fun s present => ?_
      rw [decoded_entries,((calm.sound.threads t).shape s present).1]
    rw [List.flatMap_append,handed,openBatch_decoded calm,← List.map_append,told,
      pushesOf_logged t valid]
    rfl

theorem calls_conserve_jumps :
    let calls : List (Call Unit) := [.push () 1 100 7 .Begin,.push () 1 40 7 .Yield,
      .push () 1 0x100000028 7 .Resume,.push () 0 0x100000029 7 .End,.flush (),.drain 2]
    ∃ w, Machine.run (World.call fun _ => 3) (.initial 1 .mock) calls = some w ∧
      w.queue.dropped = rejectedEvents w.ledger.shipped ∧
      ∀ t, acceptedOf (ownedBy t w.ledger.shipped) = ownedBy t w.ledger.drained ++ w.queue.held t ∧
        ((ownedBy t w.ledger.shipped).map (·.2) ++ (w.threads t).openBatch).flatMap (·.decoded) =
          [(100,3,7,.Begin),(40,3,7,.Yield),(0x100000028,3,7,.Resume),(0x100000029,3,7,.End)] :=
  calls_conserve (fun _ => 3) 1 .mock _ (by decide)

end Trace0
