import Trace0.Bystanders
import Trace0.Conservation

namespace Trace0

variable {T : Type} [DecidableEq T]

-- What its own calls say of the batch a thread has open: the base ticks, the events written to
-- it, and whether a batch of the same base ticks was handed over before.
structure Opening where
  base : UInt64
  count : Nat
  again : Bool

def Call.thread : Call T → Option T
  | .push t _ _ _ _ | .flush t => some t
  | .drain _ => none

def Opening.after (id : Nat) : Option Opening → Call T → Option Opening
  | none,.push _ _ ticks _ _ => some ⟨ticks,1,false⟩
  | some o,.push _ run ticks _ _ =>
    if o.count < batchN ∧ run = id ∧ ticks - o.base ≤ deltaOverflow then some {o with count := o.count+1}
    else some ⟨ticks,1,ticks = o.base⟩
  | o,.flush _ => o.map fun o => if o.count = 0 then o else {o with count := 0,again := true}
  | o,.drain _ => o

def opening (id : Nat) (t : T) (calls : List (Call T)) : Option Opening :=
  (calls.filter (·.thread = some t)).foldl (Opening.after id) none

-- What a push does to its thread: the event goes behind the others, into a first batch, or
-- into a new one after the open one was handed over.
inductive Enters (id run : Nat) (ticks : UInt64) (v v' : View T) : Prop where
  | fits (room : v.l.window.length < batchN) (own : run = id) (near : ticks - v.l.hot.baseTicks ≤ deltaOverflow)
      (seated : ¬Unseated v.l) (base : v'.l.hot.baseTicks = v.l.hot.baseTicks)
      (count : v'.l.window.length = v.l.window.length + 1) (shipped : v'.shipped = v.shipped)
  | opens (unseated : Unseated v.l) (base : v'.l.hot.baseTicks = ticks) (count : v'.l.window.length = 1)
      (shipped : v'.shipped = v.shipped)
  | renews (miss : ¬(v.l.window.length < batchN ∧ run = id ∧ ticks - v.l.hot.baseTicks ≤ deltaOverflow))
      (seated : ¬Unseated v.l) (base : v'.l.hot.baseTicks = ticks) (count : v'.l.window.length = 1)
      (shipped : ∃ accepted b, v'.shipped = v.shipped ++ [(accepted,b)] ∧ b.baseTicks = v.l.hot.baseTicks)

inductive Empties (v v' : View T) : Prop where
  | nothing (empty : v.l.window = []) (empty' : v'.l.window = []) (seated : Unseated v'.l ↔ Unseated v.l)
      (base : v'.l.hot.baseTicks = v.l.hot.baseTicks) (shipped : v'.shipped = v.shipped)
  | hands (some_ : v.l.window ≠ []) (empty' : v'.l.window = []) (seated : ¬Unseated v.l) (seated' : ¬Unseated v'.l)
      (base : v'.l.hot.baseTicks = v.l.hot.baseTicks)
      (shipped : ∃ accepted b, v'.shipped = v.shipped ++ [(accepted,b)] ∧ b.baseTicks = v.l.hot.baseTicks)

variable {tidOf : T → UInt32} {w w' : World T} {t : T}

omit [DecidableEq T] in
theorem renewed_writes {l l' : Local T} {o : OpenBatch} {base : UInt64} {tid : UInt32} {event : PackedEvent}
    (held : l.cold.batch = some o) (blank : Blank o base tid) (wrote : EventQueue.writeSlot l.arm event = some l') :
    l'.hot.baseTicks = base ∧ l'.window.length = 1 := by
  obtain ⟨armed,empty,at_,_⟩ := arm_blank held blank
  obtain ⟨_,window⟩ := writeSlot_points armed.toPoints (window_room armed.toPoints empty) wrote
  have changed := writeSlot_some wrote
  refine ⟨?_,by rw [window,empty]; rfl⟩
  rw [changed]
  exact at_

theorem callPush_enters (calm : Calm tidOf w) (called : w.callPush tidOf t run ticks codeId kind = some w') :
    Enters w.queue.id run ticks (w.view t) (w'.view t) := by
  unfold World.callPush at called
  obtain ⟨m,first,rest⟩ := Option.bind_eq_some_iff.mp called
  have idle := calm.quiet t
  simp only [World.step,idle,if_true] at first
  rcases pushStep_cases calm.sound idle first with
    ⟨hit,l,wrote,rfl⟩ | ⟨miss,producer,_,rfl⟩ | ⟨miss,producer,o,o',brk,q,accepted,armed,_,blank,_,_,rfl⟩
  · obtain ⟨o,armed,_,room⟩ := fast_armed (calm.sound.threads t) idle hit
    obtain ⟨_,own,near⟩ := fastPath_true hit
    have seat := (calm.sound.threads t).seat
    have seated : ¬Unseated (w.threads t) := armed.seated
    simp only [World.logPushed,World.put,Function.update_self,if_true,Option.some.injEq] at rest
    subst rest
    have length := window_length armed.toPoints
    obtain ⟨_,window⟩ := writeSlot_points armed.toPoints room wrote
    have changed := writeSlot_some wrote
    have hot : l.hot.baseTicks = (w.threads t).hot.baseTicks := by rw [changed]
    have low := armed.low
    refine .fits (by omega) (own.symm.trans (seat.resolve_left fun absent => seated absent.2).2.2) near seated ?_ ?_ rfl
    · simpa [World.view] using hot
    · simp [World.view,window]
  · have unseated : Unseated (w.threads t) :=
      ((calm.sound.threads t).seat.resolve_right fun present => by
        have owned : (w.threads t).cold.producer = some (w.queue.id,t) := present.1
        simp [producer] at owned).2
    simp only [World.register,World.withQueue,World.put,Function.update_self,World.step,reduceCtorEq,if_false,
      Option.bind_eq_bind,Option.bind_some] at rest
    obtain ⟨l,wrote,rfl⟩ := Option.map_eq_some_iff.mp rest
    have blank : Blank ⟨(w.threads t).brk,.withCapacity batchN ticks (tidOf t)⟩ ticks (tidOf t) :=
      ⟨(calm.sound.threads t).brk,rfl,rfl,rfl⟩
    have ends := renewed_writes (l := (w.queue.initRing t (w.threads t) ticks (tidOf t)).2) rfl blank wrote
    refine .opens unseated ?_ ?_ rfl
    · simpa [World.view,World.logPushed] using ends.1
    · simpa [World.view,World.logPushed] using ends.2
  · have seated := armed.seated
    simp only [World.logShipped,World.withQueue,World.put,Function.update_self,World.step,reduceCtorEq,if_false,
      Option.bind_eq_bind,Option.bind_some] at rest
    obtain ⟨l,wrote,rfl⟩ := Option.map_eq_some_iff.mp rest
    have ends := renewed_writes (o := o') rfl blank wrote
    refine .renews ?_ seated ?_ ?_ ⟨accepted,{o.batch with events := (w.threads t).window},?_,armed.base.symm⟩
    · rintro ⟨room,own,near⟩
      have queueId : (w.threads t).hot.queueId = w.queue.id :=
        ((calm.sound.threads t).seat.resolve_left fun absent => seated absent.2).2.2
      have length := window_length armed.toPoints
      have low := armed.low
      have finish := armed.finish
      have below : (w.threads t).hot.cursor < (w.threads t).hot.endAt := by
        have room : (w.threads t).window.length < batchN := room
        omega
      have near : ticks - (w.threads t).hot.baseTicks ≤ deltaOverflow := near
      simp [EventQueue.fastPath,below,queueId,own,near] at miss
    · simpa [World.view,World.logPushed] using ends.1
    · simpa [World.view,World.logPushed] using ends.2
    · simp [World.view,World.logPushed]

theorem callFlush_empties (calm : Calm tidOf w) (called : w.callFlush tidOf t = some w') :
    Empties (w.view t) (w'.view t) := by
  unfold World.callFlush at called
  obtain ⟨m,first,rest⟩ := Option.bind_eq_some_iff.mp called
  have idle := calm.quiet t
  simp only [World.step,idle,if_true] at first
  obtain ⟨l,committed,rfl⟩ := Option.map_eq_some_iff.mp first
  simp only [World.step,World.put,Function.update_self,Option.bind_eq_bind,Option.bind_some] at rest
  unfold World.takeStep at rest
  simp only [Function.update_self] at rest
  by_cases none : Unseated (w.threads t)
  · rw [commit_unseated none] at committed
    cases committed
    have untaken : (w.threads t).takeOpen = Option.none := by simp [Local.takeOpen,none.batch]
    simp only [untaken,World.put,Function.update_self,Stage.done,Bool.false_eq_true,if_false,if_true,
      Option.bind_some,Option.some.injEq] at rest
    subst rest
    refine .nothing none.window ?_ ?_ ?_ ?_
    · simpa [World.view] using none.window
    · simp [World.view]
    · simp [World.view]
    · simp [World.view]
  · obtain ⟨o,armed,_⟩ := (calm.sound.threads t).standing.armed (.inl idle) none
    have producer : (w.threads t).cold.producer = some (w.queue.id,t) :=
      ((calm.sound.threads t).seat.resolve_left fun absent => none absent.2).1
    have armed : Armed (w.threads t) o := armed
    have same := Option.some.inj (committed.symm.trans (commit_armed armed))
    have kept : Armed l {o with batch := {o.batch with events := (w.threads t).window}} := same ▸ armed_committed armed
    have owner : l.cold.producer = some (w.queue.id,t) := same ▸ producer
    have base : l.hot.baseTicks = (w.threads t).hot.baseTicks := by rw [same]
    have brk : 0 < l.brk := same ▸ (calm.sound.threads t).brk
    have held := kept.held
    by_cases empty : (w.threads t).window = []
    · have back : l.takeOpen = some (l,Option.none) := by simp [Local.takeOpen,held,empty]
      simp only [back,World.put,Function.update_self,Stage.done,Bool.false_eq_true,if_false,if_true,reduceCtorEq,
        Option.bind_some,Option.some.injEq] at rest
      subst rest
      obtain ⟨rearmed,cleared⟩ := arm_again kept
      refine .nothing empty ?_ ?_ ?_ ?_
      · simpa [World.view] using cleared
      · refine iff_of_false ?_ none
        simpa [World.view] using rearmed.seated
      · have at_ := rearmed.base.trans (kept.base.symm.trans base)
        simpa [World.view] using at_
      · simp [World.view]
    · have taken : l.takeOpen = some (l.alloc o.batch.baseTicks o.batch.tid,
          some {o.batch with events := (w.threads t).window}) := by simp [Local.takeOpen,held,owner,empty]
      simp only [taken,World.put,Function.update_self,reduceCtorEq,if_false,Option.bind_some] at rest
      obtain ⟨m,handed,rest⟩ := Option.bind_eq_some_iff.mp rest
      obtain ⟨rearmed,cleared,at_,_⟩ := arm_blank (l := l.alloc o.batch.baseTicks o.batch.tid) rfl
        ⟨brk,rfl,rfl,rfl⟩
      unfold World.handOverStep at handed
      simp only [World.put,Function.update_self] at handed
      obtain ⟨_,_,handed⟩ := Option.bind_eq_some_iff.mp handed
      cases Option.some.inj rest
      have ends : m.threads t = (l.alloc o.batch.baseTicks o.batch.tid).arm ∧ ∃ accepted,
          ownedBy t m.ledger.shipped =
            ownedBy t w.ledger.shipped ++ [(accepted,{o.batch with events := (w.threads t).window})] := by
        split at handed
        · cases Option.some.inj handed
          exact ⟨by simp [World.logShipped,World.withQueue],true,by simp [World.logShipped,World.withQueue]⟩
        · cases Option.some.inj handed
          exact ⟨by simp [World.logShipped,World.logLost],false,by simp [World.logShipped,World.logLost]⟩
      obtain ⟨there,accepted,shipped⟩ := ends
      refine .hands empty ?_ none ?_ ?_ ⟨accepted,_,shipped,armed.base.symm⟩
      · simpa only [World.view,there] using cleared
      · simpa only [World.view,there] using rearmed.seated
      · simpa only [World.view,there] using at_.trans armed.base.symm

def PartOf (c : Call T) (a : Act T) : Prop := (a.thread = none ∨ a.thread = c.thread) ∧ ∀ u, a ≠ .leave u

theorem call_runs {c : Call T} (called : w.call tidOf c = some w') :
    ∃ acts, Machine.Runs (World.step tidOf) (fun _ a => PartOf c a) w acts w' := by
  cases c with
  | push t run ticks codeId kind =>
    obtain ⟨m,first,rest⟩ := Option.bind_eq_some_iff.mp called
    have within {a : Act T} (own : a.thread = some t) (stays : ∀ u, a ≠ .leave u) :
        PartOf (.push t run ticks codeId kind) a := ⟨.inr own,stays⟩
    split at rest
    · cases rest
      exact ⟨_,.cons (within rfl (by simp)) first .nil⟩
    · obtain ⟨n,armed,wrote⟩ := Option.bind_eq_some_iff.mp rest
      exact ⟨_,.cons (within rfl (by simp)) first (.cons (within rfl (by simp)) armed (.cons (within rfl (by simp)) wrote .nil))⟩
  | flush t =>
    have within {a : Act T} (own : a.thread = none ∨ a.thread = some t) (stays : ∀ u, a ≠ .leave u) :
        PartOf (.flush t) a := ⟨own,stays⟩
    have pause {m m' : World T} {a : Act T} (met : PartOf (.flush t) a)
        (next : (if m.stage t = .idle then some m else m.step tidOf a) = some m') :
        ∃ acts, Machine.Runs (World.step tidOf) (fun _ a => PartOf (.flush t) a) m acts m' := by
      split at next
      · cases next
        exact ⟨[],.nil⟩
      · exact ⟨[a],.cons met next .nil⟩
    obtain ⟨m,first,rest⟩ := Option.bind_eq_some_iff.mp called
    obtain ⟨n,took,rest⟩ := Option.bind_eq_some_iff.mp rest
    obtain ⟨k,armed,rest⟩ := Option.bind_eq_some_iff.mp rest
    obtain ⟨j,handed,recorded⟩ := Option.bind_eq_some_iff.mp rest
    obtain ⟨_,arms⟩ := pause (within (.inr rfl) (by simp)) armed
    obtain ⟨_,hands⟩ := pause (within (.inr rfl) (by simp)) handed
    have flushes : PartOf (.flush t) (.flush t) := within (.inr rfl) (by simp)
    have takes : PartOf (.flush t) (.take t) := within (.inr rfl) (by simp)
    have taken : Machine.Runs (World.step tidOf) (fun _ a => PartOf (.flush t) a) w [.flush t,.take t] n :=
      .cons flushes first (.cons takes took .nil)
    exact ⟨_,((taken.append arms).append hands).snoc (within (.inl rfl) (by simp)) recorded⟩
  | drain limit => exact ⟨[.drain limit],.cons ⟨.inl rfl,by simp⟩ called .nil⟩

theorem call_bystander {c : Call T} {u : T} (sound : Sound tidOf w) (called : w.call tidOf c = some w')
    (other : c.thread ≠ some u) : w'.threads u = w.threads u ∧ ownedBy u w'.ledger.pushed = ownedBy u w.ledger.pushed ∧
      ownedBy u w'.ledger.shipped = ownedBy u w.ledger.shipped := by
  obtain ⟨acts,run⟩ := call_runs called
  have same := run.invariant (I := fun m => Sound tidOf m ∧ m.threads u = w.threads u ∧
      ownedBy u m.ledger.pushed = ownedBy u w.ledger.pushed ∧ ownedBy u m.ledger.shipped = ownedBy u w.ledger.shipped)
    ⟨sound,rfl,rfl,rfl⟩ ?_
  · exact same.2
  · intro m a m' kept within stepped
    obtain ⟨sound,threads,pushed,shipped⟩ := kept
    have outside : a.thread ≠ some u := by
      rcases within.1 with none | own
      · simp [none]
      · rw [own]
        exact other
    obtain ⟨local_,_,pushed',shipped'⟩ := step_bystander sound stepped outside
    exact ⟨step_sound sound stepped,local_.trans threads,pushed'.trans pushed,shipped'.trans shipped⟩

-- What the calls say of the open batch is so: among the batches the thread handed over, those of
-- its base ticks are what `again` tells.
def Opens (v : View T) : Option Opening → Prop
  | none => Unseated v.l ∧ v.shipped = []
  | some o => ¬Unseated v.l ∧ v.l.hot.baseTicks = o.base ∧ v.l.window.length = o.count ∧
      (∀ s ∈ v.shipped, s.2.baseTicks ≤ o.base) ∧ (o.again = true ↔ ∃ s ∈ v.shipped, s.2.baseTicks = o.base) ∧
      ∃ e ∈ v.pushed, e.1 = o.base

theorem push_opens {o : Option Opening} (opens : Opens (w.view t) o) (calm : Calm tidOf w)
    (forward : ∀ e ∈ ownedBy t w.ledger.pushed, e.1 ≤ ticks) (called : w.callPush tidOf t run ticks codeId kind = some w') :
    Opens (w'.view t) (Opening.after w.queue.id o (.push t run ticks codeId kind)) := by
  obtain ⟨m,same,calm',logged⟩ := callPush_calm calm t run ticks codeId kind
  rw [called,Option.some.injEq] at same
  subst m
  have pushed : (w'.view t).pushed = (w.view t).pushed ++ [(ticks,packCodeKind codeId kind)] := by
    simp [World.view,logged]
  have now : ∃ e ∈ (w'.view t).pushed, e.1 = ticks :=
    ⟨_,pushed ▸ List.mem_append_right _ (List.mem_singleton_self _),rfl⟩
  have seated (count : 0 < (w'.view t).l.window.length) : ¬Unseated (w'.view t).l := fun none => by
    rw [none.window] at count
    exact absurd count (Nat.lt_irrefl 0)
  cases callPush_enters calm called with
  | fits room own near notFirst base count shipped =>
    cases o with
    | none => exact absurd opens.1 notFirst
    | some o =>
      obtain ⟨_,at_,length,before,again,first⟩ := opens
      rw [length] at room count
      rw [at_] at near base
      have goes : Opening.after w.queue.id (some o) (.push t run ticks codeId kind) = some {o with count := o.count+1} :=
        if_pos ⟨room,own,near⟩
      rw [goes]
      refine ⟨seated (by omega),base,count,by rwa [shipped],by rwa [shipped],?_⟩
      obtain ⟨e,present,same⟩ := first
      exact ⟨e,pushed ▸ List.mem_append_left _ present,same⟩
  | opens unseated base count shipped =>
    cases o with
    | some o => exact absurd unseated opens.1
    | none =>
      obtain ⟨_,none⟩ := opens
      rw [none] at shipped
      refine ⟨seated (by omega),base,count,?_,?_,now⟩
      · simp [shipped]
      · simp [shipped]
  | renews miss notFirst base count shipped =>
    cases o with
    | none => exact absurd opens.1 notFirst
    | some o =>
      obtain ⟨_,at_,length,before,again,e,present,same⟩ := opens
      obtain ⟨accepted,b,shipped,key⟩ := shipped
      rw [at_] at miss key
      rw [length] at miss
      have goes : Opening.after w.queue.id (some o) (.push t run ticks codeId kind) = some ⟨ticks,1,ticks = o.base⟩ :=
        if_neg miss
      rw [goes]
      have later : o.base ≤ ticks := same ▸ forward e present
      refine ⟨seated (by omega),base,count,?_,?_,now⟩
      · intro s offered
        rw [shipped] at offered
        rcases List.mem_append.mp offered with old | new
        · exact UInt64.le_trans (before s old) later
        · rw [List.mem_singleton.mp new]
          exact key ▸ later
      · rw [decide_eq_true_iff,shipped]
        constructor
        · rintro rfl
          exact ⟨_,List.mem_append_right _ (List.mem_singleton_self _),key⟩
        · rintro ⟨s,offered,here⟩
          rcases List.mem_append.mp offered with old | new
          · have here : s.2.baseTicks = ticks := here
            exact UInt64.le_antisymm (here ▸ before s old) later
          · rw [List.mem_singleton.mp new] at here
            exact here.symm.trans key

theorem flush_opens {o : Option Opening} (opens : Opens (w.view t) o) (calm : Calm tidOf w)
    (called : w.callFlush tidOf t = some w') : Opens (w'.view t) (Opening.after w.queue.id o (.flush t)) := by
  obtain ⟨m,same,calm',logged⟩ := callFlush_calm calm t
  rw [called,Option.some.injEq] at same
  subst m
  have pushed : (w'.view t).pushed = (w.view t).pushed := by simp [World.view,logged]
  cases callFlush_empties calm called with
  | nothing empty empty' seated base shipped =>
    cases o with
    | none => exact ⟨seated.mpr opens.1,shipped.trans opens.2⟩
    | some o =>
      obtain ⟨notFirst,at_,length,rest⟩ := opens
      have zero : o.count = 0 := by rw [← length,empty]; rfl
      have goes : Opening.after w.queue.id (some o) (.flush t) = some o := congrArg some (if_pos zero)
      rw [goes]
      refine ⟨fun unseated => notFirst (seated.mp unseated),base.trans at_,?_,?_⟩
      · rw [empty',zero]
        rfl
      · rwa [shipped,pushed]
  | hands some_ empty' notFirst still base shipped =>
    cases o with
    | none => exact absurd opens.1 notFirst
    | some o =>
      obtain ⟨_,at_,length,before,again,first⟩ := opens
      obtain ⟨accepted,b,shipped,key⟩ := shipped
      have more : o.count ≠ 0 := by
        rw [← length]
        exact fun zero => some_ (List.eq_nil_of_length_eq_zero zero)
      have goes : Opening.after w.queue.id (some o) (.flush t) = some {o with count := 0,again := true} :=
        congrArg some (if_neg more)
      rw [goes]
      refine ⟨still,base.trans at_,by rw [empty']; rfl,?_,?_,by rwa [pushed]⟩
      · intro s offered
        rw [shipped] at offered
        rcases List.mem_append.mp offered with old | new
        · exact before s old
        · rw [List.mem_singleton.mp new,key,at_]
          exact UInt64.le_refl _
      · rw [shipped]
        exact iff_of_true rfl ⟨_,List.mem_append_right _ (List.mem_singleton_self _),key.trans at_⟩

theorem call_opens {c : Call T} {calls : List (Call T)} (opens : Opens (w.view t) (opening w.queue.id t calls))
    (calm : Calm tidOf w) (called : w.call tidOf c = some w')
    (forward : ∀ run ticks codeId kind, c = .push t run ticks codeId kind → ∀ e ∈ ownedBy t w.ledger.pushed, e.1 ≤ ticks) :
    Opens (w'.view t) (opening w.queue.id t (calls ++ [c])) := by
  by_cases own : c.thread = some t
  · have grown : opening w.queue.id t (calls ++ [c]) = Opening.after w.queue.id (opening w.queue.id t calls) c := by
      simp [opening,own]
    rw [grown]
    cases c with
    | push u run ticks codeId kind =>
      cases own
      exact push_opens opens calm (forward run ticks codeId kind rfl) called
    | flush u =>
      cases own
      exact flush_opens opens calm called
    | drain limit => cases own
  · have same : opening w.queue.id t (calls ++ [c]) = opening w.queue.id t calls := by simp [opening,own]
    obtain ⟨threads,pushed,shipped⟩ := call_bystander calm.sound called own
    have threads : (w'.view t).l = (w.view t).l := threads
    have pushed : (w'.view t).pushed = (w.view t).pushed := pushed
    have shipped : (w'.view t).shipped = (w.view t).shipped := shipped
    rw [same]
    unfold Opens at opens ⊢
    rwa [threads,pushed,shipped]

end Trace0
