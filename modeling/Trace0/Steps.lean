import Trace0.Moves

namespace Trace0

variable {T : Type} [DecidableEq T]

def rejectedEvents (shipped : List (T × Bool × EventBatch)) : Nat :=
  ((shipped.filter fun s => !s.2.1).map fun s => s.2.2.events.length).sum

-- One ring a thread, every thread standing where its stage says, and every lost event either
-- in the counter or still owed to it by a caller.
structure Sound (tidOf : T → UInt32) (w : World T) : Prop where
  distinct : w.queue.owners.Nodup
  threads : ∀ t, ThreadSound w.queue.id t (tidOf t) (w.view t)
  balance : w.queue.dropped + w.ledger.lost + w.ledger.exitLost =
    rejectedEvents w.ledger.shipped + w.ledger.recorded

omit [DecidableEq T] in
theorem rejected_append (shipped : List (T × Bool × EventBatch)) (t : T) (accepted : Bool)
    (b : EventBatch) : rejectedEvents (shipped ++ [(t,accepted,b)]) =
      rejectedEvents shipped + if accepted then 0 else b.events.length := by
  cases accepted <;> simp [rejectedEvents]

section Frames

variable (w : World T) (t : T) (l : Local T) (s : Stage)

theorem put_view_self : (w.put t l s).view t = {w.view t with l := l,stage := s} := by
  simp [World.view,World.put]

theorem put_view_other {u : T} (other : u ≠ t) : (w.put t l s).view u = w.view u := by
  simp [World.view,World.put,other]

theorem logPushed_view (ticks : UInt64) (codeKind : UInt32) (u : T) :
    (w.logPushed t ticks codeKind).view u =
      {w.view u with pushed := (w.view u).pushed ++ if t = u then [(ticks,codeKind)] else []} := by
  simp [World.view,World.logPushed]

theorem logShipped_view (accepted : Bool) (b : EventBatch) (u : T) :
    (w.logShipped t accepted b).view u =
      {w.view u with shipped := (w.view u).shipped ++ if t = u then [(accepted,b)] else []} := by
  simp [World.view,World.logShipped]

theorem logLost_view (leaving : Bool) (events : Nat) (u : T) :
    (w.logLost leaving events).view u = w.view u := by
  cases leaving <;> simp [World.view,World.logLost]

theorem register_view (u : T) : (w.register t).view u = w.view u := rfl

theorem withQueue_view (q : EventQueue T) (u : T) : (w.withQueue q).view u =
    {w.view u with seated := u ∈ q.owners,held := q.held u} := rfl

end Frames

variable {tidOf : T → UInt32} {w w' : World T} {t u : T} {q q' : EventQueue T}
  {l l' : Local T} {a : Act T}

-- What offering a batch to a ring does to the queue, taken or refused.
structure Offered (q q' : EventQueue T) (t : T) (accepted : Bool) (full : EventBatch) : Prop where
  owners : q'.owners = q.owners
  held : ∀ u, q'.held u = q.held u ++ if t = u ∧ accepted = true then [full] else []
  room : accepted = true ↔ (q.held t).length < batchesCapacity
  id : q'.id = q.id
  closed : q'.closed = q.closed
  floor : q'.recycleFloor = q.recycleFloor
  clock : q'.clock = q.clock

theorem push_offered {full : EventBatch} (distinct : q.owners.Nodup) (member : t ∈ q.owners)
    (accepted : q.push t full = some q') :
    Offered q q' t true full ∧ q'.dropped = q.dropped := by
  obtain ⟨room,same,owners⟩ := push_some accepted
  refine ⟨⟨owners,fun u => ?_,by simpa using room,?_,?_,?_,?_⟩,by rw [same]⟩
  · simpa using push_held distinct member accepted u
  all_goals rw [same]

theorem refuse_offered {full : EventBatch} (refused : q.push t full = none) (dropped : Nat) :
    Offered q {q with dropped := dropped} t false full :=
  ⟨rfl,fun u => by simp [EventQueue.held],by simpa using push_none refused,rfl,rfl,rfl,rfl⟩

theorem ship_some {base : UInt64} {tid : UInt32} {accepted : Bool} {full : EventBatch}
    {o : OpenBatch} (distinct : q.owners.Nodup) (member : t ∈ q.owners) (armed : Armed l o)
    (brk : 0 < l.brk) (producer : l.cold.producer = some (qid,t))
    (shipped : q.ship l base tid = some (q',l',accepted,full)) :
    full = {o.batch with events := l.window} ∧
      (∃ o' brk', l.brk ≤ brk' ∧ Blank o' base tid ∧
        l' = {l with cold := {l.cold with batch := some o'},brk := brk'}) ∧
      Offered q q' t accepted full ∧
      q'.dropped = q.dropped + if accepted then 0 else full.events.length := by
  unfold EventQueue.ship at shipped
  rw [commit_armed armed] at shipped
  simp only [Option.bind_eq_bind,Option.bind_some,producer] at shipped
  split at shipped
  · rename_i refused
    simp only [Option.some.injEq,Prod.mk.injEq] at shipped
    obtain ⟨rfl,rfl,rfl,rfl⟩ := shipped
    refine ⟨rfl,⟨{o with batch := {o.batch with events := [],baseTicks := base,tid := tid}},l.brk,
      Nat.le_refl _,⟨armed.nonnull,rfl,rfl,armed.room⟩,?_⟩,refuse_offered refused _,by simp⟩
    simp only [producer]
  · rename_i after taken
    simp only [Option.some.injEq,Prod.mk.injEq] at shipped
    obtain ⟨rfl,rfl,rfl,rfl⟩ := shipped
    obtain ⟨offered,dropped⟩ := push_offered distinct member taken
    refine ⟨rfl,⟨⟨l.brk,.withCapacity batchN base tid⟩,l.brk + batchN,Nat.le_add_right _ _,
      ⟨brk,rfl,rfl,rfl⟩,?_⟩,offered,dropped⟩
    simp only [Local.alloc,producer]

section Seats

omit [DecidableEq T]

@[simp] theorem initRing_owners (q : EventQueue T) (l : Local T) (ticks : UInt64) (tid : UInt32) :
    (q.initRing t l ticks tid).1.owners = q.owners ++ [t] := by
  simp [EventQueue.initRing,EventQueue.owners]

end Seats

@[simp] theorem initRing_held (q : EventQueue T) (l : Local T) (ticks : UInt64) (tid : UInt32) :
    (q.initRing t l ticks tid).1.held u = q.held u := by
  simp [EventQueue.initRing,EventQueue.held,heldIn_append,heldIn_cons]

theorem stale_producer (sound : Sound tidOf w) :
    (w.queue.stale (w.threads t) = true → (w.threads t).cold.producer = none ∧ t ∉ w.queue.owners) ∧
    (w.queue.stale (w.threads t) = false →
      (w.threads t).cold.producer = some (w.queue.id,t) ∧ t ∈ w.queue.owners) := by
  rcases (sound.threads t).seat with ⟨absent,unseated⟩ | ⟨producer,seated,_⟩
  · have none : (w.threads t).cold.producer = none := unseated.producer
    exact ⟨fun _ => ⟨none,absent⟩,fun fresh => by simp [EventQueue.stale,none] at fresh⟩
  · have some_ : (w.threads t).cold.producer = some (w.queue.id,t) := producer
    exact ⟨fun stale => by simp [EventQueue.stale,some_] at stale,fun _ => ⟨some_,seated⟩⟩

theorem idle_armed (sound : Sound tidOf w) (idle : w.stage t = .idle)
    (producer : (w.threads t).cold.producer = some (w.queue.id,t)) :
    ∃ o, Armed (w.threads t) o ∧ o.batch.tid = tidOf t :=
  (sound.threads t).standing.armed (.inl idle) fun unseated => by
    have absent : (w.threads t).cold.producer = none := unseated.producer
    simp [absent] at producer

theorem pushStep_cases (sound : Sound tidOf w) (idle : w.stage t = .idle)
    (stepped : w.pushStep tidOf t run ticks codeKind = some w') :
    (EventQueue.fastPath (w.threads t) run ticks = true ∧ ∃ l', EventQueue.writeSlot (w.threads t)
        ⟨(ticks - (w.threads t).hot.baseTicks).toUInt32,codeKind⟩ = some l' ∧
      w' = (w.put t l' .idle).logPushed t ticks codeKind) ∨
    (EventQueue.fastPath (w.threads t) run ticks = false ∧
      (w.threads t).cold.producer = none ∧ t ∉ w.queue.owners ∧
      w' = ((w.put t (w.queue.initRing t (w.threads t) ticks (tidOf t)).2
        (.renewed ticks codeKind)).withQueue
          (w.queue.initRing t (w.threads t) ticks (tidOf t)).1).register t) ∨
    (EventQueue.fastPath (w.threads t) run ticks = false ∧
      (w.threads t).cold.producer = some (w.queue.id,t) ∧
      ∃ o o' brk' q' accepted, Armed (w.threads t) o ∧ (w.threads t).brk ≤ brk' ∧
        Blank o' ticks (tidOf t) ∧
        Offered w.queue q' t accepted {o.batch with events := (w.threads t).window} ∧
        q'.dropped = w.queue.dropped + (if accepted then 0 else (w.threads t).window.length) ∧
        w' = ((w.put t {w.threads t with
            cold := {(w.threads t).cold with batch := some o'},brk := brk'}
          (.renewed ticks codeKind)).withQueue q').logShipped t accepted
            {o.batch with events := (w.threads t).window}) := by
  unfold World.pushStep at stepped
  dsimp only at stepped
  split at stepped
  · rename_i hit
    obtain ⟨l',wrote,rfl⟩ := Option.map_eq_some_iff.mp stepped
    exact .inl ⟨hit,l',wrote,rfl⟩
  · rename_i miss
    split at stepped
    · rename_i stale
      cases Option.some.inj stepped
      obtain ⟨first,absent⟩ := (stale_producer sound).1 stale
      exact .inr (.inl ⟨Bool.eq_false_iff.mpr miss,first,absent,rfl⟩)
    · rename_i fresh
      obtain ⟨⟨q',l',accepted,full⟩,shipped,rfl⟩ := Option.map_eq_some_iff.mp stepped
      obtain ⟨producer,member⟩ := (stale_producer sound).2 (Bool.eq_false_iff.mpr fresh)
      obtain ⟨o,armed,_⟩ := idle_armed sound idle producer
      obtain ⟨rfl,⟨o',brk',brk,blank,rfl⟩,offered,dropped⟩ :=
        ship_some sound.distinct member armed (sound.threads t).brk producer shipped
      refine .inr (.inr ⟨Bool.eq_false_iff.mpr miss,producer,o,o',brk',q',accepted,armed,brk,blank,
        offered,?_,?_⟩)
      · simpa using dropped
      · rfl

theorem push_moves (sound : Sound tidOf w) (idle : w.stage t = .idle)
    (stepped : w.pushStep tidOf t run ticks (packCodeKind codeId kind) = some w') (u : T) :
    Moves w.queue.id u (tidOf u) (.push t run ticks codeId kind) (w.view u) (w'.view u) := by
  rcases pushStep_cases sound idle stepped with
    ⟨hit,l',wrote,rfl⟩ | ⟨miss,first,_,rfl⟩ |
    ⟨miss,producer,o,o',brk',q',accepted,armed,brk,blank,offered,_,rfl⟩
  · rw [logPushed_view]
    by_cases same : u = t
    · subst u
      rw [put_view_self,if_pos rfl]
      exact .fast idle hit wrote
    · rw [put_view_other _ _ _ _ same,if_neg (Ne.symm same),List.append_nil]
      exact .still
  · rw [register_view,withQueue_view,initRing_held,initRing_owners]
    by_cases same : u = t
    · subst u
      rw [put_view_self]
      simpa [World.view,EventQueue.initRing,Local.alloc] using Moves.seat (v := w.view t) idle miss first w.queue.clock.isDirect
    · rw [put_view_other _ _ _ _ same]
      simpa [World.view,same] using Moves.still
  · rw [logShipped_view,withQueue_view,offered.held,offered.owners]
    by_cases same : u = t
    · subst u
      rw [put_view_self,if_pos rfl]
      have move : Moves w.queue.id t (tidOf t) (.push t run ticks codeId kind) (w.view t) _ :=
        .ship idle miss producer armed.held brk blank offered.room
      cases accepted <;> simpa [World.view] using move
    · rw [put_view_other _ _ _ _ same,if_neg (Ne.symm same)]
      simpa [World.view,Ne.symm same] using Moves.still

theorem put_moves (move : Moves w.queue.id t (tidOf t) a (w.view t) {w.view t with l := l,stage := s})
    (u : T) : Moves w.queue.id u (tidOf u) a (w.view u) ((w.put t l s).view u) := by
  by_cases same : u = t
  · subst u
    rw [put_view_self]
    exact move
  · rw [put_view_other _ _ _ _ same]
    exact .still

theorem take_moves (stage : w.stage t = .committed leaving) (u : T) :
    Moves w.queue.id u (tidOf u) (.take t) (w.view u) ((w.takeStep t leaving).view u) := by
  unfold World.takeStep
  split
  · rename_i empty
    exact put_moves (.takeNone stage empty) u
  · rename_i back
    exact put_moves (.takeBack stage back) u
  · rename_i taken
    exact put_moves (.takeFull stage taken) u

theorem handOver_cases (sound : Sound tidOf w) (stage : w.stage t = .rearmed leaving full)
    (stepped : w.handOverStep t leaving full = some w') :
    ∃ q' accepted, Offered w.queue q' t accepted full ∧ q'.dropped = w.queue.dropped ∧
      w' = ((((w.put t (w.threads t) (.done leaving)).withQueue q').logShipped t accepted full).logLost
        leaving (if accepted then 0 else full.events.length)) := by
  have standing := (sound.threads t).standing
  simp only [Standing,World.view,stage] at standing
  obtain ⟨_,_,o,armed,_⟩ := standing
  obtain ⟨producer,member,_⟩ := (sound.threads t).seat.resolve_left fun absent => armed.seated absent.2
  have producer : (w.threads t).cold.producer = some (w.queue.id,t) := producer
  unfold World.handOverStep at stepped
  simp only [producer,Option.bind_eq_bind,Option.bind_some] at stepped
  split at stepped
  · rename_i q' taken
    cases Option.some.inj stepped
    obtain ⟨offered,dropped⟩ := push_offered sound.distinct member taken
    exact ⟨q',true,offered,dropped,by cases leaving <;> rfl⟩
  · rename_i refused
    cases Option.some.inj stepped
    exact ⟨_,false,refuse_offered refused w.queue.dropped,rfl,rfl⟩

theorem handOver_moves (sound : Sound tidOf w) (stage : w.stage t = .rearmed leaving full)
    (stepped : w.handOverStep t leaving full = some w') (u : T) :
    Moves w.queue.id u (tidOf u) (.handOver t) (w.view u) (w'.view u) := by
  obtain ⟨q',accepted,offered,_,rfl⟩ := handOver_cases sound stage stepped
  rw [logLost_view,logShipped_view,withQueue_view,offered.held,offered.owners]
  by_cases same : u = t
  · subst u
    rw [put_view_self]
    have move : Moves w.queue.id t (tidOf t) (.handOver t) (w.view t) _ :=
      .handOver stage offered.room
    cases accepted <;> simpa [World.view] using move
  · rw [put_view_other _ _ _ _ same]
    simpa [World.view,Ne.symm same] using Moves.still

theorem step_moves (sound : Sound tidOf w) (stepped : w.step tidOf a = some w') (u : T) :
    Moves w.queue.id u (tidOf u) a (w.view u) (w'.view u) := by
  cases a with
  | push t run ticks codeId kind =>
    simp only [World.step] at stepped
    split at stepped
    · rename_i idle
      exact push_moves sound idle stepped u
    · cases stepped
  | arm t =>
    simp only [World.step] at stepped
    split at stepped
    · rename_i stage
      cases Option.some.inj stepped
      exact put_moves (.armNew stage) u
    · rename_i stage
      cases Option.some.inj stepped
      exact put_moves (.armRestored stage) u
    · rename_i stage
      cases Option.some.inj stepped
      exact put_moves (.armTaken stage) u
    · cases stepped
  | write t =>
    simp only [World.step] at stepped
    split at stepped
    · rename_i ticks codeKind stage
      obtain ⟨l',wrote,rfl⟩ := Option.map_eq_some_iff.mp stepped
      rw [logPushed_view]
      by_cases same : u = t
      · subst u
        rw [put_view_self,if_pos rfl]
        exact .write stage wrote
      · rw [put_view_other _ _ _ _ same,if_neg (Ne.symm same),List.append_nil]
        exact .still
    · cases stepped
  | flush t =>
    simp only [World.step] at stepped
    split at stepped
    · rename_i idle
      obtain ⟨l',committed,rfl⟩ := Option.map_eq_some_iff.mp stepped
      exact put_moves (.commit (.inl ⟨rfl,idle,rfl⟩) committed) u
    · cases stepped
  | leave t =>
    simp only [World.step] at stepped
    split at stepped
    · rename_i idle
      cases Option.some.inj stepped
      exact put_moves (l := w.threads t) (.leave idle) u
    · cases stepped
  | commit t =>
    simp only [World.step] at stepped
    split at stepped
    · rename_i leaving
      obtain ⟨l',committed,rfl⟩ := Option.map_eq_some_iff.mp stepped
      exact put_moves (.commit (.inr ⟨rfl,leaving,rfl⟩) committed) u
    · cases stepped
  | take t =>
    simp only [World.step] at stepped
    split at stepped
    · rename_i leaving stage
      cases Option.some.inj stepped
      exact take_moves stage u
    · cases stepped
  | handOver t =>
    simp only [World.step] at stepped
    split at stepped
    · rename_i leaving full stage
      exact handOver_moves sound stage stepped u
    · cases stepped
  | recordDropped events =>
    cases Option.some.inj stepped
    exact .still
  | close =>
    cases Option.some.inj stepped
    exact .still
  | drain limit =>
    cases Option.some.inj stepped
    have move : Moves w.queue.id u (tidOf u) (.drain limit) (w.view u) _ :=
      .drained (drain_splits sound.distinct limit u)
    have owners := drain_owners w.queue limit
    simpa [World.view,owners] using move

-- What of the queue and the counters a step can change at all.
structure Frame (w w' : World T) : Prop where
  id : w'.queue.id = w.queue.id
  owners : w.queue.owners.Nodup → w'.queue.owners.Nodup
  balance : w.queue.dropped + w.ledger.lost + w.ledger.exitLost =
      rejectedEvents w.ledger.shipped + w.ledger.recorded →
    w'.queue.dropped + w'.ledger.lost + w'.ledger.exitLost =
      rejectedEvents w'.ledger.shipped + w'.ledger.recorded

omit [DecidableEq T] in
theorem Frame.same (queue : w'.queue = w.queue) (ledger : w'.ledger.shipped = w.ledger.shipped ∧
    w'.ledger.lost = w.ledger.lost ∧ w'.ledger.exitLost = w.ledger.exitLost ∧
    w'.ledger.recorded = w.ledger.recorded) : Frame w w' := by
  obtain ⟨shipped,lost,exitLost,recorded⟩ := ledger
  exact ⟨by rw [queue],fun distinct => queue ▸ distinct,
    fun balance => by rw [queue,shipped,lost,exitLost,recorded]; exact balance⟩

theorem push_frame (sound : Sound tidOf w) (idle : w.stage t = .idle)
    (stepped : w.pushStep tidOf t run ticks codeKind = some w') : Frame w w' := by
  rcases pushStep_cases sound idle stepped with
    ⟨_,l',_,rfl⟩ | ⟨_,_,absent,rfl⟩ | ⟨_,_,o,o',brk',q',accepted,_,_,_,offered,dropped,rfl⟩
  · exact .same rfl ⟨rfl,rfl,rfl,rfl⟩
  · refine ⟨rfl,fun distinct => ?_,id⟩
    simp only [World.register,World.withQueue,initRing_owners]
    exact List.nodup_append.mpr ⟨distinct,by simp,fun u inside v last same => absent (by simpa [← List.mem_singleton.mp last,same] using inside)⟩
  · refine ⟨offered.id,fun distinct => ?_,fun balance => ?_⟩
    · simpa only [World.logShipped,World.withQueue,offered.owners] using distinct
    · simp only [World.logShipped,World.withQueue,World.put,dropped,rejected_append]
      omega

theorem handOver_frame (sound : Sound tidOf w) (stage : w.stage t = .rearmed leaving full)
    (stepped : w.handOverStep t leaving full = some w') : Frame w w' := by
  obtain ⟨q',accepted,offered,dropped,rfl⟩ := handOver_cases sound stage stepped
  refine ⟨?_,fun distinct => ?_,fun balance => ?_⟩
  · simpa only [World.logLost,World.logShipped,World.withQueue] using offered.id
  · simpa only [World.logLost,World.logShipped,World.withQueue,offered.owners] using distinct
  · cases leaving <;>
      simp only [World.logLost,World.logShipped,World.withQueue,World.put,dropped,rejected_append,
        if_true,Bool.false_eq_true,if_false] <;>
      omega

theorem step_frame (sound : Sound tidOf w) (stepped : w.step tidOf a = some w') : Frame w w' := by
  cases a with
  | push t run ticks codeId kind =>
    simp only [World.step] at stepped
    split at stepped
    · rename_i idle
      exact push_frame sound idle stepped
    · cases stepped
  | arm t =>
    simp only [World.step] at stepped
    split at stepped <;> cases stepped <;> exact .same rfl ⟨rfl,rfl,rfl,rfl⟩
  | write t =>
    simp only [World.step] at stepped
    split at stepped
    · obtain ⟨l',_,rfl⟩ := Option.map_eq_some_iff.mp stepped
      exact .same rfl ⟨rfl,rfl,rfl,rfl⟩
    · cases stepped
  | flush t =>
    simp only [World.step] at stepped
    split at stepped
    · obtain ⟨l',_,rfl⟩ := Option.map_eq_some_iff.mp stepped
      exact .same rfl ⟨rfl,rfl,rfl,rfl⟩
    · cases stepped
  | leave t =>
    simp only [World.step] at stepped
    split at stepped
    · cases stepped
      exact .same rfl ⟨rfl,rfl,rfl,rfl⟩
    · cases stepped
  | commit t =>
    simp only [World.step] at stepped
    split at stepped
    · obtain ⟨l',_,rfl⟩ := Option.map_eq_some_iff.mp stepped
      exact .same rfl ⟨rfl,rfl,rfl,rfl⟩
    · cases stepped
  | take t =>
    simp only [World.step] at stepped
    split at stepped
    · cases stepped
      unfold World.takeStep
      split <;> exact .same rfl ⟨rfl,rfl,rfl,rfl⟩
    · cases stepped
  | handOver t =>
    simp only [World.step] at stepped
    split at stepped
    · rename_i stage
      exact handOver_frame sound stage stepped
    · cases stepped
  | recordDropped events =>
    cases stepped
    refine ⟨rfl,id,fun balance => ?_⟩
    simp only [EventQueue.recordDropped]
    omega
  | close =>
    cases stepped
    exact ⟨rfl,id,id⟩
  | drain limit =>
    cases stepped
    have frame := drain_frame w.queue limit
    refine ⟨frame.1,fun distinct => ?_,fun balance => ?_⟩
    · simpa only [drain_owners] using distinct
    · simpa only [frame.2.1] using balance

theorem step_sound (sound : Sound tidOf w) (stepped : w.step tidOf a = some w') : Sound tidOf w' := by
  have frame := step_frame sound stepped
  refine ⟨frame.owners sound.distinct,fun u => ?_,frame.balance sound.balance⟩
  rw [frame.id]
  exact moves_sound (sound.threads u) (step_moves sound stepped u)

theorem initial_sound (id : Nat) (clock : Clock) : Sound tidOf (.initial id clock) := by
  refine ⟨List.nodup_nil,fun t => ?_,rfl⟩
  have unseated : Unseated (Local.fresh (T := T)) := ⟨rfl,rfl,rfl,rfl⟩
  have even : (Hot.empty.epoch) % 2 ≠ 1 := by decide
  refine ⟨.inl unseated,Nat.one_pos,even,.inl ⟨?_,unseated⟩,rfl,?_,?_⟩
  · simp [World.view,World.initial,EventQueue.new,EventQueue.owners]
  · simp [World.view,World.initial,View.inHand,handed,unseated.written]
  · simp [World.view,World.initial]

end Trace0
