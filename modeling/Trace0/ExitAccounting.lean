import Trace0.Ending
import Trace0.Lib.Machine
import Trace0.Scanning

namespace Trace0

section Visibility

variable {T : Type} [DecidableEq T]

-- At the last look into the rings, every thread that left the registry before its tail was
-- read has handed over what it had pushed when the job began.
def HandedOver (r : Recorder T) : RecorderAct T → Prop
  | .absorb => ∀ goal tails, r.phase = .settling goal tails →
      (r.world.queue.drainBatches usizeMax).1 = [] →
      ∀ t, (r.world.stage t).gone = true → t ∉ tails.map (·.1) →
        (ownedBy t r.began).length ≤ (handed (ownedBy t r.world.ledger.shipped)).length
  | _ => True

-- What a thread had pushed when the job began stands, in order, in the batches the ring
-- holds of it, or in those followed by its tail.
structure Visible (r : Recorder T) (tails : List (T × EventBatch)) (t : T) : Prop where
  held : ∀ b ∈ ownedBy t r.world.ledger.drained, b ∈ r.ring.batches
  covered : ownedBy t r.began <+: (ownedBy t r.world.ledger.drained).flatMap (·.entries) ∨
    ∃ x, (t,x) ∈ tails ∧
      ownedBy t r.began <+: (ownedBy t r.world.ledger.drained).flatMap (·.entries) ++ x.entries

variable {tidOf : T → UInt32} {r r' : Recorder T} {w w' : World T} {a : Act T} {t : T}

theorem scan_covers {tails : List (T × EventBatch)} (kept : Kept tidOf r) (scan : Scan r [] tails)
    (accepted : ∀ s ∈ r.world.ledger.shipped, s.2.1 = true) (empty : r.world.queue.held t = [])
    (met : (r.world.stage t).gone = true → t ∉ tails.map (·.1) →
      (ownedBy t r.began).length ≤ (handed (ownedBy t r.world.ledger.shipped)).length) :
    ownedBy t r.began <+: (ownedBy t r.world.ledger.drained).flatMap (·.entries) ∨
      ∃ x, (t,x) ∈ tails ∧
        ownedBy t r.began <+: (ownedBy t r.world.ledger.drained).flatMap (·.entries) ++ x.entries := by
  have all := accepted_drained kept.sound accepted empty
  have flat := handed_flat (ownedBy t r.world.ledger.shipped)
  rw [all] at flat
  by_cases read : t ∈ tails.map (·.1)
  · obtain ⟨⟨u,x⟩,present,rfl⟩ := List.mem_map.mp read
    obtain ⟨i,copy,_⟩ := scan.tail u x present
    obtain ⟨hand,batches,one⟩ := batches_hand (r.world.view u)
    have shipped : (r.world.view u).shipped.map (·.2) = ownedBy u r.world.ledger.drained := all
    rw [batches,shipped] at copy
    rcases copy.handed one with ⟨covered,_⟩ | ⟨_,covered,_⟩
    · exact .inl covered
    · exact .inr ⟨x,present,covered⟩
  · refine .inl (flat ▸ ?_)
    rcases scan.bare t (by simp) read with done | gone
    · exact done
    · have told := (kept.sound.threads t).told
      have offered : handed (ownedBy t r.world.ledger.shipped) <+: ownedBy t r.world.ledger.pushed :=
        ⟨_,told⟩
      exact List.prefix_of_prefix_length_le (kept.began t) offered (met gone read)

def Settles (r : Recorder T) : Prop :=
  ∀ goal tails, r.phase = .collected goal tails → (∀ s ∈ r.world.ledger.shipped, s.2.1 = true) →
    ∀ t, ownedBy t r.began <+: (ownedBy t r.world.ledger.drained).flatMap (·.entries) ∨
      ∃ x, (t,x) ∈ tails ∧
        ownedBy t r.began <+: (ownedBy t r.world.ledger.drained).flatMap (·.entries) ++ x.entries

theorem settles_step {act : RecorderAct T} (kept : Kept tidOf r) (settles : Settles r)
    (met : HandedOver r act) (stepped : r.step tidOf act = some r') : Settles r' := by
  intro goal tails collected accepted t
  rcases reaches_collected stepped collected with
    ⟨before,a,w',moved,rfl,_,undrained,_⟩ | ⟨rfl,phase,nothing,moved,drained,shape⟩
  · have drained := (step_rest kept.sound moved).drained undrained
    simpa only [Recorder.withWorld,drained] using
      settles goal tails before (step_accepted kept.sound moved accepted) t
  · have covers := scan_covers kept (kept.scan [] tails (by rw [phase]; rfl))
      (step_accepted kept.sound moved accepted) (drain_none nothing t) (met goal tails phase nothing t)
    rw [shape,drained]
    exact covers

theorem exits_seen (tidOf : T → UInt32) (id : Nat) (clock : Clock) (capacityBytes : Nat)
    {acts : List (RecorderAct T)} {r : Recorder T} {goal : Goal} {tails : List (T × EventBatch)}
    (run : Machine.Runs (Recorder.step tidOf) HandedOver (.initial id clock capacityBytes) acts r)
    (accepted : ∀ s ∈ r.world.ledger.shipped, s.2.1 = true)
    (unevicted : r.ring.batches = r.world.ledger.drained.map (·.2))
    (collected : r.phase = .collected goal tails) (t : T) : Visible r tails t := by
  obtain ⟨_,settles⟩ := run.invariant (I := fun r => Kept tidOf r ∧ Settles r)
    ⟨initial_kept id clock capacityBytes,by simp [Settles,Recorder.initial]⟩
    fun m act m' inv met stepped => ⟨kept_step inv.1 stepped,settles_step inv.1 inv.2 met stepped⟩
  refine ⟨fun b present => ?_,settles goal tails collected accepted t⟩
  rw [unevicted]
  exact List.mem_map.mpr ⟨(t,b),mem_ownedBy.mp present,rfl⟩

def pushedOnce : List (RecorderAct Unit) :=
  [.record (.push () 1 100 7 .Begin),.record (.arm ()),.record (.write ())]

def testsHandedOver (r : Recorder Unit) : RecorderAct Unit → Bool
  | .absorb =>
    match r.phase with
    | .settling _ tails => (r.world.stage ()).gone → tails.map (·.1) ≠ [] ∨
        (ownedBy () r.began).length ≤ (handed (ownedBy () r.world.ledger.shipped)).length
    | _ => true
  | _ => true

-- The thread leaves after its tail was read, and still has its batch in hand at the end.
theorem exits_seen_by_tail : ∃ (r : Recorder Unit) (tails : List (Unit × EventBatch)),
    r.phase = .collected (.dump 0 200) tails ∧ (ownedBy () r.began).length = 1 ∧
      r.ring.batches = [] ∧ Visible r tails () := by
  have ran : (Machine.checkedRun (Recorder.step fun _ => 1) testsHandedOver (.initial 1 .mock 1000000)
      (pushedOnce ++ [.dump 0 200,.absorb,.lock,.readTail,.unlock,.exit (),.exit (),.exit (),
        .absorb])).map (fun r =>
          (r.phase,(ownedBy () r.began).length,r.ring.batches.isEmpty,r.world.ledger.drained.isEmpty,
            r.world.ledger.shipped.isEmpty)) =
      some (.collected (.dump 0 200) [((),⟨100,1,[⟨0,packCodeKind 7 .Begin⟩],1⟩)],1,true,true,true) := by
    decide +kernel
  obtain ⟨r,run,facts⟩ := Option.map_eq_some_iff.mp ran
  simp only [Prod.mk.injEq,List.isEmpty_iff] at facts
  obtain ⟨phase,began,ring,drained,shipped⟩ := facts
  refine ⟨r,_,phase,began,ring,exits_seen (fun _ => 1) 1 .mock 1000000
    (Machine.runs_of_checked (fun r act checked => ?_) run) (by simp [shipped]) (by simp [ring,drained])
    phase ()⟩
  cases act with
  | absorb =>
    intro goal tails settling _ t gone unread
    simp only [testsHandedOver,settling,decide_eq_true_eq] at checked
    exact (checked gone).resolve_left fun some_ => some_ (List.eq_nil_iff_forall_not_mem.mpr fun u => unread)
  | _ => trivial

-- The dump begins, the thread deregisters, and the dump looks through registry and rings
-- before the thread's batch has reached its ring.
theorem leaving_thread_is_unseen : ∃ r : Recorder Unit,
    Machine.run (Recorder.step fun _ => 1) (.initial 1 .mock 1000000)
      (pushedOnce ++ [.dump 0 200,.absorb,.exit (),.lock,.unlock,.absorb]) = some r ∧
    r.phase = .collected (.dump 0 200) [] ∧ (ownedBy () r.began).length = 1 ∧ r.ring.batches = [] ∧
      r.world.ledger.shipped = [] ∧ ¬Visible r [] () := by
  have ran : (Machine.run (Recorder.step fun _ => 1) (.initial 1 .mock 1000000)
      (pushedOnce ++ [.dump 0 200,.absorb,.exit (),.lock,.unlock,.absorb])).map (fun r =>
          (r.phase,(ownedBy () r.began).length,r.ring.batches.isEmpty,r.world.ledger.drained.isEmpty,
            r.world.ledger.shipped.isEmpty)) =
      some (.collected (.dump 0 200) [],1,true,true,true) := by decide
  obtain ⟨r,run,facts⟩ := Option.map_eq_some_iff.mp ran
  simp only [Prod.mk.injEq,List.isEmpty_iff] at facts
  obtain ⟨phase,began,ring,drained,shipped⟩ := facts
  refine ⟨r,run,phase,began,ring,shipped,fun visible => ?_⟩
  rcases visible.covered with covered | ⟨x,present,_⟩
  · have shorter := covered.length_le
    rw [began,drained] at shorter
    exact absurd shorter (by decide)
  · cases present

end Visibility

-- A run of one queue up to its end: threads that record and exit, a consumer, and the thread
-- that ends the run.
structure Session (T : Type) where
  world : World T
  ender : Ender T

inductive SessionAct (T : Type) where
  | record (a : Act T)
  | exit (t : T)
  | drain (limit : Nat)
  | ender (act : EndAct)

variable {T : Type} [DecidableEq T]

namespace Session

def initial (id : Nat) (clock : Clock) : Session T := ⟨.initial id clock,.recording⟩

def withWorld (s : Session T) (w : World T) : Session T := {s with world := w}

def step (tidOf : T → UInt32) (s : Session T) : SessionAct T → Option (Session T)
  | .record a => do
    let t ← a.recordedBy
    if s.ender.admits t then (s.world.step tidOf a).map s.withWorld else none
  | .exit t => do
    let a ← exitAct t (s.world.stage t)
    if s.world.stage t = .idle ∧ s.ender.locks then none else (s.world.step tidOf a).map s.withWorld
  | .drain limit => (s.world.step tidOf (.drain limit)).map s.withWorld
  | .ender act => (s.ender.step tidOf s.world act).map fun next => ⟨next.1,next.2⟩

end Session

-- An exiting thread that has a batch to hand over finds room for it.
def RoomAtExit (s : Session T) : SessionAct T → Prop
  | .exit t => ∀ full, s.world.stage t = .rearmed true full →
      (s.world.queue.held t).length < batchesCapacity
  | _ => True

-- The flush is recorded, no thread stands inside a call, and nothing is left to drain.
structure Over (s : Session T) : Prop where
  flushed : s.ender = .flushed ∨ s.ender = .closed
  outside : ∀ t, s.world.stage t = .idle ∨ s.world.stage t = .exited
  drained : ∀ t, s.world.queue.held t = []

def delivered (w : World T) : Nat := (w.ledger.drained.map fun x => x.2.events.length).sum

variable {tidOf : T → UInt32} {w w' : World T} {t : T} {s s' : Session T}

theorem session_step (act : SessionAct T) (sound : EndSound tidOf s.world s.ender)
    (stepped : s.step tidOf act = some s') : EndSound tidOf s'.world s'.ender := by
  cases act with
  | record a =>
    obtain ⟨t,own,stepped⟩ := Option.bind_eq_some_iff.mp stepped
    split at stepped
    · rename_i admitted
      obtain ⟨w,moved,rfl⟩ := Option.map_eq_some_iff.mp stepped
      exact end_record sound own admitted moved
    · cases stepped
  | exit t =>
    obtain ⟨a,next,stepped⟩ := Option.bind_eq_some_iff.mp stepped
    split at stepped
    · cases stepped
    · rename_i free
      obtain ⟨w,moved,rfl⟩ := Option.map_eq_some_iff.mp stepped
      refine end_exit sound next (fun idle => ?_) moved
      exact Bool.eq_false_iff.mpr fun locked => free ⟨idle,locked⟩
  | drain limit =>
    cases stepped
    exact end_drain sound rfl
  | ender act =>
    obtain ⟨next,moved,rfl⟩ := Option.map_eq_some_iff.mp stepped
    exact (ender_step sound moved).1

theorem roomy_handOver (sound : Sound tidOf w) (stepped : w.step tidOf (.handOver t) = some w')
    (room : (w.queue.held t).length < batchesCapacity) : w'.ledger.exitLost = w.ledger.exitLost := by
  simp only [World.step] at stepped
  split at stepped
  · rename_i leaving full stage
    obtain ⟨q,accepted,offered,_,rfl⟩ := handOver_cases sound stage stepped
    have taken : accepted = true := offered.room.mpr room
    cases leaving <;> simp [taken,World.logLost,World.logShipped,World.withQueue,World.put]
  · cases stepped

theorem ender_exitLost {ender : Ender T} {act : EndAct} {next : World T × Ender T}
    (sound : EndSound tidOf w ender) (stepped : ender.step tidOf w act = some next) :
    next.1.ledger.exitLost = w.ledger.exitLost := by
  unfold Ender.step at stepped
  split at stepped
  · cases stepped
    rfl
  · rename_i t rest inside lost
    obtain ⟨a,called,stepped⟩ := Option.bind_eq_some_iff.mp stepped
    obtain ⟨w',moved,same⟩ := Option.bind_eq_some_iff.mp stepped
    cases Option.some.inj same
    refine (step_rest sound.sound moved).exitLost fun u full hands stage => ?_
    subst hands
    cases inside with
    | false => cases called
    | true =>
      cases (flushAct_thread called).1
      simp [flushAct,stage] at called
  · split at stepped
    · cases stepped
      rfl
    · cases stepped
  · obtain ⟨w',moved,rfl⟩ := Option.map_eq_some_iff.mp stepped
    exact ((step_rest sound.sound moved).losses (by simp)).2
  · obtain ⟨w',moved,rfl⟩ := Option.map_eq_some_iff.mp stepped
    exact ((step_rest sound.sound moved).losses (by simp)).2
  · cases stepped

theorem session_exitLost (act : SessionAct T) (sound : EndSound tidOf s.world s.ender)
    (met : RoomAtExit s act) (stepped : s.step tidOf act = some s') :
    s'.world.ledger.exitLost = s.world.ledger.exitLost := by
  cases act with
  | record a =>
    obtain ⟨t,own,stepped⟩ := Option.bind_eq_some_iff.mp stepped
    split at stepped
    · obtain ⟨w,moved,rfl⟩ := Option.map_eq_some_iff.mp stepped
      exact ((step_rest sound.sound moved).losses (recordedBy_thread own).2.2.2.1).2
    · cases stepped
  | exit t =>
    obtain ⟨a,next,stepped⟩ := Option.bind_eq_some_iff.mp stepped
    split at stepped
    · cases stepped
    · obtain ⟨w,moved,rfl⟩ := Option.map_eq_some_iff.mp stepped
      by_cases hands : ∃ full, s.world.stage t = .rearmed true full
      · obtain ⟨full,stage⟩ := hands
        rw [stage] at next
        cases Option.some.inj next
        exact roomy_handOver sound.sound moved (met full stage)
      · refine (step_rest sound.sound moved).exitLost fun u full handOver stage => hands ⟨full,?_⟩
        subst handOver
        cases (exitAct_thread next).1
        exact stage
  | drain limit =>
    cases stepped
    rfl
  | ender act =>
    obtain ⟨next,moved,rfl⟩ := Option.map_eq_some_iff.mp stepped
    exact ender_exitLost sound moved

theorem done_inHand (sound : Sound tidOf w) (done : Done w t)
    (outside : w.stage t = .idle ∨ w.stage t = .exited) : (w.view t).inHand = [] := by
  rcases outside with idle | exited
  · obtain ⟨_,written⟩ := done.resolve_right (by simp [idle,Stage.gone])
    simpa [View.inHand,World.view,idle] using written
  · have standing := (sound.threads t).standing
    simp only [Standing,World.view,exited] at standing
    simp [View.inHand,World.view,exited,Local.written,standing]

omit [DecidableEq T] in
theorem shipped_split (shipped : List (T × Bool × EventBatch)) :
    (shipped.map fun s => s.2.2.events.length).sum =
      (((shipped.filter (·.2.1)).map fun s => (s.1,s.2.2)).map fun x => x.2.events.length).sum +
        rejectedEvents shipped := by
  induction shipped with
  | nil => rfl
  | cons s rest ih =>
    obtain ⟨t,accepted,b⟩ := s
    unfold rejectedEvents at ih ⊢
    cases accepted
    · simp only [List.map_cons,List.sum_cons,ih,List.filter_cons,Bool.false_eq_true,if_false,
        Bool.not_false,if_true]
      omega
    · simp only [List.map_cons,List.sum_cons,ih,List.filter_cons,Bool.not_true,Bool.false_eq_true,
        if_false,if_true]
      omega

theorem ownedBy_accepted (t : T) (shipped : List (T × Bool × EventBatch)) :
    ownedBy t ((shipped.filter (·.2.1)).map fun s => (s.1,s.2.2)) =
      acceptedOf (ownedBy t shipped) := by
  induction shipped with
  | nil => rfl
  | cons s rest ih =>
    obtain ⟨u,accepted,b⟩ := s
    cases accepted
    · by_cases mine : u = t <;> simpa [mine,acceptedOf,Keyed.ownedBy_cons] using ih
    · by_cases mine : u = t <;> simpa [mine,acceptedOf,Keyed.ownedBy_cons] using ih

theorem pushed_balance (sound : EndSound tidOf s.world s.ender) (ended : Over s) :
    s.world.ledger.pushed.length =
      delivered s.world + s.world.queue.dropped + s.world.ledger.exitLost := by
  have quiet : s.world.ledger.lost = s.world.ledger.recorded ∧ ∀ t, Done s.world t := by
    have reached := sound.quiet
    rcases ended.flushed with ender | ender <;> rw [ender] at reached <;> exact reached
  have offered : s.world.ledger.pushed.length =
      (s.world.ledger.shipped.map fun x => x.2.2.events.length).sum := by
    have total : (s.world.ledger.pushed.map fun _ => 1).sum =
        (s.world.ledger.shipped.map fun x => x.2.2.events.length).sum := by
      refine Keyed.tally_eq (f := fun _ => 1) (g := fun x : Bool × EventBatch => x.2.events.length)
        fun t => ?_
      have told := (sound.sound.threads t).told
      rw [done_inHand sound.sound (quiet.2 t) (ended.outside t),List.append_nil] at told
      have told : handed (ownedBy t s.world.ledger.shipped) = ownedBy t s.world.ledger.pushed := told
      rw [← told,handed]
      simp [List.length_flatMap]
    simpa using total
  have accepted : (((s.world.ledger.shipped.filter (·.2.1)).map fun x => (x.1,x.2.2)).map
      fun x => x.2.events.length).sum = delivered s.world := by
    refine Keyed.tally_eq (f := fun b : EventBatch => b.events.length)
      (g := fun b : EventBatch => b.events.length) fun t => ?_
    have kept : acceptedOf (ownedBy t s.world.ledger.shipped) =
        ownedBy t s.world.ledger.drained ++ s.world.queue.held t := (sound.sound.threads t).kept
    rw [ownedBy_accepted,kept,ended.drained t,List.append_nil]
  have balance := sound.sound.balance
  rw [offered,shipped_split,accepted]
  omega

theorem exits_accounted (tidOf : T → UInt32) (id : Nat) (clock : Clock) {acts : List (SessionAct T)}
    {s : Session T} (run : Machine.Runs (Session.step tidOf) RoomAtExit (.initial id clock) acts s)
    (ended : Over s) : s.world.ledger.pushed.length = delivered s.world + s.world.queue.dropped := by
  obtain ⟨sound,present⟩ := run.invariant
    (I := fun s => EndSound tidOf s.world s.ender ∧ s.world.ledger.exitLost = 0)
    ⟨initial_end id clock,rfl⟩
    fun m act m' kept met stepped => ⟨session_step act kept.1 stepped,
      (session_exitLost act kept.1 met stepped).trans kept.2⟩
  have balance := pushed_balance sound ended
  omega

def testsRoom (s : Session Bool) : SessionAct Bool → Bool
  | .exit t => (s.world.queue.held t).length < batchesCapacity
  | _ => true

theorem exits_accounted_two : ∃ s : Session Bool, Over s ∧ s.world.ledger.pushed.length = 2 ∧
    s.world.ledger.pushed.length = delivered s.world + s.world.queue.dropped := by
  have ran : (Machine.checkedRun (Session.step fun t => if t then 1 else 2) testsRoom (.initial 1 .mock)
      [.record (.push true 1 100 7 .Begin),.record (.push false 1 101 8 .Begin),.record (.arm true),
        .record (.arm false),.record (.write false),.record (.write true),.exit true,.exit true,
        .exit true,.exit true,.exit true,.ender .flushAll,.ender .flush,.ender .flush,.ender .flush,
        .ender .flush,.ender .next,.ender .recordLost,.drain 1,.drain 1]).map (fun s =>
          (s.ender,s.world.stage true,s.world.stage false,(s.world.queue.held true).isEmpty,
            (s.world.queue.held false).isEmpty,s.world.ledger.pushed.length)) =
        some (.flushed,.exited,.idle,true,true,2) := by decide
  obtain ⟨s,run,facts⟩ := Option.map_eq_some_iff.mp ran
  simp only [Prod.mk.injEq,List.isEmpty_iff] at facts
  obtain ⟨flushed,gone,idle,none,nothing,pushed⟩ := facts
  have ended : Over s := by
    refine ⟨.inl flushed,fun t => ?_,fun t => ?_⟩ <;> cases t
    · exact .inl idle
    · exact .inr gone
    · exact nothing
    · exact none
  refine ⟨s,ended,pushed,exits_accounted _ 1 .mock (Machine.runs_of_checked (fun s act checked => ?_) run)
    ended⟩
  cases act with
  | exit t =>
    intro full _
    simpa [testsRoom] using checked
  | _ => trivial

def farPush (k : Nat) : List (SessionAct Unit) :=
  [.record (.push () 1 (.ofNat (k * 0x200000000)) 7 .Begin),.record (.arm ()),.record (.write ())]

-- Nothing is drained before the exit: 64 batches fill the ring, and the last one is dropped
-- without being counted.
theorem exit_into_full_ring_is_uncounted : ∃ s : Session Unit,
    Machine.run (Session.step fun _ => 1) (.initial 1 .mock)
      ((List.range 65).flatMap farPush ++ [.exit (),.exit (),.exit (),.exit (),.exit (),
        .ender .flushAll,.ender .recordLost,.drain usizeMax]) = some s ∧
    Over s ∧ s.world.ledger.pushed.length = 65 ∧ delivered s.world = 64 ∧
      s.world.queue.dropped = 0 := by
  have ran : (Machine.run (Session.step fun _ => 1) (.initial 1 .mock)
      ((List.range 65).flatMap farPush ++ [.exit (),.exit (),.exit (),.exit (),.exit (),
        .ender .flushAll,.ender .recordLost,.drain usizeMax])).map (fun s =>
          (s.ender,s.world.stage (),(s.world.queue.held ()).isEmpty,s.world.ledger.pushed.length,
            delivered s.world,s.world.queue.dropped)) =
      some (.flushed,.exited,true,65,64,0) := by decide +kernel
  obtain ⟨s,run,facts⟩ := Option.map_eq_some_iff.mp ran
  simp only [Prod.mk.injEq,List.isEmpty_iff] at facts
  obtain ⟨flushed,gone,nothing,pushed,out,dropped⟩ := facts
  exact ⟨s,run,⟨.inl flushed,fun _ => .inr gone,fun _ => nothing⟩,pushed,out,dropped⟩

end Trace0
