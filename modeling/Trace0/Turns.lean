import Trace0.Tracing

namespace Trace0

variable {T : Type} [DecidableEq T]

structure InCall (s : Tracing T) (t : T) (key ticks : UInt64) : Prop where
  stage : s.recorder.world.stage t = .idle
  live : ∃ info, s.live key = some info
  past : ticks ≤ s.clock
  forward : ∀ e ∈ ownedBy t s.recorder.world.ledger.pushed, e.1 ≤ ticks

def InPush (stage : Stage) (ticks : UInt64) (codeKind : UInt32) : Prop :=
  stage = .renewed ticks codeKind ∨ stage = .armed ticks codeKind

def CallSound (s : Tracing T) (t : T) : Prop :=
  match s.callbacks t with
  | .outside => s.recorder.world.stage t = .idle
  | .began key _ ticks | .missed key _ ticks | .floored key _ ticks _ => InCall s t key ticks
  | .resolved key _ ticks id => InCall s t key ticks ∧ s.interner.map key = some id
  | .pushing key => ∃ ticks kind id, InPush (s.recorder.world.stage t) ticks (packCodeKind id kind) ∧
      ticks ≤ s.clock ∧ s.interner.map key = some id

structure Interned (s : Tracing T) : Prop where
  interner : s.interner.Sound
  names : ∀ key id, s.interner.map key = some id → ∃ info, s.live key = some info ∧
    s.interner.code id = some info
  parallel : s.origins.map (·.1) = s.recorder.world.ledger.pushed.map (·.1)
  past : ∀ x ∈ s.recorder.world.ledger.pushed, x.2.1 ≤ s.clock
  freed : ∀ x ∈ s.interner.free, x.2 ≤ s.clock ∧
    ∀ p ∈ s.recorder.world.ledger.pushed, codeIdOf p.2.2 = x.1 → p.2.1 ≤ x.2

structure Traced (tidOf : T → UInt32) (s : Tracing T) : Prop extends Interned s where
  timed : Timed tidOf s.recorder
  staying : ∀ t, (s.recorder.world.stage t).gone = false
  callbacks : ∀ t, CallSound s t

variable {tidOf : T → UInt32} {s s' : Tracing T} {t : T} {w w' : World T}

theorem push_logs (sound : Sound tidOf w)
    (stepped : w.step tidOf (.push t run ticks codeId kind) = some w') :
    (w'.stage t = .idle ∧ w'.ledger.pushed = w.ledger.pushed ++ [(t,ticks,packCodeKind codeId kind)]) ∨
      w'.stage t = .renewed ticks (packCodeKind codeId kind) ∧ w'.ledger.pushed = w.ledger.pushed := by
  simp only [World.step] at stepped
  split at stepped
  · rename_i idle
    rcases pushStep_cases sound idle stepped with ⟨_,l,_,rfl⟩ | ⟨_,_,_,rfl⟩ | ⟨_,_,o,o',brk,q,accepted,_,_,_,_,_,rfl⟩
    · exact .inl ⟨by simp [World.put,World.logPushed],rfl⟩
    · exact .inr ⟨by simp [World.put,World.withQueue,World.register],rfl⟩
    · exact .inr ⟨by simp [World.put,World.withQueue,World.logShipped],rfl⟩
  · cases stepped

theorem arm_logs (stepped : w.step tidOf (.arm t) = some w') (pushing : InPush (w.stage t) ticks codeKind) :
    InPush (w'.stage t) ticks codeKind ∧ w'.ledger.pushed = w.ledger.pushed := by
  simp only [World.step] at stepped
  rcases pushing with renewed | armed
  · simp only [renewed] at stepped
    cases stepped
    exact ⟨.inr (by simp [World.put]),rfl⟩
  · simp [armed] at stepped

theorem write_logs (stepped : w.step tidOf (.write t) = some w') (pushing : InPush (w.stage t) ticks codeKind) :
    w'.stage t = .idle ∧ w'.ledger.pushed = w.ledger.pushed ++ [(t,ticks,codeKind)] := by
  simp only [World.step] at stepped
  rcases pushing with renewed | armed
  · simp [renewed] at stepped
  · simp only [armed] at stepped
    obtain ⟨l,_,rfl⟩ := Option.map_eq_some_iff.mp stepped
    exact ⟨by simp [World.put,World.logPushed],rfl⟩

-- What a step can do, by what it changes: nothing that is recorded; an id waits to be
-- recycled; an id is handed out; a thread takes a step of a push; the recorder a step of its
-- own.
inductive Turn (tidOf : T → UInt32) (s s' : Tracing T) : Prop where
  | quiet (recorder : s'.recorder = s.recorder) (interner : s'.interner = s.interner)
      (origins : s'.origins = s.origins) (starts : s'.starts = s.starts) (dumped : s'.dumped = s.dumped)
      (clock : s.clock ≤ s'.clock)
      (live : ∀ key info, s.live key = some info → s'.live key = some info)
  | forgets (key : UInt64) (recorder : s'.recorder = s.recorder)
      (interner : s'.interner = (s.interner.forget key s.clock).2) (origins : s'.origins = s.origins)
      (starts : s'.starts = s.starts) (dumped : s'.dumped = s.dumped) (clock : s'.clock = s.clock)
      (live : s'.live = Function.update s.live key none)
  | inserts (t : T) (key : UInt64) (kind : EventKind) (ticks floor : UInt64) (info : CodeInfo)
      (callback : s.callbacks t = .floored key kind ticks floor) (alive : s.live key = some info)
      (recorder : s'.recorder = s.recorder)
      (interner : s'.interner = (s.interner.insert info key floor).2) (origins : s'.origins = s.origins)
      (starts : s'.starts = s.starts) (dumped : s'.dumped = s.dumped) (clock : s'.clock = s.clock)
      (live : s'.live = s.live)
  | records (t : T) (a : Act T) (stepped : s.recorder.step tidOf (.record a) = some s'.recorder)
      (own : a.recordedBy = some t) (timely : InTime s.recorder (.record a))
      (interner : s'.interner = s.interner) (starts : s'.starts = s.starts) (dumped : s'.dumped = s.dumped)
      (clock : s'.clock = s.clock) (live : s'.live = s.live)
      (logged : s'.recorder.world.ledger.pushed = s.recorder.world.ledger.pushed ∧ s'.origins = s.origins ∨
        ∃ ticks key kind id info, ticks ≤ s.clock ∧ s.interner.map key = some id ∧ s.live key = some info ∧
          s'.recorder.world.ledger.pushed =
            s.recorder.world.ledger.pushed ++ [(t,ticks,packCodeKind id kind)] ∧
          s'.origins = s.origins ++ [(t,info)])
  | own (act : RecorderAct T) (stepped : s.recorder.step tidOf act = some s'.recorder)
      (recorder : (∀ a, act ≠ .record a) ∧ (∀ t, act ≠ .exit t) ∧ ∀ now, act = .floor now → now = s.clock)
      (interner : s'.interner = s.interner) (origins : s'.origins = s.origins)
      (starts : s'.starts = s.startsAfter act) (dumped : s'.dumped = s.dumpedAfter act)
      (clock : s'.clock = s.clock) (live : s'.live = s.live)

theorem record_world {a : Act T} {r r' : Recorder T} (stepped : r.step tidOf (.record a) = some r') :
    r.world.step tidOf a = some r'.world ∧ ∃ t, a.recordedBy = some t := by
  obtain ⟨t,own,stepped⟩ := Option.bind_eq_some_iff.mp stepped
  split at stepped
  · cases stepped
  · obtain ⟨w,moved,rfl⟩ := Option.map_eq_some_iff.mp stepped
    exact ⟨moved,t,own⟩

theorem recorder_turn {act : RecorderAct T} (stepped : s.recorderStep tidOf act = some s') : Turn tidOf s s' := by
  cases act with
  | record a => cases stepped
  | exit t => cases stepped
  | floor now =>
    simp only [Tracing.recorderStep] at stepped
    split at stepped
    · rename_i same
      obtain ⟨r,next,rfl⟩ := Option.map_eq_some_iff.mp stepped
      refine .own (.floor now) next ⟨by simp,by simp,?_⟩ rfl rfl rfl rfl rfl rfl
      intro now' equal
      cases equal
      exact same
    · cases stepped
  | _ =>
    obtain ⟨r,next,rfl⟩ := Option.map_eq_some_iff.mp stepped
    exact .own _ next ⟨by simp,by simp,by simp⟩ rfl rfl rfl rfl rfl rfl

theorem push_turn (traced : Traced tidOf s) (stepped : s.pushStep tidOf t = some s') : Turn tidOf s s' := by
  unfold Tracing.pushStep at stepped
  split at stepped
  · rename_i key kind ticks id resolved
    obtain ⟨info,alive,stepped⟩ := Option.bind_eq_some_iff.mp stepped
    obtain ⟨r,next,stepped⟩ := Option.bind_eq_some_iff.mp stepped
    have call := traced.callbacks t
    simp only [CallSound,resolved] at call
    obtain ⟨inCall,mapped⟩ := call
    have logs := push_logs traced.timed.kept.sound (record_world next).1
    split at stepped
    · rename_i idle
      cases stepped
      refine .records t _ next rfl inCall.forward rfl rfl rfl rfl rfl (.inr ?_)
      rcases logs with ⟨_,logged⟩ | ⟨renewed,_⟩
      · exact ⟨ticks,key,kind,id,info,inCall.past,mapped,alive,logged,rfl⟩
      · rw [idle] at renewed
        cases renewed
    · rename_i busy
      cases stepped
      refine .records t _ next rfl inCall.forward rfl rfl rfl rfl rfl (.inl ?_)
      rcases logs with ⟨idle,_⟩ | ⟨_,logged⟩
      · exact absurd idle busy
      · exact ⟨logged,rfl⟩
  · cases stepped

theorem tracing_turn {act : TracingAct T} (traced : Traced tidOf s) (stepped : s.step tidOf act = some s') :
    Turn tidOf s s' := by
  cases act with
  | tick now =>
    simp only [Tracing.step] at stepped
    split at stepped
    · rename_i later
      cases stepped
      exact .quiet rfl rfl rfl rfl rfl later fun _ _ alive => alive
    · cases stepped
  | create key info =>
    simp only [Tracing.step] at stepped
    split at stepped
    · rename_i vacant
      cases stepped
      refine .quiet rfl rfl rfl rfl rfl (UInt64.le_refl _) ?_
      intro key' info' alive
      have other : key' ≠ key := by
        rintro rfl
        rw [vacant] at alive
        cases alive
      simpa [Function.update_of_ne other] using alive
    · cases stepped
  | destroy key =>
    obtain ⟨info,_,rfl⟩ := Option.map_eq_some_iff.mp stepped
    exact .forgets key rfl rfl rfl rfl rfl rfl rfl
  | call t key kind =>
    simp only [Tracing.step] at stepped
    split at stepped
    · obtain ⟨info,_,rfl⟩ := Option.map_eq_some_iff.mp stepped
      exact .quiet rfl rfl rfl rfl rfl (UInt64.le_refl _) fun _ _ alive => alive
    · cases stepped
  | lookup t =>
    simp only [Tracing.step] at stepped
    split at stepped
    · cases stepped
      exact .quiet rfl rfl rfl rfl rfl (UInt64.le_refl _) fun _ _ alive => alive
    · cases stepped
  | readFloor t =>
    simp only [Tracing.step] at stepped
    split at stepped
    · cases stepped
      exact .quiet rfl rfl rfl rfl rfl (UInt64.le_refl _) fun _ _ alive => alive
    · cases stepped
  | insert t =>
    simp only [Tracing.step,Tracing.insertStep] at stepped
    split at stepped
    · rename_i key kind ticks floor floored
      obtain ⟨info,alive,rfl⟩ := Option.map_eq_some_iff.mp stepped
      exact .inserts t key kind ticks floor info floored alive rfl rfl rfl rfl rfl rfl rfl
    · cases stepped
  | push t => exact push_turn traced stepped
  | arm t =>
    simp only [Tracing.step] at stepped
    split at stepped
    · rename_i key pushing
      obtain ⟨r,next,rfl⟩ := Option.map_eq_some_iff.mp stepped
      have call := traced.callbacks t
      simp only [CallSound,pushing] at call
      obtain ⟨ticks,kind,id,inside,_⟩ := call
      exact .records t _ next rfl trivial rfl rfl rfl rfl rfl (.inl ⟨(arm_logs (record_world next).1 inside).2,rfl⟩)
    · cases stepped
  | write t =>
    simp only [Tracing.step] at stepped
    split at stepped
    · rename_i key pushing
      obtain ⟨info,alive,stepped⟩ := Option.bind_eq_some_iff.mp stepped
      obtain ⟨r,next,stepped⟩ := Option.bind_eq_some_iff.mp stepped
      cases stepped
      have call := traced.callbacks t
      simp only [CallSound,pushing] at call
      obtain ⟨ticks,kind,id,inside,past,mapped⟩ := call
      refine .records t _ next rfl trivial rfl rfl rfl rfl rfl (.inr ?_)
      exact ⟨ticks,key,kind,id,info,past,mapped,alive,(write_logs (record_world next).1 inside).2,rfl⟩
    · cases stepped
  | recorder act => exact recorder_turn stepped

theorem own_inTime {act : RecorderAct T} {r : Recorder T} (unrecorded : ∀ a, act ≠ .record a) : InTime r act := by
  cases act with
  | record a => exact absurd rfl (unrecorded a)
  | _ => trivial

theorem turn_timed (traced : Traced tidOf s) (turn : Turn tidOf s s') :
    Timed tidOf s'.recorder ∧ ∀ t, (s'.recorder.world.stage t).gone = false := by
  obtain ⟨_,timed,staying,_⟩ := traced
  cases turn with
  | quiet recorder =>
    rw [recorder]
    exact ⟨timed,staying⟩
  | forgets key recorder =>
    rw [recorder]
    exact ⟨timed,staying⟩
  | inserts t key kind ticks floor info callback alive recorder =>
    rw [recorder]
    exact ⟨timed,staying⟩
  | records t a stepped own timely =>
    exact ⟨timed_step timed timely stepped,stays_step timed.kept.sound stepped staying (by simp)⟩
  | own act stepped recorder =>
    obtain ⟨unrecorded,unexited,_⟩ := recorder
    exact ⟨timed_step timed (own_inTime unrecorded) stepped,
      stays_step timed.kept.sound stepped staying unexited⟩

theorem insert_names (traced : Traced tidOf s) {key floor : UInt64} {info : CodeInfo}
    (alive : s.live key = some info) {key' : UInt64} {id' : UInt32}
    (there : (s.interner.insert info key floor).2.map key' = some id') :
    ∃ info', s.live key' = some info' ∧ (s.interner.insert info key floor).2.code id' = some info' := by
  cases inserted : s.interner.insert info key floor with
  | mk result i' =>
    rw [inserted] at there
    cases result with
    | none =>
      rw [Interner.insert_none inserted] at there ⊢
      exact traced.names key' id' there
    | some id =>
      rcases Interner.insert_cases traced.interner inserted with ⟨_,rfl⟩ | ⟨_,assigns,_⟩
      · exact traced.names key' id' there
      · dsimp only at there ⊢
        rw [assigns.map] at there
        by_cases same : key' = key
        · subst key'
          rw [Function.update_self,Option.some.injEq] at there
          subst id'
          exact ⟨info,alive,assigns.code⟩
        · rw [Function.update_of_ne same] at there
          obtain ⟨info',living,named⟩ := traced.names key' id' there
          have other : id' ≠ id := by
            rintro rfl
            exact assigns.unmapped key' there
          exact ⟨info',living,(assigns.others id' other).trans named⟩

theorem turn_interned (traced : Traced tidOf s) (turn : Turn tidOf s s') : Interned s' := by
  obtain ⟨interner,names,parallel,past,freed⟩ := traced.toInterned
  cases turn with
  | quiet recorder same origins starts dumped clock live =>
    rw [← recorder] at parallel past freed
    rw [← origins] at parallel
    rw [← same] at interner names freed
    refine ⟨interner,?_,parallel,fun x pushed => UInt64.le_trans (past x pushed) clock,?_⟩
    · intro key id there
      obtain ⟨info,alive,named⟩ := names key id there
      exact ⟨info,live key info alive,named⟩
    · intro x waits
      obtain ⟨before,ticks⟩ := freed x waits
      exact ⟨UInt64.le_trans before clock,ticks⟩
  | forgets key recorder forgotten origins starts dumped clock live =>
    rw [← recorder] at parallel past freed
    rw [← origins] at parallel
    refine ⟨forgotten ▸ Interner.forget_sound interner key s.clock,?_,parallel,clock ▸ past,?_⟩
    · intro key' id there
      rw [forgotten] at there ⊢
      obtain ⟨other,before⟩ := Interner.forget_map there
      obtain ⟨info,alive,named⟩ := names key' id before
      refine ⟨info,?_,by rw [Interner.forget_code]; exact named⟩
      rw [live,Function.update_of_ne other]
      exact alive
    · intro x waits
      rw [forgotten] at waits
      rw [clock]
      rcases Interner.forget_free x waits with before | now
      · exact freed x before
      · rw [now]
        exact ⟨UInt64.le_refl _,fun p pushed _ => past p pushed⟩
  | inserts t key kind ticks floor info callback alive recorder inserted origins starts dumped clock live =>
    rw [← recorder] at parallel past freed
    rw [← origins] at parallel
    refine ⟨inserted ▸ Interner.insert_sound interner,?_,parallel,clock ▸ past,?_⟩
    · intro key' id there
      rw [inserted] at there ⊢
      rw [live]
      exact insert_names traced alive there
    · intro x waits
      rw [inserted] at waits
      rw [clock]
      exact freed x (Interner.insert_free interner x waits)
  | records t a stepped own timely same starts dumped clock live logged =>
    rw [← same] at interner names freed
    rw [← live] at names
    rw [← clock] at past freed
    rcases logged with ⟨pushed,origins⟩ | ⟨ticks,key,kind,id,info,earlier,mapped,alive,pushed,origins⟩
    · rw [← pushed] at parallel past freed
      rw [← origins] at parallel
      exact ⟨interner,names,parallel,past,freed⟩
    · refine ⟨interner,names,?_,?_,?_⟩
      · rw [pushed,origins,List.map_append,List.map_append,parallel]
        rfl
      · intro x present
        rw [pushed] at present
        rcases List.mem_append.mp present with before | now
        · exact past x before
        · rw [List.mem_singleton.mp now,clock]
          exact earlier
      · intro x waits
        obtain ⟨before,ticks⟩ := freed x waits
        refine ⟨before,?_⟩
        intro p present code
        rw [pushed] at present
        rcases List.mem_append.mp present with old | now
        · exact ticks p old code
        · rw [← same] at mapped
          rw [List.mem_singleton.mp now] at code
          have own := (Interner.mapped_code interner mapped kind).symm.trans code
          exact absurd (own ▸ mapped) ((interner.freed x waits).2 key)
  | own act stepped recorder same origins starts dumped clock live =>
    obtain ⟨_,pushed⟩ := own_quiet stepped recorder.1 recorder.2.1
    rw [← same] at interner names freed
    rw [← live] at names
    rw [← clock] at past freed
    rw [← pushed] at parallel past freed
    rw [← origins] at parallel
    exact ⟨interner,names,parallel,past,freed⟩

theorem callSound_kept {u : T} (call : CallSound s u) (callback : s'.callbacks u = s.callbacks u)
    (stage : s'.recorder.world.stage u = s.recorder.world.stage u)
    (pushed : ownedBy u s'.recorder.world.ledger.pushed = ownedBy u s.recorder.world.ledger.pushed)
    (clock : s.clock ≤ s'.clock)
    (live : ∀ key info, (s.callbacks u).key = some key → s.live key = some info → s'.live key = some info)
    (map : ∀ key id, (s.callbacks u).key = some key → s.interner.map key = some id →
      s'.interner.map key = some id) : CallSound s' u := by
  have inCall {key ticks : UInt64} (here : (s.callbacks u).key = some key) (before : InCall s u key ticks) :
      InCall s' u key ticks := by
    obtain ⟨idle,⟨info,alive⟩,past,forward⟩ := before
    refine ⟨stage.trans idle,⟨info,live key info here alive⟩,UInt64.le_trans past clock,?_⟩
    rw [pushed]
    exact forward
  unfold CallSound at call ⊢
  rw [callback]
  cases at_ : s.callbacks u with
  | outside =>
    simp only [at_] at call
    exact stage.trans call
  | began key kind ticks =>
    simp only [at_] at call
    exact inCall (by rw [at_]; rfl) call
  | missed key kind ticks =>
    simp only [at_] at call
    exact inCall (by rw [at_]; rfl) call
  | floored key kind ticks floor =>
    simp only [at_] at call
    exact inCall (by rw [at_]; rfl) call
  | resolved key kind ticks id =>
    simp only [at_] at call
    exact ⟨inCall (by rw [at_]; rfl) call.1,map key id (by rw [at_]; rfl) call.2⟩
  | pushing key =>
    simp only [at_] at call
    obtain ⟨ticks,kind,id,inside,past,mapped⟩ := call
    dsimp only
    rw [stage]
    exact ⟨ticks,kind,id,inside,UInt64.le_trans past clock,map key id (by rw [at_]; rfl) mapped⟩

theorem quiet_calls {u : T} (traced : Traced tidOf s) (callback : s'.callbacks u = s.callbacks u)
    (recorder : s'.recorder = s.recorder) (interner : s'.interner = s.interner) (clock : s.clock ≤ s'.clock)
    (live : ∀ key info, s.live key = some info → s'.live key = some info) : CallSound s' u := by
  apply callSound_kept (traced.callbacks u) callback (by rw [recorder]) (by rw [recorder]) clock
  · intro key info _
    exact live key info
  · intro key id _
    rw [interner]
    exact fun there => there

theorem recorded_calls {u : T} {a : Act T} (traced : Traced tidOf s) (callback : s'.callbacks u = s.callbacks u)
    (stepped : s.recorder.step tidOf (.record a) = some s'.recorder) (other : a.thread ≠ some u)
    (interner : s'.interner = s.interner) (clock : s'.clock = s.clock) (live : s'.live = s.live) :
    CallSound s' u := by
  obtain ⟨_,stage,pushed,_⟩ := step_bystander traced.timed.kept.sound (record_world stepped).1 other
  apply callSound_kept (traced.callbacks u) callback stage pushed (by rw [clock]; exact UInt64.le_refl _)
  · intro key info _
    rw [live]
    exact fun alive => alive
  · intro key id _
    rw [interner]
    exact fun there => there

theorem push_calls (traced : Traced tidOf s) (stepped : s.pushStep tidOf t = some s') (u : T) :
    CallSound s' u := by
  unfold Tracing.pushStep at stepped
  split at stepped
  · rename_i key kind ticks id resolved
    obtain ⟨info,alive,stepped⟩ := Option.bind_eq_some_iff.mp stepped
    obtain ⟨r,next,stepped⟩ := Option.bind_eq_some_iff.mp stepped
    have call := traced.callbacks t
    simp only [CallSound,resolved] at call
    obtain ⟨inCall,mapped⟩ := call
    have logs := push_logs traced.timed.kept.sound (record_world next).1
    by_cases same : u = t
    · subst u
      split at stepped
      · rename_i idle
        cases stepped
        simp only [CallSound,Tracing.enter,Tracing.logOrigin,Tracing.withRecorder,Function.update_self]
        exact idle
      · rename_i busy
        cases stepped
        simp only [CallSound,Tracing.enter,Tracing.withRecorder,Function.update_self]
        have renewed := (logs.resolve_left fun idle => busy idle.1).1
        exact ⟨ticks,kind,id,.inl renewed,inCall.past,mapped⟩
    · have other : (Act.push t s.recorder.world.queue.id ticks id kind).thread ≠ some u := by
        simpa [Act.thread] using Ne.symm same
      split at stepped
      · cases stepped
        exact recorded_calls traced (Function.update_of_ne same _ _) next other rfl rfl rfl
      · cases stepped
        exact recorded_calls traced (Function.update_of_ne same _ _) next other rfl rfl rfl
  · cases stepped

theorem insert_calls (traced : Traced tidOf s) (stepped : s.insertStep t = some s') (u : T) :
    CallSound s' u := by
  unfold Tracing.insertStep at stepped
  split at stepped
  · rename_i key kind ticks floor floored
    obtain ⟨info,alive,rfl⟩ := Option.map_eq_some_iff.mp stepped
    have call := traced.callbacks t
    simp only [CallSound,floored] at call
    by_cases same : u = t
    · subst u
      cases inserted : s.interner.insert info key floor with
      | mk result i' =>
        cases result with
        | none =>
          simp only [CallSound,Tracing.enter,Function.update_self]
          exact call.stage
        | some id =>
          simp only [CallSound,Tracing.enter,Function.update_self]
          refine ⟨⟨call.stage,call.live,call.past,call.forward⟩,?_⟩
          rcases Interner.insert_cases traced.interner inserted with ⟨there,rfl⟩ | ⟨_,assigns,_⟩
          · exact there
          · rw [assigns.map,Function.update_self]
    · refine callSound_kept (traced.callbacks u) (Function.update_of_ne same _ _) rfl rfl (UInt64.le_refl _) ?_ ?_
      · exact fun _ _ _ alive => alive
      · intro key' id' _ there
        exact Interner.insert_kept traced.interner there
  · cases stepped

theorem recorder_quiet {act : RecorderAct T} (stepped : s.recorderStep tidOf act = some s') :
    s'.callbacks = s.callbacks ∧ s'.clock = s.clock ∧ s'.interner = s.interner ∧ s'.live = s.live ∧
      s'.recorder.world.stage = s.recorder.world.stage ∧
      s'.recorder.world.ledger.pushed = s.recorder.world.ledger.pushed := by
  cases act with
  | record a => cases stepped
  | exit t => cases stepped
  | floor now =>
    simp only [Tracing.recorderStep] at stepped
    split at stepped
    · obtain ⟨r,next,rfl⟩ := Option.map_eq_some_iff.mp stepped
      exact ⟨rfl,rfl,rfl,rfl,own_quiet next (by simp) (by simp)⟩
    · cases stepped
  | _ =>
    obtain ⟨r,next,rfl⟩ := Option.map_eq_some_iff.mp stepped
    exact ⟨rfl,rfl,rfl,rfl,own_quiet next (by simp) (by simp)⟩

theorem step_calls {act : TracingAct T} (traced : Traced tidOf s) (met : Outlives s act)
    (stepped : s.step tidOf act = some s') (u : T) : CallSound s' u := by
  cases act with
  | tick now =>
    simp only [Tracing.step] at stepped
    split at stepped
    · rename_i later
      cases stepped
      exact quiet_calls traced rfl rfl rfl later fun _ _ alive => alive
    · cases stepped
  | create key info =>
    simp only [Tracing.step] at stepped
    split at stepped
    · rename_i vacant
      cases stepped
      refine quiet_calls traced rfl rfl rfl (UInt64.le_refl _) ?_
      intro key' info' alive
      have other : key' ≠ key := by
        rintro rfl
        rw [vacant] at alive
        cases alive
      simpa [Function.update_of_ne other] using alive
    · cases stepped
  | destroy key =>
    obtain ⟨info,_,rfl⟩ := Option.map_eq_some_iff.mp stepped
    have other {key' : UInt64} (here : (s.callbacks u).key = some key') : key' ≠ key := by
      rintro rfl
      exact met u here
    refine callSound_kept (traced.callbacks u) rfl rfl rfl (UInt64.le_refl _) ?_ ?_
    · intro key' info' here alive
      simpa [Function.update_of_ne (other here)] using alive
    · intro key' id here there
      exact Interner.forget_other there (other here)
  | call t key kind =>
    simp only [Tracing.step] at stepped
    split at stepped
    · rename_i outside
      obtain ⟨info,alive,rfl⟩ := Option.map_eq_some_iff.mp stepped
      by_cases same : u = t
      · subst u
        have idle := traced.callbacks t
        simp only [CallSound,outside] at idle
        simp only [CallSound,Tracing.enter,Function.update_self]
        refine ⟨idle,⟨info,alive⟩,UInt64.le_refl _,?_⟩
        intro e present
        exact traced.past (t,e) (mem_ownedBy.mp present)
      · exact quiet_calls traced (Function.update_of_ne same _ _) rfl rfl (UInt64.le_refl _) fun _ _ alive => alive
    · cases stepped
  | lookup t =>
    simp only [Tracing.step] at stepped
    split at stepped
    · rename_i key kind ticks began
      cases stepped
      by_cases same : u = t
      · subst u
        have call := traced.callbacks t
        simp only [CallSound,began] at call
        cases found : s.interner.lookup key with
        | none =>
          simp only [CallSound,Tracing.enter,Function.update_self]
          exact ⟨call.stage,call.live,call.past,call.forward⟩
        | some id =>
          simp only [CallSound,Tracing.enter,Function.update_self]
          exact ⟨⟨call.stage,call.live,call.past,call.forward⟩,found⟩
      · exact quiet_calls traced (Function.update_of_ne same _ _) rfl rfl (UInt64.le_refl _) fun _ _ alive => alive
    · cases stepped
  | readFloor t =>
    simp only [Tracing.step] at stepped
    split at stepped
    · rename_i key kind ticks missed
      cases stepped
      by_cases same : u = t
      · subst u
        have call := traced.callbacks t
        simp only [CallSound,missed] at call
        simp only [CallSound,Tracing.enter,Function.update_self]
        exact ⟨call.stage,call.live,call.past,call.forward⟩
      · exact quiet_calls traced (Function.update_of_ne same _ _) rfl rfl (UInt64.le_refl _) fun _ _ alive => alive
    · cases stepped
  | insert t => exact insert_calls traced stepped u
  | push t => exact push_calls traced stepped u
  | arm t =>
    simp only [Tracing.step] at stepped
    split at stepped
    · rename_i key pushing
      obtain ⟨r,next,rfl⟩ := Option.map_eq_some_iff.mp stepped
      by_cases same : u = t
      · subst u
        have call := traced.callbacks t
        simp only [CallSound,pushing] at call
        obtain ⟨ticks,kind,id,inside,past,mapped⟩ := call
        simp only [CallSound,Tracing.withRecorder,pushing]
        exact ⟨ticks,kind,id,(arm_logs (record_world next).1 inside).1,past,mapped⟩
      · exact recorded_calls traced rfl next (by simpa [Act.thread] using Ne.symm same) rfl rfl rfl
    · cases stepped
  | write t =>
    simp only [Tracing.step] at stepped
    split at stepped
    · rename_i key pushing
      obtain ⟨info,alive,stepped⟩ := Option.bind_eq_some_iff.mp stepped
      obtain ⟨r,next,stepped⟩ := Option.bind_eq_some_iff.mp stepped
      cases stepped
      by_cases same : u = t
      · subst u
        have call := traced.callbacks t
        simp only [CallSound,pushing] at call
        obtain ⟨ticks,kind,id,inside,_⟩ := call
        simp only [CallSound,Tracing.enter,Tracing.logOrigin,Tracing.withRecorder,Function.update_self]
        exact (write_logs (record_world next).1 inside).1
      · exact recorded_calls traced (Function.update_of_ne same _ _) next
          (by simpa [Act.thread] using Ne.symm same) rfl rfl rfl
    · cases stepped
  | recorder act =>
    obtain ⟨callback,clock,interner,live,stage,pushed⟩ := recorder_quiet stepped
    refine callSound_kept (traced.callbacks u) (by rw [callback]) (by rw [stage]) (by rw [pushed])
      (by rw [clock]; exact UInt64.le_refl _) ?_ ?_
    · intro key info _
      rw [live]
      exact fun alive => alive
    · intro key id _
      rw [interner]
      exact fun there => there

theorem traced_step {act : TracingAct T} (traced : Traced tidOf s) (met : Outlives s act)
    (stepped : s.step tidOf act = some s') : Traced tidOf s' := by
  have turn := tracing_turn traced stepped
  obtain ⟨timed,staying⟩ := turn_timed traced turn
  exact ⟨turn_interned traced turn,timed,staying,step_calls traced met stepped⟩

end Trace0
