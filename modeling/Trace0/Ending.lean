import Trace0.Bystanders

namespace Trace0

-- `Tracer::end`: the registry it still has to flush, whether it is inside `flush_partial` of
-- the first of them, and the losses summed so far.
inductive Ender (T : Type) where
  | recording
  | flushing (todo : List T) (inside : Bool) (lost : Nat)
  | flushed
  | closed
  deriving DecidableEq

inductive EndAct where
  | flushAll
  | flush
  | next
  | recordLost
  | close

def Act.recordedBy : Act T → Option T
  | .push t _ _ _ _ | .arm t | .write t => some t
  | _ => none

def flushAct (t : T) : Stage → Option (Act T)
  | .committed false => some (.take t)
  | .restored false | .taken false _ => some (.arm t)
  | .rearmed false _ => some (.handOver t)
  | _ => none

def exitAct (t : T) : Stage → Option (Act T)
  | .idle => some (.leave t)
  | .leaving => some (.commit t)
  | .committed true => some (.take t)
  | .restored true | .taken true _ => some (.arm t)
  | .rearmed true _ => some (.handOver t)
  | _ => none

variable {T : Type} [DecidableEq T]

namespace Ender

-- Threads record until the flush reaches them.
def admits (t : T) : Ender T → Bool
  | .recording => true
  | .flushing todo inside _ => t ∈ todo && !(inside && todo.head? = some t)
  | .flushed | .closed => false

-- The flush holds the registry's lock over its whole loop.
def locks : Ender T → Bool
  | .flushing (_ :: _) _ _ => true
  | _ => false

def step (tidOf : T → UInt32) (w : World T) : Ender T → EndAct → Option (World T × Ender T)
  | .recording,.flushAll => some (w,.flushing w.recorders false 0)
  | .flushing (t :: rest) inside lost,.flush => do
    let a ← (if inside then flushAct t (w.stage t) else some (.flush t))
    let w' ← w.step tidOf a
    some (w',.flushing (t :: rest) true (lost + (w'.ledger.lost - w.ledger.lost)))
  | .flushing (t :: rest) true lost,.next =>
    if w.stage t = .idle then some (w,.flushing rest false lost) else none
  | .flushing [] _ lost,.recordLost => (w.step tidOf (.recordDropped lost)).map (·,.flushed)
  | .flushed,.close => (w.step tidOf .close).map (·,.closed)
  | _,_ => none

end Ender

variable {tidOf : T → UInt32} {w w' : World T} {t u : T}

def Settled (w : World T) (t : T) : Prop := w.stage t = .idle ∧ (w.threads t).written = []

def Flushing (v : View T) : Prop :=
  match v.stage with
  | .idle => v.l.written = []
  | .committed leaving | .restored leaving | .taken leaving _ | .rearmed leaving _ => leaving = false
  | .renewed _ _ | .armed _ _ | .leaving | .exited => False

omit [DecidableEq T] in
theorem flushAct_thread {stage : Stage} {a : Act T} (next : flushAct t stage = some a) :
    a.thread = some t ∧ (∀ u, a ≠ .leave u) ∧ (∀ u, a ≠ .flush u) ∧ a ≠ .close ∧
      (∀ limit, a ≠ .drain limit) ∧ ∀ n, a ≠ .recordDropped n := by
  unfold flushAct at next
  split at next
  all_goals first
    | (cases next; exact ⟨rfl,by simp,by simp,by simp,by simp,by simp⟩)
    | cases next

omit [DecidableEq T] in
theorem exitAct_thread {stage : Stage} {a : Act T} (next : exitAct t stage = some a) :
    a.thread = some t ∧ (∀ u, a = .leave u → u = t ∧ stage = .idle) ∧ (∀ u, a ≠ .flush u) ∧
      (∀ full, stage ≠ .rearmed false full) ∧ a ≠ .close ∧ (∀ limit, a ≠ .drain limit) ∧
      ∀ n, a ≠ .recordDropped n := by
  unfold exitAct at next
  split at next
  all_goals first
    | (cases next; exact ⟨rfl,by simp [eq_comm],by simp,by simp,by simp,by simp,by simp⟩)
    | cases next

omit [DecidableEq T] in
theorem exitAct_stage {stage : Stage} {a : Act T} (next : exitAct t stage = some a) :
    stage = .idle ∨ stage.gone = true := by
  unfold exitAct at next
  split at next
  case h_1 => exact .inl rfl
  case h_7 => cases next
  all_goals exact .inr rfl

omit [DecidableEq T] in
theorem recordedBy_thread {a : Act T} (own : a.recordedBy = some t) :
    a.thread = some t ∧ (∀ u, a ≠ .leave u) ∧ (∀ u, a ≠ .flush u) ∧ (∀ u, a ≠ .handOver u) ∧
      a ≠ .close ∧ (∀ limit, a ≠ .drain limit) ∧ ∀ n, a ≠ .recordDropped n := by
  cases a <;> simp_all [Act.recordedBy,Act.thread]

omit [DecidableEq T] in
theorem flushing_moves {v v' : View T} {a : Act T} (sound : ThreadSound qid t tid v)
    (flushing : Flushing v) (next : flushAct t v.stage = some a) (moves : Moves qid t tid a v v') :
    Flushing v' := by
  have sound' := moves_sound sound moves
  have standing := sound.standing
  cases moves with
  | still => exact flushing
  | armRestored stage =>
    simp only [Flushing,stage] at flushing
    subst flushing
    simp only [Standing,stage] at standing
    obtain ⟨o,armed,_⟩ := standing
    obtain ⟨_,cleared⟩ := arm_again armed
    simp [Flushing,Stage.done,Local.written,cleared]
  | armTaken stage => simpa [Flushing,stage] using flushing
  | takeNone stage empty =>
    simp only [Flushing,stage] at flushing
    subst flushing
    simp only [Standing,stage] at standing
    have unseated : Unseated v.l := by
      refine standing.resolve_right ?_
      rintro ⟨o,armed,_⟩
      have absent := takeOpen_none empty
      rw [armed.held] at absent
      cases absent
    simp [Flushing,Stage.done,unseated.written]
  | takeBack stage => simpa [Flushing,stage] using flushing
  | takeFull stage => simpa [Flushing,stage] using flushing
  | handOver stage =>
    simp only [Flushing,stage] at flushing
    subst flushing
    simp only [Standing,stage] at standing
    obtain ⟨_,_,o,_,_,empty⟩ := standing
    simp [Flushing,Stage.done,Local.written,empty]
  | armNew stage => simp [Flushing,stage] at flushing
  | commit enter committed =>
    rcases enter with ⟨rfl,stage,_⟩ | ⟨rfl,stage,_⟩ <;> simp [flushAct,stage] at next
  | fast idle => simp [flushAct,idle] at next
  | seat idle => simp [flushAct,idle] at next
  | ship idle => simp [flushAct,idle] at next
  | write stage => simp [Flushing,stage] at flushing
  | leave idle => simp [flushAct,idle] at next
  | drained => exact absurd rfl ((flushAct_thread next).2.2.2.2.1 _)

def Done (w : World T) (t : T) : Prop := Settled w t ∨ (w.stage t).gone = true

def Ender.Quiet (w : World T) : Ender T → Prop
  | .recording => w.ledger.lost = 0 ∧ w.ledger.recorded = 0
  | .flushing todo inside lost =>
    w.ledger.lost = lost ∧ w.ledger.recorded = 0 ∧ (∀ t ∈ todo, t ∈ w.recorders) ∧
      (∀ t, t ∉ todo → Done w t) ∧
      (inside = true → ∀ t ∈ todo.head?, Flushing (w.view t))
  | .flushed | .closed => w.ledger.lost = w.ledger.recorded ∧ ∀ t, Done w t

structure EndSound (tidOf : T → UInt32) (w : World T) (ender : Ender T) : Prop where
  sound : Sound tidOf w
  registered : Registered w
  quiet : ender.Quiet w
  closed : w.queue.closed = true ↔ ender = .closed

omit [DecidableEq T] in
theorem flushing_congr {v v' : View T} (l : v'.l = v.l) (stage : v'.stage = v.stage)
    (flushing : Flushing v) : Flushing v' := by
  unfold Flushing at flushing ⊢
  rw [stage,l]
  exact flushing

theorem done_bystander {a : Act T} (sound : Sound tidOf w) (stepped : w.step tidOf a = some w')
    (other : a.thread ≠ some u) (done : Done w u) : Done w' u := by
  obtain ⟨l,stage,_⟩ := step_bystander sound stepped other
  rcases done with ⟨idle,written⟩ | gone
  · exact .inl ⟨stage.trans idle,l ▸ written⟩
  · exact .inr (stage ▸ gone)

theorem flushing_bystander {a : Act T} (sound : Sound tidOf w) (stepped : w.step tidOf a = some w')
    (other : a.thread ≠ some u) (flushing : Flushing (w.view u)) : Flushing (w'.view u) := by
  obtain ⟨l,stage,_⟩ := step_bystander sound stepped other
  exact flushing_congr (v := w.view u) l stage flushing

variable {ender : Ender T} {a : Act T}

theorem quiet_step (sound : EndSound tidOf w ender) (stepped : w.step tidOf a = some w')
    (lost : w'.ledger.lost = w.ledger.lost) (recorded : w'.ledger.recorded = w.ledger.recorded)
    (own : ∀ t, a.thread = some t → match ender with
      | .recording => True
      | .flushing todo inside _ =>
        (t ∉ todo → Done w' t) ∧ (inside = true → t ∉ todo.head?)
      | .flushed | .closed => Done w' t)
    (kept : ∀ todo inside n, ender = .flushing todo inside n → ∀ t ∈ todo, a ≠ .leave t) :
    ender.Quiet w' := by
  have quiet := sound.quiet
  have rest := step_rest sound.sound stepped
  have done (u : T) (claim : a.thread = some u → Done w' u) (before : Done w u) : Done w' u := by
    by_cases mine : a.thread = some u
    · exact claim mine
    · exact done_bystander sound.sound stepped mine before
  cases ender with
  | recording => exact ⟨lost.trans quiet.1,recorded.trans quiet.2⟩
  | flushing todo inside n =>
    obtain ⟨sum,none,known,settled,within⟩ := quiet
    refine ⟨lost.trans sum,recorded.trans none,
      fun u member => rest.kept (kept todo inside n rfl u member) (known u member),
      fun u outside => done u (fun mine => (own u mine).1 outside) (settled u outside),
      fun called u first => ?_⟩
    exact flushing_bystander sound.sound stepped (fun mine => (own u mine).2 called first)
      (within called u first)
  | flushed => exact ⟨by rw [lost,recorded]; exact quiet.1,fun u => done u (own u) (quiet.2 u)⟩
  | closed => exact ⟨by rw [lost,recorded]; exact quiet.1,fun u => done u (own u) (quiet.2 u)⟩

theorem end_record (sound : EndSound tidOf w ender) (own : a.recordedBy = some t)
    (admitted : ender.admits t = true) (stepped : w.step tidOf a = some w') :
    EndSound tidOf w' ender := by
  obtain ⟨thread,staying,unflushed,keeping,opened,undrained,unrecorded⟩ := recordedBy_thread own
  have rest := step_rest sound.sound stepped
  refine ⟨step_sound sound.sound stepped,step_registered sound.sound sound.registered stepped
    fun u flushes => absurd flushes (unflushed u),?_,by rw [rest.closed opened]; exact sound.closed⟩
  refine quiet_step sound stepped (rest.losses keeping).1 (rest.recorded unrecorded) (fun u mine => ?_)
    fun _ _ _ _ u _ => staying u
  cases Option.some.inj (thread.symm.trans mine)
  cases ender with
  | recording => trivial
  | flushing todo inside n =>
    simp only [Ender.admits,Bool.and_eq_true,decide_eq_true_eq,Bool.not_eq_true',
      Bool.and_eq_false_iff,decide_eq_false_iff_not] at admitted
    refine ⟨fun outside => absurd admitted.1 outside,fun called first => ?_⟩
    exact admitted.2.elim (by simp [called]) fun different => different first
  | flushed => simp [Ender.admits] at admitted
  | closed => simp [Ender.admits] at admitted

theorem exit_gone (sound : Sound tidOf w) (next : exitAct t (w.stage t) = some a)
    (stepped : w.step tidOf a = some w') : (w'.stage t).gone = true := by
  rcases exitAct_stage next with idle | gone
  · rw [idle] at next
    cases Option.some.inj next
    simp only [World.step,idle,if_true] at stepped
    cases stepped
    simp [World.put,Stage.gone]
  · exact (step_moves sound stepped t).gone gone

theorem end_exit (sound : EndSound tidOf w ender) (next : exitAct t (w.stage t) = some a)
    (unlocked : w.stage t = .idle → ender.locks = false) (stepped : w.step tidOf a = some w') :
    EndSound tidOf w' ender := by
  obtain ⟨thread,leaves,unflushed,notFlush,opened,_,unrecorded⟩ := exitAct_thread next
  have rest := step_rest sound.sound stepped
  have gone := exit_gone sound.sound next stepped
  have lost : w'.ledger.lost = w.ledger.lost := rest.flushLost fun u full hands stage => by
    subst hands
    cases Option.some.inj thread
    exact notFlush full stage
  refine ⟨step_sound sound.sound stepped,step_registered sound.sound sound.registered stepped
    fun u flushes => absurd flushes (unflushed u),?_,by rw [rest.closed opened]; exact sound.closed⟩
  -- nobody in `todo` is on its way out: its members stand in the registry, and it is locked
  have clear (todo : List T) (inside : Bool) (n : Nat) (flushing : ender = .flushing todo inside n) :
      t ∉ todo := by
    intro member
    subst flushing
    have here := sound.registered.present t (sound.quiet.2.2.1 t member)
    rcases exitAct_stage next with idle | away
    · cases todo with
      | nil => cases member
      | cons _ _ => exact absurd (unlocked idle) (by simp [Ender.locks])
    · rw [here] at away
      cases away
  refine quiet_step sound stepped lost (rest.recorded unrecorded) (fun u mine => ?_)
    fun todo inside n flushing u member leave => ?_
  · cases Option.some.inj (thread.symm.trans mine)
    cases ender with
    | recording => trivial
    | flushing todo inside n =>
      exact ⟨fun _ => .inr gone,fun _ first => clear todo inside n rfl (List.mem_of_mem_head? first)⟩
    | flushed => exact .inr gone
    | closed => exact .inr gone
  · exact clear todo inside n flushing ((leaves u leave).1 ▸ member)

theorem end_drain (sound : EndSound tidOf w ender) (stepped : w.step tidOf (.drain limit) = some w') :
    EndSound tidOf w' ender := by
  have rest := step_rest sound.sound stepped
  refine ⟨step_sound sound.sound stepped,step_registered sound.sound sound.registered stepped (by simp),
    ?_,by rw [rest.closed (by simp)]; exact sound.closed⟩
  exact quiet_step sound stepped (rest.losses (by simp)).1 (rest.recorded (by simp))
    (fun _ mine => by cases mine) (by simp)

theorem end_flush {todo : List T} (sound : EndSound tidOf w (.flushing (t :: todo) inside lost))
    (next : (if inside then flushAct t (w.stage t) else some (.flush t)) = some a)
    (stepped : w.step tidOf a = some w') :
    EndSound tidOf w' (.flushing (t :: todo) true (lost + (w'.ledger.lost - w.ledger.lost))) := by
  obtain ⟨sum,none,known,settled,within⟩ := sound.quiet
  have shape : a.thread = some t ∧ (∀ u, a ≠ .leave u) ∧ (∀ u, a = .flush u → u = t) ∧ a ≠ .close ∧
      ∀ n, a ≠ .recordDropped n := by
    cases inside with
    | false =>
      cases Option.some.inj next
      exact ⟨rfl,by simp,by simp,by simp,by simp⟩
    | true =>
      obtain ⟨thread,staying,unflushed,opened,_,unrecorded⟩ := flushAct_thread next
      exact ⟨thread,staying,fun u same => absurd same (unflushed u),opened,unrecorded⟩
  obtain ⟨thread,staying,flushes,opened,unrecorded⟩ := shape
  have rest := step_rest sound.sound stepped
  have other (u : T) (outside : u ≠ t) : a.thread ≠ some u := fun same => by
    rw [thread] at same
    exact outside (Option.some.inj same).symm
  have still : Flushing (w'.view t) := by
    have moves := step_moves sound.sound stepped t
    cases inside with
    | false =>
      cases Option.some.inj next
      simp only [World.step] at stepped
      split at stepped
      · obtain ⟨l,_,rfl⟩ := Option.map_eq_some_iff.mp stepped
        simp [Flushing,World.view,World.put]
      · cases stepped
    | true => exact flushing_moves (sound.sound.threads t) (within rfl t rfl) next moves
  have grows := rest.grows
  refine ⟨step_sound sound.sound stepped,step_registered sound.sound sound.registered stepped
    fun u same => flushes u same ▸ known t List.mem_cons_self,⟨by omega,(rest.recorded unrecorded).trans none,
      fun u member => rest.kept (staying u) (known u member),fun u outside => ?_,fun _ u first => ?_⟩,?_⟩
  · exact done_bystander sound.sound stepped
      (other u fun same => outside (same ▸ List.mem_cons_self)) (settled u outside)
  · cases Option.some.inj first
    exact still
  · rw [rest.closed opened,sound.closed]
    simp

theorem end_next {todo : List T} (sound : EndSound tidOf w (.flushing (t :: todo) true lost))
    (out : w.stage t = .idle) : EndSound tidOf w (.flushing todo false lost) := by
  obtain ⟨sum,none,known,settled,within⟩ := sound.quiet
  refine ⟨sound.sound,sound.registered,⟨sum,none,fun u member => known u (List.mem_cons_of_mem _ member),
    fun u outside => ?_,by simp⟩,by simpa using sound.closed⟩
  by_cases same : u = t
  · subst u
    have flushing := within rfl t rfl
    have stage : (w.view t).stage = .idle := out
    simp only [Flushing,stage] at flushing
    exact .inl ⟨out,flushing⟩
  · exact settled u (by simpa [same] using outside)

theorem end_flushAll (sound : EndSound tidOf w .recording) :
    EndSound tidOf w (.flushing w.recorders false 0) := by
  obtain ⟨lost,recorded⟩ := sound.quiet
  refine ⟨sound.sound,sound.registered,⟨lost,recorded,fun _ member => member,fun u outside => ?_,by simp⟩,
    by simpa using sound.closed⟩
  rcases sound.registered.absent u outside with gone | ⟨idle,unseated⟩
  · exact .inr gone
  · exact .inl ⟨idle,unseated.written⟩

theorem end_recordLost (sound : EndSound tidOf w (.flushing [] inside lost))
    (stepped : w.step tidOf (.recordDropped lost) = some w') : EndSound tidOf w' .flushed := by
  obtain ⟨sum,none,_,settled,_⟩ := sound.quiet
  have sound' := step_sound sound.sound stepped
  have registered := step_registered sound.sound sound.registered stepped (by simp)
  cases stepped
  exact ⟨sound',registered,⟨by simp [none,sum],fun u => settled u (by simp)⟩,
    by simpa [EventQueue.recordDropped] using sound.closed⟩

theorem end_close (sound : EndSound tidOf w .flushed) (stepped : w.step tidOf .close = some w') :
    EndSound tidOf w' .closed := by
  have sound' := step_sound sound.sound stepped
  have registered := step_registered sound.sound sound.registered stepped (by simp)
  cases stepped
  exact ⟨sound',registered,sound.quiet,by simp [EventQueue.close]⟩

theorem ender_step {act : EndAct} {next : World T × Ender T} (sound : EndSound tidOf w ender)
    (stepped : ender.step tidOf w act = some next) :
    EndSound tidOf next.1 next.2 ∧ ender ≠ .closed ∧ next.1.ledger.drained = w.ledger.drained ∧
      next.1.queue.clock = w.queue.clock := by
  unfold Ender.step at stepped
  split at stepped
  · cases stepped
    exact ⟨end_flushAll sound,by simp,rfl,rfl⟩
  · rename_i t rest inside lost
    obtain ⟨a,called,stepped⟩ := Option.bind_eq_some_iff.mp stepped
    obtain ⟨w',moved,same⟩ := Option.bind_eq_some_iff.mp stepped
    cases Option.some.inj same
    have rest := step_rest sound.sound moved
    have undrained : ∀ limit, a ≠ .drain limit := by
      cases inside with
      | false => cases Option.some.inj called; simp
      | true => exact (flushAct_thread called).2.2.2.2.1
    exact ⟨end_flush sound called moved,by simp,rest.drained undrained,rest.clock⟩
  · split at stepped
    · rename_i idle
      cases stepped
      exact ⟨end_next sound idle,by simp,rfl,rfl⟩
    · cases stepped
  · obtain ⟨w',moved,same⟩ := Option.map_eq_some_iff.mp stepped
    subst same
    have rest := step_rest sound.sound moved
    exact ⟨end_recordLost sound moved,by simp,rest.drained (by simp),rest.clock⟩
  · obtain ⟨w',moved,same⟩ := Option.map_eq_some_iff.mp stepped
    subst same
    have rest := step_rest sound.sound moved
    exact ⟨end_close sound moved,by simp,rest.drained (by simp),rest.clock⟩
  · cases stepped

theorem initial_end (id : Nat) (clock : Clock) :
    EndSound tidOf (World.initial id clock) .recording :=
  ⟨initial_sound id clock,initial_registered id clock,⟨rfl,rfl⟩,by
    simp [World.initial,EventQueue.new]⟩

end Trace0
