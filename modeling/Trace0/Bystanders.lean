import Trace0.Steps

namespace Trace0

variable {T : Type}

def Act.thread : Act T → Option T
  | .push t _ _ _ _ | .arm t | .write t | .flush t | .leave t | .commit t | .take t
  | .handOver t => some t
  | .recordDropped _ | .drain _ | .close => none

theorem Moves.bystander {a : Act T} {v v' : View T} (moves : Moves qid t tid a v v')
    (other : a.thread ≠ some t) : v'.l = v.l ∧ v'.stage = v.stage ∧ v'.pushed = v.pushed ∧
      v'.shipped = v.shipped := by
  cases moves with
  | still => exact ⟨rfl,rfl,rfl,rfl⟩
  | drained splits => exact ⟨rfl,rfl,rfl,rfl⟩
  | commit enter committed =>
    rcases enter with ⟨rfl,_⟩ | ⟨rfl,_⟩ <;> exact absurd rfl other
  | _ => exact absurd rfl other

variable [DecidableEq T] {tidOf : T → UInt32} {w w' : World T} {a : Act T} {t u : T}

theorem step_bystander (sound : Sound tidOf w) (stepped : w.step tidOf a = some w')
    (other : a.thread ≠ some u) : w'.threads u = w.threads u ∧ w'.stage u = w.stage u ∧
      ownedBy u w'.ledger.pushed = ownedBy u w.ledger.pushed ∧
      ownedBy u w'.ledger.shipped = ownedBy u w.ledger.shipped :=
  (step_moves sound stepped u).bystander other

-- What a step leaves alone outside the threads, by the kind of step.
structure Rest (a : Act T) (w w' : World T) : Prop where
  clock : w'.queue.clock = w.queue.clock
  floor : w'.queue.recycleFloor = w.queue.recycleFloor
  closed : a ≠ .close → w'.queue.closed = w.queue.closed
  drained : (∀ limit, a ≠ .drain limit) → w'.ledger.drained = w.ledger.drained
  recorded : (∀ n, a ≠ .recordDropped n) → w'.ledger.recorded = w.ledger.recorded
  losses : (∀ t, a ≠ .handOver t) → w'.ledger.lost = w.ledger.lost ∧
    w'.ledger.exitLost = w.ledger.exitLost
  flushLost : (∀ t full, a = .handOver t → w.stage t ≠ .rearmed false full) →
    w'.ledger.lost = w.ledger.lost
  exitLost : (∀ t full, a = .handOver t → w.stage t ≠ .rearmed true full) →
    w'.ledger.exitLost = w.ledger.exitLost
  recorders : (∃ t, a = .leave t ∧ w'.recorders = w.recorders.filter (· ≠ t)) ∨
    (∀ u, a ≠ .leave u) ∧ (w'.recorders = w.recorders ∨
      ∃ t, a.thread = some t ∧ t ∉ w.recorders ∧ w'.recorders = w.recorders ++ [t] ∧
        ∃ ticks codeKind, w'.stage t = .renewed ticks codeKind)
  grows : w.ledger.lost ≤ w'.ledger.lost

theorem Rest.same (staying : ∀ u, a ≠ .leave u) (queue : w'.queue = w.queue) (drained : w'.ledger.drained = w.ledger.drained)
    (recorded : w'.ledger.recorded = w.ledger.recorded) (lost : w'.ledger.lost = w.ledger.lost)
    (exitLost : w'.ledger.exitLost = w.ledger.exitLost)
    (recorders : w'.recorders = w.recorders) : Rest a w w' :=
  ⟨by rw [queue],by rw [queue],fun _ => by rw [queue],fun _ => drained,fun _ => recorded,
    fun _ => ⟨lost,exitLost⟩,fun _ => lost,fun _ => exitLost,.inr ⟨staying,.inl recorders⟩,lost.ge⟩

theorem register_mem : u ∈ (w.register t).recorders ↔ u ∈ w.recorders ∨ u = t := by
  unfold World.register
  by_cases known : t ∈ w.recorders
  · simp only [known,if_true]
    exact ⟨.inl,fun either => either.elim id fun same => same ▸ known⟩
  · simp [known]

theorem register_recorders (w : World T) (t : T) : (w.register t).recorders = w.recorders ∨
    t ∉ w.recorders ∧ (w.register t).recorders = w.recorders ++ [t] := by
  unfold World.register
  by_cases known : t ∈ w.recorders
  · exact .inl (if_pos known)
  · exact .inr ⟨known,if_neg known⟩

theorem push_rest (sound : Sound tidOf w) (idle : w.stage t = .idle)
    (stepped : w.pushStep tidOf t run ticks codeKind = some w') (own : a.thread = some t)
    (staying : ∀ u, a ≠ .leave u) : Rest a w w' := by
  rcases pushStep_cases sound idle stepped with
    ⟨_,l',_,rfl⟩ | ⟨_,_,_,rfl⟩ | ⟨_,_,o,o',brk',q',accepted,_,_,_,offered,_,rfl⟩
  · exact .same staying rfl rfl rfl rfl rfl rfl
  · refine ⟨rfl,rfl,fun _ => rfl,fun _ => rfl,fun _ => rfl,fun _ => ⟨rfl,rfl⟩,fun _ => rfl,
      fun _ => rfl,?_,Nat.le_refl _⟩
    rcases register_recorders (((w.put t (w.queue.initRing t (w.threads t) ticks (tidOf t)).2
      (.renewed ticks codeKind)).withQueue (w.queue.initRing t (w.threads t) ticks (tidOf t)).1)) t
      with same | ⟨absent,grown⟩
    · exact .inr ⟨staying,.inl same⟩
    · refine .inr ⟨staying,.inr ⟨t,own,absent,grown,ticks,codeKind,?_⟩⟩
      simp [World.register,World.withQueue,World.put]
  · exact ⟨offered.clock,offered.floor,fun _ => offered.closed,fun _ => rfl,fun _ => rfl,
      fun _ => ⟨rfl,rfl⟩,fun _ => rfl,fun _ => rfl,.inr ⟨staying,.inl rfl⟩,Nat.le_refl _⟩

theorem handOver_rest (sound : Sound tidOf w) (stage : w.stage t = .rearmed leaving full)
    (stepped : w.handOverStep t leaving full = some w') : Rest (.handOver t) w w' := by
  obtain ⟨q',accepted,offered,_,rfl⟩ := handOver_cases sound stage stepped
  refine ⟨?_,?_,fun _ => ?_,fun _ => ?_,fun _ => ?_,fun other => absurd rfl (other t),
    fun flushed => ?_,fun staying => ?_,.inr ⟨by simp,.inl ?_⟩,?_⟩
  · cases leaving <;> exact offered.clock
  · cases leaving <;> exact offered.floor
  · cases leaving <;> exact offered.closed
  · cases leaving <;> rfl
  · cases leaving <;> rfl
  · cases leaving
    · exact absurd stage (flushed t full rfl)
    · rfl
  · cases leaving
    · rfl
    · exact absurd stage (staying t full rfl)
  · cases leaving <;> rfl
  · cases leaving
    · exact Nat.le_add_right _ _
    · exact Nat.le_refl _

theorem step_rest (sound : Sound tidOf w) (stepped : w.step tidOf a = some w') : Rest a w w' := by
  cases a with
  | push t run ticks codeId kind =>
    simp only [World.step] at stepped
    split at stepped
    · rename_i idle
      exact push_rest sound idle stepped rfl (by simp)
    · cases stepped
  | arm t =>
    simp only [World.step] at stepped
    split at stepped <;> cases stepped <;> exact .same (by simp) rfl rfl rfl rfl rfl rfl
  | write t =>
    simp only [World.step] at stepped
    split at stepped
    · obtain ⟨l',_,rfl⟩ := Option.map_eq_some_iff.mp stepped
      exact .same (by simp) rfl rfl rfl rfl rfl rfl
    · cases stepped
  | flush t =>
    simp only [World.step] at stepped
    split at stepped
    · obtain ⟨l',_,rfl⟩ := Option.map_eq_some_iff.mp stepped
      exact .same (by simp) rfl rfl rfl rfl rfl rfl
    · cases stepped
  | leave t =>
    simp only [World.step] at stepped
    split at stepped
    · cases stepped
      exact ⟨rfl,rfl,fun _ => rfl,fun _ => rfl,fun _ => rfl,fun _ => ⟨rfl,rfl⟩,fun _ => rfl,
        fun _ => rfl,.inl ⟨t,rfl,rfl⟩,Nat.le_refl _⟩
    · cases stepped
  | commit t =>
    simp only [World.step] at stepped
    split at stepped
    · obtain ⟨l',_,rfl⟩ := Option.map_eq_some_iff.mp stepped
      exact .same (by simp) rfl rfl rfl rfl rfl rfl
    · cases stepped
  | take t =>
    simp only [World.step] at stepped
    split at stepped
    · cases stepped
      unfold World.takeStep
      split <;> exact .same (by simp) rfl rfl rfl rfl rfl rfl
    · cases stepped
  | handOver t =>
    simp only [World.step] at stepped
    split at stepped
    · rename_i stage
      exact handOver_rest sound stage stepped
    · cases stepped
  | recordDropped n =>
    cases stepped
    exact ⟨rfl,rfl,fun _ => rfl,fun _ => rfl,fun other => absurd rfl (other n),fun _ => ⟨rfl,rfl⟩,
      fun _ => rfl,fun _ => rfl,.inr ⟨by simp,.inl rfl⟩,Nat.le_refl _⟩
  | drain limit =>
    cases stepped
    have frame := drain_frame w.queue limit
    exact ⟨frame.2.2.2.1,frame.2.2.2.2,fun _ => frame.2.2.1,fun other => absurd rfl (other limit),
      fun _ => rfl,fun _ => ⟨rfl,rfl⟩,fun _ => rfl,fun _ => rfl,.inr ⟨by simp,.inl rfl⟩,Nat.le_refl _⟩
  | close =>
    cases stepped
    exact ⟨rfl,rfl,fun other => absurd rfl other,fun _ => rfl,fun _ => rfl,fun _ => ⟨rfl,rfl⟩,
      fun _ => rfl,fun _ => rfl,.inr ⟨by simp,.inl rfl⟩,Nat.le_refl _⟩

def Stage.gone : Stage → Bool
  | .committed exiting | .restored exiting | .taken exiting _ | .rearmed exiting _ => exiting
  | .leaving | .exited => true
  | .idle | .renewed _ _ | .armed _ _ => false

@[simp] theorem done_gone (leaving : Bool) : (Stage.done leaving).gone = leaving := by
  cases leaving <;> rfl

structure Registered (w : World T) : Prop where
  distinct : w.recorders.Nodup
  present : ∀ t ∈ w.recorders, (w.stage t).gone = false
  absent : ∀ t, t ∉ w.recorders → (w.stage t).gone = true ∨ w.stage t = .idle ∧ Unseated (w.threads t)

omit [DecidableEq T] in
theorem initial_registered (id : Nat) (clock : Clock) :
    Registered (World.initial (T := T) id clock) :=
  ⟨List.nodup_nil,by simp [World.initial],fun _ _ => .inr ⟨rfl,⟨rfl,rfl,rfl,rfl⟩⟩⟩

theorem Rest.distinct (rest : Rest a w w') (distinct : w.recorders.Nodup) : w'.recorders.Nodup := by
  rcases rest.recorders with ⟨t,_,left⟩ | ⟨_,same | ⟨t,_,absent,joined,_⟩⟩
  · exact left ▸ distinct.filter _
  · exact same ▸ distinct
  · rw [joined]
    exact List.nodup_append.mpr ⟨distinct,by simp,fun u inside v last same =>
      absent (by simpa [← List.mem_singleton.mp last,same] using inside)⟩

theorem Rest.kept (rest : Rest a w w') (staying : a ≠ .leave u) (member : u ∈ w.recorders) :
    u ∈ w'.recorders := by
  rcases rest.recorders with ⟨t,left,recorders⟩ | ⟨_,same | ⟨t,_,_,joined,_⟩⟩
  · rw [recorders,List.mem_filter]
    refine ⟨member,decide_eq_true fun here => staying ?_⟩
    rw [here]
    exact left
  · exact same ▸ member
  · rw [joined]
    exact List.mem_append_left _ member

omit [DecidableEq T] in
theorem Moves.gone {v v' : View T} (moves : Moves qid t tid a v v') : v.stage.gone = true →
    v'.stage.gone = true := by
  intro gone
  cases moves with
  | still => exact gone
  | drained splits => exact gone
  | fast idle => simp [idle,Stage.gone] at gone
  | seat idle => simp [idle,Stage.gone] at gone
  | ship idle => simp [idle,Stage.gone] at gone
  | armNew stage => simp [stage,Stage.gone] at gone
  | armRestored stage =>
    rw [stage] at gone
    exact (done_gone _).trans gone
  | armTaken stage => simpa [stage,Stage.gone] using gone
  | write stage => simp [stage,Stage.gone] at gone
  | leave idle => rfl
  | commit enter committed =>
    rcases enter with ⟨_,idle,_⟩ | ⟨_,_,leaving⟩
    · simp [idle,Stage.gone] at gone
    · exact leaving
  | takeNone stage =>
    rw [stage] at gone
    exact (done_gone _).trans gone
  | takeBack stage => simpa [stage,Stage.gone] using gone
  | takeFull stage => simpa [stage,Stage.gone] using gone
  | handOver stage =>
    rw [stage] at gone
    exact (done_gone _).trans gone

omit [DecidableEq T] in
theorem Moves.here {v v' : View T} (moves : Moves qid t tid a v v') (staying : a ≠ .leave t) :
    v.stage.gone = false → v'.stage.gone = false := by
  intro here
  cases moves with
  | still => exact here
  | drained splits => exact here
  | leave idle => exact absurd rfl staying
  | armRestored stage =>
    rw [stage] at here
    exact (done_gone _).trans here
  | armTaken stage => simpa [stage,Stage.gone] using here
  | commit enter committed =>
    rcases enter with ⟨_,_,flushing⟩ | ⟨_,leaving,_⟩
    · exact flushing
    · simp [leaving,Stage.gone] at here
  | takeNone stage =>
    rw [stage] at here
    exact (done_gone _).trans here
  | takeBack stage => simpa [stage,Stage.gone] using here
  | takeFull stage => simpa [stage,Stage.gone] using here
  | handOver stage =>
    rw [stage] at here
    exact (done_gone _).trans here
  | _ => rfl

theorem unseated_push (sound : Sound tidOf w) (idle : w.stage t = .idle)
    (unseated : Unseated (w.threads t))
    (stepped : w.pushStep tidOf t run ticks codeKind = some w') : t ∈ w'.recorders := by
  rcases pushStep_cases sound idle stepped with
    ⟨hit,_⟩ | ⟨_,_,_,rfl⟩ | ⟨_,producer,_⟩
  · have below := (fastPath_true hit).1
    rw [unseated.cursor,unseated.endAt] at below
    exact absurd below (Nat.lt_irrefl 0)
  · exact register_mem.mpr (.inr rfl)
  · rw [unseated.producer] at producer
    cases producer

theorem unseated_step (sound : Sound tidOf w) (idle : w.stage u = .idle)
    (unseated : Unseated (w.threads u)) (own : a.thread = some u) (flushed : a ≠ .flush u)
    (stepped : w.step tidOf a = some w') : u ∈ w'.recorders ∨ (w'.stage u).gone = true := by
  cases a with
  | push t run ticks codeId kind =>
    cases own
    simp only [World.step,idle,if_true] at stepped
    exact .inl (unseated_push sound idle unseated stepped)
  | leave t =>
    cases own
    simp only [World.step,idle,if_true] at stepped
    cases stepped
    exact .inr (by simp [World.put,Stage.gone])
  | flush t =>
    cases own
    exact absurd rfl flushed
  | recordDropped n => cases own
  | drain limit => cases own
  | close => cases own
  | _ t =>
    cases own
    simp [World.step,idle] at stepped

theorem step_registered (sound : Sound tidOf w) (registered : Registered w)
    (stepped : w.step tidOf a = some w') (flushed : ∀ t, a = .flush t → t ∈ w.recorders) :
    Registered w' := by
  have rest := step_rest sound stepped
  have moves (u : T) := step_moves sound stepped u
  refine ⟨rest.distinct registered.distinct,fun u member => ?_,fun u outside => ?_⟩
  · rcases rest.recorders with ⟨t,leave,left⟩ | ⟨staying,same | ⟨t,_,_,joined,_,_,stage⟩⟩
    · rw [left,List.mem_filter] at member
      refine (moves u).here (fun leaving => ?_) (registered.present u member.1)
      rw [leave] at leaving
      simp [Act.leave.inj leaving] at member
    · exact (moves u).here (staying u) (registered.present u (same ▸ member))
    · rw [joined] at member
      rcases List.mem_append.mp member with old | new
      · exact (moves u).here (staying u) (registered.present u old)
      · rw [List.mem_singleton.mp new,stage]
        rfl
  · by_cases before : u ∈ w.recorders
    · left
      by_cases leaving : a = .leave u
      · subst leaving
        simp only [World.step] at stepped
        split at stepped
        · cases stepped
          simp [World.put,Stage.gone]
        · cases stepped
      · exact absurd (rest.kept leaving before) outside
    · rcases registered.absent u before with gone | ⟨idle,unseated⟩
      · exact .inl ((moves u).gone gone)
      · by_cases own : a.thread = some u
        · refine .inl ((unseated_step sound idle unseated own (fun flush => ?_) stepped).resolve_left outside)
          exact before (flushed u flush)
        · obtain ⟨local_,stage,_⟩ := step_bystander sound stepped own
          exact .inr ⟨stage.trans idle,local_ ▸ unseated⟩

end Trace0
