import Trace0.TailCells

namespace Trace0.Tails

def Pc.arms : Pc → Bool
  | .arming _ _ _ => true
  | _ => false

def Pc.switchTo : Pc → Option Nat
  | .storeClock p => some p.queue
  | .arm (.seated p) => some p.queue
  | .armOdd (.seated p) _ => some p.queue
  | _ => none

def Pc.ahead : Pc → Nat
  | .bump _ => 1
  | _ => 0

theorem switchTo_of_owned {pc : Pc} (owned : pc.freed = false) : pc.switchTo = none := by
  cases pc with
  | arm next | armOdd next epoch =>
    cases next with
    | seated p => cases owned
    | _ => rfl
  | storeClock p => cases owned
  | _ => rfl

theorem owned_of_switchTo {pc : Pc} (settled : pc.switchTo = none) (going : ∀ p, pc ≠ .storeQueue p) :
    pc.freed = false := by
  cases pc with
  | arm next | armOdd next epoch =>
    cases next with
    | seated p => cases settled
    | _ => rfl
  | storeQueue p => exact absurd rfl (going p)
  | storeClock p => cases settled
  | _ => rfl

namespace Cell

structure Shows (c : Cell) (last : Armed) : Prop where
  room : batchN < c.hot.endAt
  baseTicks : last.baseTicks = c.hot.baseTicks
  tid : last.tid = c.hot.tid
  starts : c.hot.endAt - batchN ≤ c.hot.cursor
  ends : c.hot.cursor ≤ c.hot.endAt
  count : last.events.length = c.hot.cursor - (c.hot.endAt - batchN) + c.pc.ahead
  slots : c.pc.freed = false → ∀ i e, last.events[i]? = some e → c.slots (c.hot.endAt - batchN + i) = e.2
  queue : c.pc.switchTo = none → ∀ e ∈ last.events, e.1 = c.hot.queueId

def Window (c : Cell) : Prop :=
  (c.hot.cursor = 0 ∧ c.hot.endAt = 0) ∨ ∃ last, c.armed.getLast? = some last ∧ c.Shows last

def Next (c : Cell) : After → Prop
  | .seated p | .shipped p => c.hot.queueId = p.queue ∧ c.batch ≠ none
  | .restored | .handOver _ => True

def Target (batch : Option OpenBatch) (hot : Hot) : Prop :=
  match batch with
  | none => hot.cursor = 0 ∧ hot.endAt = 0
  | some o => hot.baseTicks = o.batch.baseTicks ∧ hot.tid = o.batch.tid ∧ hot.cursor = o.start ∧
      hot.endAt = o.start + batchN

def Knows (c : Cell) : Pc → Prop
  | .pushEnd _ _ cursor => cursor = c.hot.cursor
  | .pushQueue _ _ cursor | .bump cursor => cursor = c.hot.cursor ∧ cursor < c.hot.endAt
  | .pushSlot p _ cursor | .slowSlot p cursor =>
    cursor = c.hot.cursor ∧ cursor < c.hot.endAt ∧ c.hot.queueId = p.queue
  | .slowCursor p => c.hot.cursor < c.hot.endAt ∧ c.hot.queueId = p.queue
  | .storeQueue p => c.producer = some p.queue ∧ c.batch ≠ none
  | .storeClock p => c.hot.queueId = p.queue ∧ c.batch ≠ none
  | .commitCursor (.ship p) | .commitEnd (.ship p) _ | .ship p => c.hot.queueId = p.queue
  | .arm next => c.Next next
  | .armOdd next epoch => c.Next next ∧ epoch = c.hot.epoch
  | .arming stores next epoch => c.Next next ∧ epoch = .ofNat (2*c.arms) ∧ c.hot.epoch = epoch+1 ∧
      Target c.batch (stores.foldl Store.apply c.hot)
  | _ => True

structure Kept (c : Cell) : Prop where
  even : c.pc.arms = false → c.hot.epoch = .ofNat (2*c.arms)
  window : c.pc.arms = false → c.Window
  knows : c.Knows c.pc
  starts : ∀ o, c.batch = some o → 0 < o.start
  producer : (∀ p, c.pc ≠ .storeQueue p) → ∀ id, c.producer = some id → c.hot.queueId = id

end Cell

@[simp] theorem apply_queueId (hot : Hot) (store : Store) : (store.apply hot).queueId = hot.queueId := by
  cases store <;> rfl

@[simp] theorem apply_epoch (hot : Hot) (store : Store) : (store.apply hot).epoch = hot.epoch := by
  cases store <;> rfl

namespace Cell

variable {c c' : Cell} {direct full : Bool} {start : Nat}

structure Quiet (c c' : Cell) : Prop where
  cursor : c'.hot.cursor = c.hot.cursor
  endAt : c'.hot.endAt = c.hot.endAt
  baseTicks : c'.hot.baseTicks = c.hot.baseTicks
  tid : c'.hot.tid = c.hot.tid
  queueId : c'.hot.queueId = c.hot.queueId
  epoch : c'.hot.epoch = c.hot.epoch
  slots : c'.slots = c.slots
  arms : c'.arms = c.arms
  armed : c'.armed = c.armed
  even : c.pc.arms = false ∧ c'.pc.arms = false
  ahead : c'.pc.ahead = c.pc.ahead
  switchTo : c'.pc.switchTo = c.pc.switchTo
  owned : c'.pc.freed = false → c.pc.freed = false

structure Grown (c c' : Cell) : Prop where
  endAt : c'.hot.endAt = c.hot.endAt
  baseTicks : c'.hot.baseTicks = c.hot.baseTicks
  tid : c'.hot.tid = c.hot.tid
  cursor : c.hot.cursor ≤ c'.hot.cursor
  armed : ∀ last, c.armed.getLast? = some last → ∃ more, c'.armed.getLast? = some {last with events := last.events ++ more}
  queue : c'.pc.switchTo = none → c.pc.switchTo = none ∧ c'.hot.queueId = c.hot.queueId

structure Later (c c' : Cell) : Prop where
  armed : ∀ earlier ∈ c.armed, ∃ later ∈ c'.armed, earlier.events <+: later.events
  arms : c.arms ≤ c'.arms
  still : c'.arms = c.arms → c'.pc.arms = false → c.pc.arms = false ∧ c.Grown c'

theorem Window.quiet (window : c.Window) (quiet : c.Quiet c') : c'.Window := by
  unfold Window at window ⊢
  rw [quiet.cursor,quiet.endAt,quiet.armed]
  refine window.imp_right ?_
  rintro ⟨last,here,shows⟩
  obtain ⟨room,baseTicks,tid,starts,ends,count,slots,queue⟩ := shows
  refine ⟨last,here,?_,?_,?_,?_,?_,?_,?_,?_⟩
  · rw [quiet.endAt]; exact room
  · rw [quiet.baseTicks]; exact baseTicks
  · rw [quiet.tid]; exact tid
  · rw [quiet.endAt,quiet.cursor]; exact starts
  · rw [quiet.endAt,quiet.cursor]; exact ends
  · rw [quiet.endAt,quiet.cursor,quiet.ahead]; exact count
  · rw [quiet.endAt,quiet.slots]; exact fun owned => slots (quiet.owned owned)
  · rw [quiet.queueId,quiet.switchTo]; exact queue

theorem armed_same (same : c'.armed = c.armed) : ∀ earlier ∈ c.armed, ∃ later ∈ c'.armed, earlier.events <+: later.events := by
  rw [same]
  exact fun earlier among => ⟨earlier,among,List.prefix_rfl⟩

theorem Quiet.later (quiet : c.Quiet c') : c.Later c' := by
  refine ⟨armed_same quiet.armed,quiet.arms.ge,fun _ _ => ⟨quiet.even.1,quiet.endAt,quiet.baseTicks,quiet.tid,quiet.cursor.ge,?_,?_⟩⟩
  · exact fun last here => ⟨[],by rw [quiet.armed,here,List.append_nil]⟩
  · exact fun settled => ⟨quiet.switchTo.symm.trans settled,quiet.queueId⟩

theorem later_arming (armed : ∀ earlier ∈ c.armed, ∃ later ∈ c'.armed, earlier.events <+: later.events) (arms : c.arms ≤ c'.arms)
    (moved : c'.pc.arms = true ∨ c.arms < c'.arms) : c.Later c' := by
  refine ⟨armed,arms,fun same even => ?_⟩
  rcases moved with odd | more
  · rw [even] at odd
    cases odd
  · omega

theorem Kept.quiet (kept : c.Kept) (quiet : c.Quiet c') (knows : c'.Knows c'.pc)
    (starts : ∀ o, c'.batch = some o → 0 < o.start)
    (producer : (∀ p, c'.pc ≠ .storeQueue p) → ∀ id, c'.producer = some id → c'.hot.queueId = id) :
    c'.Kept ∧ c.Later c' := by
  refine ⟨⟨?_,fun _ => (kept.window quiet.even.1).quiet quiet,knows,starts,producer⟩,quiet.later⟩
  intro _
  rw [quiet.epoch,quiet.arms]
  exact kept.even quiet.even.1

theorem Kept.moves (kept : c.Kept) {pc : Pc} (even : c.pc.arms = false ∧ pc.arms = false) (ahead : pc.ahead = c.pc.ahead)
    (switchTo : pc.switchTo = c.pc.switchTo) (knows : c.Knows pc) (going : ∀ p, c.pc ≠ .storeQueue p) :
    Kept {c with pc := pc} ∧ c.Later {c with pc := pc} :=
  kept.quiet ⟨rfl,rfl,rfl,rfl,rfl,rfl,rfl,rfl,rfl,even,ahead,switchTo,fun owned =>
    owned_of_switchTo (switchTo.symm.trans (switchTo_of_owned owned)) going⟩ (by cases pc <;> exact knows) kept.starts
    fun _ => kept.producer going

theorem Kept.shows (kept : c.Kept) (even : c.pc.arms = false) (below : c.hot.cursor < c.hot.endAt) :
    ∃ last, c.armed.getLast? = some last ∧ c.Shows last := by
  refine (kept.window even).resolve_left ?_
  rintro ⟨cursor,endAt⟩
  omega

theorem logWrite_last {last : Armed} (here : c.armed.getLast? = some last) (e : Nat × PackedEvent) :
    (c.logWrite e).getLast? = some {last with events := last.events ++ [e]} := by
  unfold logWrite
  rw [here]
  exact List.getLast?_concat

theorem logWrite_armed (c : Cell) (e : Nat × PackedEvent) :
    ∀ earlier ∈ c.armed, ∃ later ∈ c.logWrite e, earlier.events <+: later.events := by
  unfold logWrite
  intro earlier among
  split
  · exact ⟨earlier,among,List.prefix_rfl⟩
  · rename_i last here
    obtain ⟨front,own⟩ := List.getLast?_eq_some_iff.mp here
    rw [own] at among ⊢
    rw [List.dropLast_concat]
    rcases List.mem_append.mp among with before | now
    · exact ⟨earlier,List.mem_append_left _ before,List.prefix_rfl⟩
    · rw [List.mem_singleton.mp now]
      exact ⟨_,List.mem_append_right _ (List.mem_singleton_self _),List.prefix_append _ _⟩

theorem write_kept (kept : c.Kept) {p : Push} {cursor : Nat} (event : PackedEvent) (even : c.pc.arms = false)
    (behind : c.pc.ahead = 0) (settled : c.pc.switchTo = none) (going : ∀ p, c.pc ≠ .storeQueue p)
    (at_ : cursor = c.hot.cursor) (below : cursor < c.hot.endAt) (own : c.hot.queueId = p.queue) :
    (c.writeSlot p cursor event).Kept ∧ c.Later (c.writeSlot p cursor event) := by
  subst at_
  obtain ⟨last,here,shows⟩ := kept.shows even below
  have written := logWrite_last here (p.queue,event)
  have count := shows.count
  rw [behind] at count
  have starts := shows.starts
  refine ⟨⟨fun _ => kept.even even,fun _ => .inr ⟨_,written,?_⟩,⟨rfl,below⟩,kept.starts,fun _ => kept.producer going⟩,
    logWrite_armed c _,Nat.le_refl _,fun _ _ => ⟨even,rfl,rfl,rfl,Nat.le_refl _,?_,fun _ => ⟨settled,rfl⟩⟩⟩
  · refine ⟨shows.room,shows.baseTicks,shows.tid,starts,shows.ends,?_,?_,?_⟩
    · rw [List.length_append,count,List.length_singleton,Nat.add_zero,writeSlot,Pc.ahead]
    · intro _ i e read
      dsimp only [writeSlot]
      rw [List.getElem?_append] at read
      split at read
      · rename_i before
        rw [Function.update_of_ne (by omega)]
        exact shows.slots (owned_of_switchTo settled going) i e read
      · rename_i past
        rw [List.getElem?_singleton] at read
        split at read
        · cases read
          have place : c.hot.endAt - batchN + i = c.hot.cursor := by omega
          rw [place,Function.update_self]
        · cases read
    · intro _ e among
      rcases List.mem_append.mp among with before | now
      · exact shows.queue settled e before
      · rw [List.mem_singleton.mp now]
        exact own.symm
  · intro earlier same
    rw [here] at same
    cases same
    exact ⟨[(p.queue,event)],written⟩

theorem bump_kept (kept : c.Kept) {cursor : Nat} (here : c.pc = .bump cursor) :
    Kept {c with hot := {c.hot with cursor := cursor+1},pc := .idle} ∧
      c.Later {c with hot := {c.hot with cursor := cursor+1},pc := .idle} := by
  have knows := kept.knows
  have even : c.pc.arms = false := by rw [here]; rfl
  rw [here] at knows
  obtain ⟨rfl,below⟩ := knows
  obtain ⟨last,newest,shows⟩ := kept.shows even below
  have starts := shows.starts
  have ends := shows.ends
  refine ⟨⟨fun _ => kept.even even,fun _ => .inr ⟨last,newest,?_⟩,trivial,kept.starts,fun _ =>
      kept.producer (by rw [here]; simp)⟩,
    armed_same rfl,Nat.le_refl _,fun _ _ => ⟨even,rfl,rfl,rfl,Nat.le_succ _,?_,fun _ => ⟨by rw [here]; rfl,rfl⟩⟩⟩
  · refine ⟨shows.room,shows.baseTicks,shows.tid,?_,?_,?_,fun _ => shows.slots (by rw [here]; rfl),fun _ => shows.queue (by rw [here]; rfl)⟩
    · dsimp only
      omega
    · dsimp only
      omega
    · rw [shows.count,here]
      dsimp only [Pc.ahead]
      omega
  · exact fun earlier same => ⟨[],by rw [List.append_nil]; exact same⟩

theorem storeQueue_kept (kept : c.Kept) {p : Push} (here : c.pc = .storeQueue p) :
    Kept {c with hot := {c.hot with queueId := p.queue},pc := .storeClock p} ∧
      c.Later {c with hot := {c.hot with queueId := p.queue},pc := .storeClock p} := by
  have even : c.pc.arms = false := by rw [here]; rfl
  have knows := kept.knows
  rw [here] at knows
  obtain ⟨owns,holds⟩ := knows
  refine ⟨⟨fun _ => kept.even even,fun _ => ?_,⟨rfl,holds⟩,kept.starts,?_⟩,
    armed_same rfl,Nat.le_refl _,fun _ _ => ⟨even,rfl,rfl,rfl,Nat.le_refl _,?_,nofun⟩⟩
  · refine (kept.window even).imp_right ?_
    rintro ⟨last,newest,shows⟩
    refine ⟨last,newest,shows.room,shows.baseTicks,shows.tid,shows.starts,shows.ends,?_,nofun,nofun⟩
    rw [shows.count,here]
    rfl
  · intro _ id producer
    exact Option.some.inj (owns.symm.trans producer)
  · exact fun earlier same => ⟨[],by rw [List.append_nil]; exact same⟩

theorem armStores_target (c : Cell) : Target c.batch (c.armStores.foldl Store.apply c.hot) := by
  unfold armStores Target
  cases c.batch with
  | none => exact ⟨rfl,rfl⟩
  | some o => exact ⟨rfl,rfl,rfl,rfl⟩

theorem armOdd_kept (kept : c.Kept) {next : After} {epoch : UInt64} (here : c.pc = .armOdd next epoch) :
    Kept {c with hot := {c.hot with epoch := epoch+1},pc := .arming c.armStores next epoch} ∧
      c.Later {c with hot := {c.hot with epoch := epoch+1},pc := .arming c.armStores next epoch} := by
  have knows := kept.knows
  have even := kept.even (by rw [here]; rfl)
  rw [here] at knows
  obtain ⟨goes,rfl⟩ := knows
  refine ⟨⟨by simp [Pc.arms],by simp [Pc.arms],⟨?_,even,rfl,?_⟩,kept.starts,fun _ =>
    kept.producer (by rw [here]; simp)⟩,later_arming (armed_same rfl) (Nat.le_refl _) (.inl rfl)⟩
  · cases next <;> exact goes
  · have target := armStores_target c
    unfold Target at target ⊢
    have same (hot : Hot) (stores : List Store) (epoch : UInt64) :
        stores.foldl Store.apply {hot with epoch := epoch} = {stores.foldl Store.apply hot with epoch := epoch} := by
      induction stores generalizing hot with
      | nil => rfl
      | cons store stores ih =>
        rw [List.foldl_cons,List.foldl_cons,← ih]
        cases store <;> rfl
    rw [same]
    exact target

theorem store_kept (kept : c.Kept) {store : Store} {stores : List Store} {next : After} {epoch : UInt64}
    (here : c.pc = .arming (store :: stores) next epoch) :
    Kept {c with hot := store.apply c.hot,pc := .arming stores next epoch} ∧
      c.Later {c with hot := store.apply c.hot,pc := .arming stores next epoch} := by
  have knows := kept.knows
  rw [here] at knows
  obtain ⟨goes,epochs,odd,target⟩ := knows
  refine ⟨⟨by simp [Pc.arms],by simp [Pc.arms],⟨?_,epochs,?_,target⟩,kept.starts,?_⟩,later_arming (armed_same rfl) (Nat.le_refl _) (.inl rfl)⟩
  · cases next with
    | seated p => exact ⟨(apply_queueId _ _).trans goes.1,goes.2⟩
    | shipped p => exact ⟨(apply_queueId _ _).trans goes.1,goes.2⟩
    | restored => trivial
    | handOver full => trivial
  · exact (apply_epoch _ _).trans odd
  · intro _ id producer
    exact (apply_queueId _ _).trans (kept.producer (by rw [here]; simp) id producer)

theorem even_kept (kept : c.Kept) {next : After} {epoch : UInt64} (here : c.pc = .arming [] next epoch) {c' : Cell}
    (stepped : c.advance direct start full = some c') : c'.Kept ∧ c.Later c' := by
  have knows := kept.knows
  rw [here] at knows
  obtain ⟨goes,rfl,odd,target⟩ := knows
  rw [List.foldl_nil] at target
  unfold advance at stepped
  rw [here] at stepped
  cases stepped
  have epochs : UInt64.ofNat (2*c.arms) + 2 = .ofNat (2*(c.arms+1)) := by
    rw [Nat.mul_add,UInt64.ofNat_add]
    rfl
  have even : (afterArm next).arms = false := by cases next <;> rfl
  have behind : (afterArm next).ahead = 0 := by cases next <;> rfl
  refine ⟨⟨fun _ => epochs,fun _ => ?_,?_,kept.starts,?_⟩,later_arming ?_ (Nat.le_succ _) (.inr (Nat.lt_succ_self _))⟩
  · cases batch : c.batch with
    | none =>
      rw [batch] at target
      exact .inl target
    | some o =>
      rw [batch] at target
      obtain ⟨base,tid,cursor,endAt⟩ := target
      have positive := kept.starts o batch
      refine .inr ⟨⟨o.batch.baseTicks,o.batch.tid,[]⟩,?_,?_,base.symm,tid.symm,?_,?_,?_,?_,?_⟩
      · simp
      · dsimp only
        omega
      · dsimp only
        omega
      · dsimp only
        omega
      · dsimp only
        rw [behind,cursor,endAt,Nat.add_sub_cancel,Nat.sub_self]
        rfl
      · intro _ i e read
        simp at read
      · intro _ e among
        cases among
  · have seated (p : Push) (own : c.hot.queueId = p.queue ∧ c.batch ≠ none) : c.hot.cursor < c.hot.endAt ∧ c.hot.queueId = p.queue := by
      obtain ⟨o,present⟩ := Option.ne_none_iff_exists'.mp own.2
      rw [present] at target
      obtain ⟨_,_,cursor,endAt⟩ := target
      have some_ : 0 < batchN := by decide
      exact ⟨by omega,own.1⟩
    cases next with
    | seated p => exact seated p goes
    | shipped p => exact seated p goes
    | restored => trivial
    | handOver full => trivial
  · intro _ id producer
    exact kept.producer (by rw [here]; simp) id producer
  · exact fun earlier among => ⟨earlier,List.mem_append_left _ among,List.prefix_rfl⟩

theorem advance_kept (kept : c.Kept) (stepped : c.advance direct start full = some c') : c'.Kept ∧ c.Later c' := by
  have whole := stepped
  have knows := kept.knows
  unfold advance at stepped
  cases here : c.pc with
  | idle =>
    rw [here] at stepped
    cases stepped
  | pushBase p =>
    rw [here] at stepped
    cases stepped
    exact kept.moves ⟨by rw [here]; rfl,rfl⟩ (by rw [here]; rfl) (by rw [here]; rfl) trivial (by rw [here]; simp)
  | pushCursor p delta =>
    rw [here] at stepped
    cases stepped
    exact kept.moves ⟨by rw [here]; rfl,rfl⟩ (by rw [here]; rfl) (by rw [here]; rfl) rfl (by rw [here]; simp)
  | pushEnd p delta cursor =>
    rw [here] at stepped knows
    have at_ : cursor = c.hot.cursor := knows
    cases stepped
    split
    · rename_i below
      exact kept.moves ⟨by rw [here]; rfl,rfl⟩ (by rw [here]; rfl) (by rw [here]; rfl) ⟨at_,below⟩ (by rw [here]; simp)
    · exact kept.moves ⟨by rw [here]; rfl,rfl⟩ (by rw [here]; rfl) (by rw [here]; rfl) trivial (by rw [here]; simp)
  | pushQueue p delta cursor =>
    rw [here] at stepped knows
    obtain ⟨at_,below⟩ := knows
    cases stepped
    split
    · rename_i own
      exact kept.moves ⟨by rw [here]; rfl,rfl⟩ (by rw [here]; rfl) (by rw [here]; rfl) ⟨at_,below,own.1⟩ (by rw [here]; simp)
    · exact kept.moves ⟨by rw [here]; rfl,rfl⟩ (by rw [here]; rfl) (by rw [here]; rfl) trivial (by rw [here]; simp)
  | pushSlot p delta cursor =>
    rw [here] at stepped knows
    obtain ⟨at_,below,own⟩ := knows
    cases stepped
    exact write_kept kept _ (by rw [here]; rfl) (by rw [here]; rfl) (by rw [here]; rfl) (by rw [here]; simp) at_ below own
  | bump cursor =>
    rw [here] at stepped
    cases stepped
    exact bump_kept kept here
  | slow p =>
    rw [here] at stepped
    dsimp only at stepped
    split at stepped
    · rename_i owns
      cases stepped
      have own : c.hot.queueId = p.queue := kept.producer (by rw [here]; simp) _ owns
      exact kept.moves ⟨by rw [here]; rfl,rfl⟩ (by rw [here]; rfl) (by rw [here]; rfl) own (by rw [here]; simp)
    · split at stepped
      · cases stepped
      · rename_i fresh
        cases stepped
        refine kept.quiet ⟨rfl,rfl,rfl,rfl,rfl,rfl,rfl,rfl,rfl,⟨by rw [here]; rfl,rfl⟩,by rw [here]; rfl,by rw [here]; rfl,nofun⟩
          ⟨rfl,by simp [renew]⟩ ?_ fun going => absurd rfl (going p)
        intro o same
        cases same
        exact Nat.pos_of_ne_zero fresh
  | storeQueue p =>
    rw [here] at stepped
    cases stepped
    exact storeQueue_kept kept here
  | storeClock p =>
    rw [here] at stepped knows
    cases stepped
    exact kept.quiet ⟨rfl,rfl,rfl,rfl,rfl,rfl,rfl,rfl,rfl,⟨by rw [here]; rfl,rfl⟩,by rw [here]; rfl,by rw [here]; rfl,nofun⟩
      knows kept.starts fun _ => kept.producer (by rw [here]; simp)
  | commitCursor reason =>
    rw [here] at stepped knows
    cases stepped
    refine kept.moves ⟨by rw [here]; rfl,rfl⟩ (by rw [here]; rfl) (by rw [here]; rfl) ?_ (by rw [here]; simp)
    cases reason <;> exact knows
  | commitEnd reason cursor =>
    rw [here] at stepped knows
    cases stepped
    refine kept.quiet ⟨rfl,rfl,rfl,rfl,rfl,rfl,rfl,rfl,rfl,⟨by rw [here]; rfl,?_⟩,?_,?_,fun _ => by rw [here]; rfl⟩ ?_ ?_ fun _ =>
      kept.producer (by rw [here]; simp)
    · cases reason <;> rfl
    · rw [here]; cases reason <;> rfl
    · rw [here]; cases reason <;> rfl
    · cases reason <;> exact knows
    · intro o same
      obtain ⟨earlier,before,rfl⟩ := Option.map_eq_some_iff.mp same
      exact kept.starts earlier before
  | ship p =>
    rw [here] at stepped knows
    dsimp only at stepped
    split at stepped
    · cases stepped
    · rename_i o present
      split at stepped
      · cases stepped
        refine kept.quiet ⟨rfl,rfl,rfl,rfl,rfl,rfl,rfl,rfl,rfl,⟨by rw [here]; rfl,rfl⟩,by rw [here]; rfl,by rw [here]; rfl,
            fun _ => by rw [here]; rfl⟩
          ⟨knows,by simp⟩ ?_ fun _ => kept.producer (by rw [here]; simp)
        intro reused same
        cases same
        exact kept.starts o present
      · split at stepped
        · cases stepped
        · rename_i fresh
          cases stepped
          refine kept.quiet ⟨rfl,rfl,rfl,rfl,rfl,rfl,rfl,rfl,rfl,⟨by rw [here]; rfl,rfl⟩,by rw [here]; rfl,by rw [here]; rfl,
            fun _ => by rw [here]; rfl⟩
            ⟨knows,by simp [renew]⟩ ?_ fun _ => kept.producer (by rw [here]; simp)
          intro renewed same
          cases same
          exact Nat.pos_of_ne_zero fresh
  | take =>
    rw [here] at stepped
    dsimp only at stepped
    split at stepped
    · cases stepped
    · rename_i o present
      split at stepped
      · cases stepped
        exact kept.moves ⟨by rw [here]; rfl,rfl⟩ (by rw [here]; rfl) (by rw [here]; rfl) trivial (by rw [here]; simp)
      · split at stepped
        · cases stepped
        · rename_i fresh
          cases stepped
          refine kept.quiet ⟨rfl,rfl,rfl,rfl,rfl,rfl,rfl,rfl,rfl,⟨by rw [here]; rfl,rfl⟩,by rw [here]; rfl,by rw [here]; rfl,
            fun _ => by rw [here]; rfl⟩
            trivial ?_ fun _ => kept.producer (by rw [here]; simp)
          intro renewed same
          cases same
          exact Nat.pos_of_ne_zero fresh
  | arm next =>
    rw [here] at stepped knows
    cases stepped
    exact kept.moves ⟨by rw [here]; rfl,rfl⟩ (by rw [here]; rfl) (by rw [here]; cases next <;> rfl) ⟨knows,rfl⟩
      (by rw [here]; simp)
  | armOdd next epoch =>
    rw [here] at stepped
    cases stepped
    exact armOdd_kept kept here
  | arming stores next epoch =>
    cases stores with
    | nil => exact even_kept kept here whole
    | cons store stores =>
      rw [here] at stepped
      cases stepped
      exact store_kept kept here
  | slowCursor p =>
    rw [here] at stepped knows
    cases stepped
    exact kept.moves ⟨by rw [here]; rfl,rfl⟩ (by rw [here]; rfl) (by rw [here]; rfl) ⟨rfl,knows.1,knows.2⟩ (by rw [here]; simp)
  | slowSlot p cursor =>
    rw [here] at stepped knows
    obtain ⟨at_,below,own⟩ := knows
    cases stepped
    exact write_kept kept _ (by rw [here]; rfl) (by rw [here]; rfl) (by rw [here]; rfl) (by rw [here]; simp) at_ below own
  | handOver full =>
    rw [here] at stepped
    cases stepped
    exact kept.moves ⟨by rw [here]; rfl,rfl⟩ (by rw [here]; rfl) (by rw [here]; rfl) trivial (by rw [here]; simp)

theorem step_kept (kept : c.Kept) (a : WriterAct) (stepped : c.step a = some c') : c'.Kept ∧ c.Later c' := by
  cases a with
  | push p =>
    cases here : c.pc with
    | idle =>
      simp only [step,here] at stepped
      cases stepped
      exact kept.moves ⟨by rw [here]; rfl,rfl⟩ (by rw [here]; rfl) (by rw [here]; rfl) trivial (by rw [here]; simp)
    | _ => simp [step,here] at stepped
  | flush =>
    cases here : c.pc with
    | idle =>
      cases present : c.batch with
      | none =>
        simp only [step,here,present] at stepped
        cases stepped
        exact ⟨kept,Quiet.later ⟨rfl,rfl,rfl,rfl,rfl,rfl,rfl,rfl,rfl,⟨by rw [here]; rfl,by rw [here]; rfl⟩,rfl,rfl,id⟩⟩
      | some o =>
        have same : c' = {c with pc := .commitCursor .flush} := by simpa [step,here,present] using stepped.symm
        subst same
        exact kept.moves ⟨by rw [here]; rfl,rfl⟩ (by rw [here]; rfl) (by rw [here]; rfl) trivial (by rw [here]; simp)
    | _ => simp [step,here] at stepped
  | step direct start full => exact advance_kept kept stepped

theorem knows_slots {pc : Pc} {slots : Nat → PackedEvent} (knows : c.Knows pc) : Knows {c with slots := slots} pc := by
  cases pc <;> exact knows

theorem reuse_kept (kept : c.Kept) {memory : Nat → PackedEvent} (reused : c.reuse memory = some c') : c'.Kept ∧ c.Later c' := by
  obtain ⟨dangles,same⟩ := Option.ite_none_right_eq_some.mp reused
  cases same
  have freed : c.pc.freed = true := (Bool.and_eq_true_iff.mp dangles).1
  have even : c.pc.arms = false := by
    cases here : c.pc <;> rw [here] at freed <;> first | rfl | cases freed
  refine ⟨⟨fun _ => kept.even even,fun _ => ?_,?_,kept.starts,kept.producer⟩,armed_same rfl,Nat.le_refl _,fun _ _ => ⟨even,rfl,rfl,rfl,
    Nat.le_refl _,fun earlier same => ⟨[],by rw [List.append_nil]; exact same⟩,fun settled => ⟨settled,rfl⟩⟩⟩
  · refine (kept.window even).imp_right ?_
    rintro ⟨last,newest,shows⟩
    exact ⟨last,newest,shows.room,shows.baseTicks,shows.tid,shows.starts,shows.ends,shows.count,
      fun owned => absurd (freed.symm.trans owned) (by simp),shows.queue⟩
  · exact knows_slots kept.knows

theorem fresh_kept : fresh.Kept :=
  ⟨fun _ => rfl,fun _ => .inl ⟨rfl,rfl⟩,trivial,by simp [fresh],by simp [fresh]⟩

end Cell

end Trace0.Tails
