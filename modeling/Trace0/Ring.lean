import Trace0.EvQueue

namespace Trace0

structure Ring where
  batches : List EventBatch
  bytes : Nat
  capacity : Nat
  floor : Option UInt64
  horizonTicks : UInt64
  evictedEvents : Nat

namespace Ring

def new (capacity : Nat) : Ring := ⟨[],0,capacity,none,0,0⟩

def pop (r : Ring) : Option (EventBatch × Ring) :=
  match r.batches with
  | [] => none
  | batch :: rest => some (batch,{r with batches := rest,bytes := r.bytes - batch.bytes})

def evict (r : Ring) (oldest : EventBatch) (rest : List EventBatch) : Ring :=
  {r with
    batches := rest
    bytes := r.bytes - oldest.bytes
    horizonTicks := oldest.endTicks
    evictedEvents := r.evictedEvents + oldest.events.length}

def evictLoop : List EventBatch → Ring → Ring
  | oldest :: next :: rest,r =>
    if r.capacity < r.bytes then
      if r.floor.any (· ≤ oldest.endTicks) && r.bytes ≤ min (r.capacity * 2) usizeMax then r
      else evictLoop (next :: rest) (r.evict oldest (next :: rest))
    else r
  | _,r => r

def evictOverCapacity (r : Ring) : Ring := evictLoop r.batches r

def push (r : Ring) (batch : EventBatch) : Ring :=
  {r with batches := r.batches ++ [batch],bytes := r.bytes + batch.bytes}.evictOverCapacity

def setFloor (r : Ring) (floor : Option UInt64) : Ring := {r with floor := floor}.evictOverCapacity

def horizonOf (evicted : List EventBatch) (before : UInt64) : UInt64 :=
  (evicted.getLast?.map (·.endTicks)).getD before

-- `r'` is `r` with its oldest batches evicted, and nothing else.
structure Evicts (r r' : Ring) (evicted : List EventBatch) : Prop where
  splits : r.batches = evicted ++ r'.batches
  horizon : r'.horizonTicks = horizonOf evicted r.horizonTicks
  events : r'.evictedEvents = r.evictedEvents + (evicted.map (·.events.length)).sum
  bytes : r'.bytes = r.bytes - (evicted.map (·.bytes)).sum
  capacity : r'.capacity = r.capacity
  floor : r'.floor = r.floor

theorem Evicts.none (r : Ring) : Evicts r r [] := ⟨rfl,rfl,rfl,rfl,rfl,rfl⟩

theorem horizonOf_cons (oldest : EventBatch) (evicted : List EventBatch) (before : UInt64) :
    horizonOf (oldest :: evicted) before = horizonOf evicted oldest.endTicks := by
  cases last : evicted.getLast? <;> simp [horizonOf,List.getLast?_cons,last]

theorem Evicts.oldest {r r' : Ring} {oldest : EventBatch} {rest evicted : List EventBatch}
    (own : r.batches = oldest :: rest) (later : Evicts (r.evict oldest rest) r' evicted) :
    Evicts r r' (oldest :: evicted) := by
  refine ⟨?_,?_,?_,?_,later.capacity,later.floor⟩
  · rw [own,List.cons_append,← later.splits]
    rfl
  · rw [later.horizon,horizonOf_cons]
    rfl
  · rw [later.events,evict,List.map_cons,List.sum_cons,Nat.add_assoc]
  · rw [later.bytes,evict,List.map_cons,List.sum_cons,Nat.sub_sub]

theorem evictLoop_evicts (batches : List EventBatch) {r : Ring} (own : r.batches = batches) :
    ∃ evicted, Evicts r (evictLoop batches r) evicted := by
  induction batches generalizing r with
  | nil => exact ⟨[],.none r⟩
  | cons oldest rest ih =>
    cases rest with
    | nil => exact ⟨[],.none r⟩
    | cons next rest =>
      unfold evictLoop
      split
      · split
        · exact ⟨[],.none r⟩
        · obtain ⟨evicted,later⟩ := ih (r := r.evict oldest (next :: rest)) rfl
          exact ⟨oldest :: evicted,.oldest own later⟩
      · exact ⟨[],.none r⟩

theorem push_evicts (r : Ring) (batch : EventBatch) : ∃ evicted,
    Evicts {r with batches := r.batches ++ [batch],bytes := r.bytes + batch.bytes}
      (r.push batch) evicted :=
  evictLoop_evicts _ rfl

theorem setFloor_evicts (r : Ring) (floor : Option UInt64) :
    ∃ evicted, Evicts {r with floor := floor} (r.setFloor floor) evicted :=
  evictLoop_evicts _ rfl

theorem evictLoop_within (batches : List EventBatch) {r : Ring} (room : r.bytes ≤ r.capacity) :
    evictLoop batches r = r := by
  match batches with
  | [] | [_] => rfl
  | _ :: _ :: _ => simp [evictLoop,Nat.not_lt.mpr room]

theorem push_within {r : Ring} {batch : EventBatch} (room : r.bytes + batch.bytes ≤ r.capacity) :
    r.push batch = {r with batches := r.batches ++ [batch],bytes := r.bytes + batch.bytes} :=
  evictLoop_within _ room

theorem horizonOf_append (left right : List EventBatch) (before : UInt64) :
    horizonOf (left ++ right) before = horizonOf right (horizonOf left before) := by
  cases right using List.reverseRecOn with
  | nil => simp [horizonOf]
  | append_singleton right last _ => simp [horizonOf,← List.append_assoc]

end Ring

inductive RingCall where
  | push (batch : EventBatch)
  | setFloor (floor : Option UInt64)

namespace RingCall

def apply (r : Ring) : RingCall → Ring
  | .push batch => r.push batch
  | .setFloor floor => r.setFloor floor

def pushed : RingCall → List EventBatch
  | .push batch => [batch]
  | .setFloor _ => []

end RingCall

def Ring.after (capacity : Nat) (calls : List RingCall) : Ring :=
  calls.foldl RingCall.apply (.new capacity)

def arrivals (calls : List RingCall) : List EventBatch := calls.flatMap RingCall.pushed

def Ring.evictedBy (capacity : Nat) (calls : List RingCall) : List EventBatch :=
  (arrivals calls).take ((arrivals calls).length - (Ring.after capacity calls).batches.length)

theorem ring_run (capacity : Nat) (calls : List RingCall) :
    arrivals calls = Ring.evictedBy capacity calls ++ (Ring.after capacity calls).batches ∧
      (Ring.after capacity calls).horizonTicks = Ring.horizonOf (Ring.evictedBy capacity calls) 0 := by
  have run : ∃ evicted, arrivals calls = evicted ++ (Ring.after capacity calls).batches ∧
      (Ring.after capacity calls).horizonTicks = Ring.horizonOf evicted 0 := by
    induction calls using List.reverseRecOn with
    | nil => exact ⟨[],rfl,rfl⟩
    | append_singleton calls c ih =>
      obtain ⟨evicted,splits,horizon⟩ := ih
      have next : Ring.after capacity (calls ++ [c]) = RingCall.apply (.after capacity calls) c := by
        simp [Ring.after]
      have grown : arrivals (calls ++ [c]) = arrivals calls ++ c.pushed := by simp [arrivals]
      rw [next,grown]
      cases c with
      | push batch =>
        obtain ⟨later,evicts⟩ := (Ring.after capacity calls).push_evicts batch
        refine ⟨evicted ++ later,?_,?_⟩
        · rw [splits,List.append_assoc,List.append_assoc]
          exact congrArg _ evicts.splits
        · rw [Ring.horizonOf_append,← horizon]
          exact evicts.horizon
      | setFloor floor =>
        obtain ⟨later,evicts⟩ := (Ring.after capacity calls).setFloor_evicts floor
        refine ⟨evicted ++ later,?_,?_⟩
        · rw [splits,List.append_assoc,List.append_assoc]
          simpa [RingCall.pushed,RingCall.apply] using evicts.splits
        · rw [Ring.horizonOf_append,← horizon]
          exact evicts.horizon
  obtain ⟨evicted,splits,horizon⟩ := run
  have same : Ring.evictedBy capacity calls = evicted := by
    rw [Ring.evictedBy,splits,List.length_append,Nat.add_sub_cancel,List.take_left]
  rw [same]
  exact ⟨splits,horizon⟩

namespace Ring

def evictions : List EventBatch → Ring → List (EventBatch × Nat)
  | oldest :: next :: rest,r =>
    if r.capacity < r.bytes then
      if r.floor.any (· ≤ oldest.endTicks) && r.bytes ≤ min (r.capacity * 2) usizeMax then []
      else (oldest,r.bytes) :: evictions (next :: rest) (r.evict oldest (next :: rest))
    else []
  | _,_ => []

def append (r : Ring) (batch : EventBatch) : Ring :=
  {r with batches := r.batches ++ [batch],bytes := r.bytes + batch.bytes}

def pushEvictions : List EventBatch → Ring → List (EventBatch × Nat)
  | [],_ => []
  | batch :: rest,r =>
    evictions (r.append batch).batches (r.append batch) ++ pushEvictions rest (r.push batch)

def floorEvictions (r : Ring) (floor : Option UInt64) : List (EventBatch × Nat) :=
  evictions r.batches {r with floor := floor}

-- The byte count is a `usize`, so the second part is a count no machine reaches.
def Excess (capacity held : Nat) : Prop := capacity * 2 < held ∨ usizeMax < held

def Unprotected (r : Ring) (e : EventBatch × Nat) : Prop :=
  (∀ floor, r.floor = some floor → e.1.endTicks < floor) ∨ Excess r.capacity e.2

theorem evictions_split (batches : List EventBatch) {r : Ring} (own : r.batches = batches) :
    r.batches = (evictions batches r).map (·.1) ++ (evictLoop batches r).batches := by
  induction batches generalizing r with
  | nil => rfl
  | cons oldest rest ih =>
    cases rest with
    | nil => rfl
    | cons next rest =>
      unfold evictions evictLoop
      split
      · split
        · rfl
        · have later := ih (r := r.evict oldest (next :: rest)) rfl
          rw [List.map_cons,List.cons_append,← later]
          exact own
      · rfl

theorem evictions_unprotected (batches : List EventBatch) (r : Ring) :
    ∀ e ∈ evictions batches r, r.Unprotected e := by
  induction batches generalizing r with
  | nil => simp [evictions]
  | cons oldest rest ih =>
    cases rest with
    | nil => simp [evictions]
    | cons next rest =>
      intro e present
      unfold evictions at present
      split at present
      · split at present
        · cases present
        · rename_i unheld
          rcases List.mem_cons.mp present with rfl | later
          · rw [Bool.and_eq_true,not_and_or] at unheld
            rcases unheld with outside | full
            · refine .inl fun floor low => ?_
              rw [low] at outside
              exact UInt64.not_le.mp (by simpa using outside)
            · refine .inr ?_
              rw [decide_eq_true_eq,Nat.le_min,not_and_or] at full
              exact full.imp Nat.not_le.mp Nat.not_le.mp
          · exact ih (r.evict oldest (next :: rest)) e later
      · cases present

theorem push_same (r : Ring) (batch : EventBatch) :
    (r.push batch).floor = r.floor ∧ (r.push batch).capacity = r.capacity := by
  obtain ⟨_,evicts⟩ := r.push_evicts batch
  exact ⟨evicts.floor,evicts.capacity⟩

theorem pushes_same (batches : List EventBatch) (r : Ring) :
    (batches.foldl push r).floor = r.floor ∧ (batches.foldl push r).capacity = r.capacity := by
  induction batches generalizing r with
  | nil => exact ⟨rfl,rfl⟩
  | cons batch rest ih =>
    obtain ⟨floor,capacity⟩ := ih (r.push batch)
    exact ⟨floor.trans (r.push_same batch).1,capacity.trans (r.push_same batch).2⟩

theorem pushEvictions_split (batches : List EventBatch) (r : Ring) :
    r.batches ++ batches = (pushEvictions batches r).map (·.1) ++ (batches.foldl push r).batches := by
  induction batches generalizing r with
  | nil => simp [pushEvictions]
  | cons batch rest ih =>
    have here : r.batches ++ [batch] = (evictions (r.append batch).batches (r.append batch)).map (·.1) ++
        (r.push batch).batches := evictions_split (r.append batch).batches (r := r.append batch) rfl
    rw [pushEvictions,List.map_append,List.foldl_cons,List.append_assoc,← ih,← List.append_assoc,← here]
    simp

theorem pushEvictions_unprotected (batches : List EventBatch) (r : Ring) :
    ∀ e ∈ pushEvictions batches r, r.Unprotected e := by
  induction batches generalizing r with
  | nil => simp [pushEvictions]
  | cons batch rest ih =>
    intro e present
    rcases List.mem_append.mp present with here | later
    · exact evictions_unprotected _ (r.append batch) e here
    · have same := r.push_same batch
      have unprotected := ih (r.push batch) e later
      unfold Unprotected at unprotected
      rw [same.1,same.2] at unprotected
      exact unprotected

theorem setFloor_same (r : Ring) (floor : Option UInt64) :
    (r.setFloor floor).floor = floor ∧ (r.setFloor floor).capacity = r.capacity := by
  obtain ⟨_,evicts⟩ := r.setFloor_evicts floor
  exact ⟨evicts.floor,evicts.capacity⟩

theorem floorEvictions_split (r : Ring) (floor : Option UInt64) :
    r.batches = (r.floorEvictions floor).map (·.1) ++ (r.setFloor floor).batches :=
  evictions_split r.batches (r := {r with floor := floor}) rfl

theorem floorEvictions_unprotected (r : Ring) (floor : Option UInt64) :
    ∀ e ∈ r.floorEvictions floor, ({r with floor := floor} : Ring).Unprotected e :=
  evictions_unprotected _ _

end Ring

end Trace0
