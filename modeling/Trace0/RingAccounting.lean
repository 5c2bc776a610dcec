import Trace0.Ring

namespace Trace0

inductive RingOp where
  | push (batch : EventBatch)
  | pop
  | setFloor (floor : Option UInt64)

-- How a batch left the front of the ring.
inductive Removal where
  | popped (batch : EventBatch)
  | evicted (batch : EventBatch)

def Removal.batch : Removal → EventBatch
  | popped batch => batch
  | evicted batch => batch

def Removal.popped? : Removal → Option EventBatch
  | popped batch => some batch
  | evicted _ => none

def Removal.evicted? : Removal → Option EventBatch
  | popped _ => none
  | evicted batch => some batch

def eventsOf (batches : List EventBatch) : Nat := (batches.map (·.events.length)).sum
def bytesOf (batches : List EventBatch) : Nat := (batches.map (·.bytes)).sum

namespace RingOp

def arrives : RingOp → List EventBatch
  | push batch => [batch]
  | _ => []

def apply (r : Ring) : RingOp → Ring
  | push batch => r.push batch
  | pop => (r.pop.map (·.2)).getD r
  | setFloor floor => r.setFloor floor

def enters (r : Ring) : RingOp → Option Ring
  | push batch => some {r with batches := r.batches ++ [batch],bytes := r.bytes + batch.bytes}
  | pop => none
  | setFloor floor => some {r with floor := floor}

def removes (r : Ring) : RingOp → List Removal
  | pop => (r.pop.map fun popped => .popped popped.1).toList
  | op => ((r.batches ++ op.arrives).take
      ((r.batches ++ op.arrives).length - (op.apply r).batches.length)).map .evicted

end RingOp

structure RingRun where
  ring : Ring
  pushed : List EventBatch
  removed : List Removal

namespace RingRun

def step (s : RingRun) (op : RingOp) : RingRun :=
  ⟨op.apply s.ring,s.pushed ++ op.arrives,s.removed ++ op.removes s.ring⟩

def after (capacity : Nat) (ops : List RingOp) : RingRun := ops.foldl step ⟨.new capacity,[],[]⟩

def popped (s : RingRun) : List EventBatch := s.removed.filterMap Removal.popped?
def evicted (s : RingRun) : List EventBatch := s.removed.filterMap Removal.evicted?

end RingRun

namespace Ring

def Counted (r : Ring) : Prop := r.bytes = bytesOf r.batches

def Settled (r : Ring) : Prop :=
  r.bytes ≤ r.capacity ∨ r.batches.length = 1 ∨
    r.bytes ≤ 2 * r.capacity ∧ ∃ front floor, r.batches.head? = some front ∧ r.floor = some floor ∧ floor ≤ front.endTicks

def evictStates : List EventBatch → Ring → List Ring
  | oldest :: next :: rest,r =>
    if r.capacity < r.bytes then
      if r.floor.any (· ≤ oldest.endTicks) && r.bytes ≤ min (r.capacity * 2) usizeMax then []
      else r :: evictStates (next :: rest) (r.evict oldest (next :: rest))
    else []
  | _,_ => []

theorem Counted.front {r : Ring} (counted : r.Counted) (own : r.batches = oldest :: rest) : oldest.bytes ≤ r.bytes := by
  rw [counted,own,bytesOf,List.map_cons,List.sum_cons]
  exact Nat.le_add_right _ _

theorem Counted.evict {r : Ring} (counted : r.Counted) (own : r.batches = oldest :: rest) : (r.evict oldest rest).Counted := by
  have total : r.bytes = oldest.bytes + bytesOf rest := by
    rw [counted,own]
    rfl
  have left : (r.evict oldest rest).bytes = r.bytes - oldest.bytes := rfl
  rw [Counted,left,total,Nat.add_sub_cancel_left]
  rfl

theorem Counted.evicts {r r' : Ring} {evicted : List EventBatch} (counted : r.Counted) (evicts : Evicts r r' evicted) :
    r'.Counted := by
  have total : r.bytes = bytesOf evicted + bytesOf r'.batches := by
    rw [counted,evicts.splits,bytesOf,List.map_append,List.sum_append]
    rfl
  rw [Counted,evicts.bytes,total,bytesOf,Nat.add_sub_cancel_left]

-- By induction on the batches: each of them the loop takes out is counted in `bytes`, it stops at one of
-- its conditions, and the last batch is never the one it takes.
theorem evictLoop_settles (batches : List EventBatch) {r : Ring} (own : r.batches = batches) (counted : r.Counted) :
    (evictLoop batches r).Settled ∧ (evictLoop batches r).batches.getLast? = batches.getLast? ∧
      ∀ visited ∈ evictStates batches r, visited.Counted := by
  induction batches generalizing r with
  | nil =>
    have empty : r.bytes = 0 := by
      rw [counted,own]
      rfl
    exact ⟨.inl (empty ▸ Nat.zero_le r.capacity),congrArg _ own,fun _ mem => by cases mem⟩
  | cons oldest rest ih =>
    cases rest with
    | nil =>
      have single : r.batches.length = 1 := congrArg List.length own
      exact ⟨.inr (.inl single),congrArg _ own,fun _ mem => by cases mem⟩
    | cons next rest =>
      unfold evictLoop evictStates
      split
      · split
        · next both =>
          rw [Bool.and_eq_true,Option.any_eq_true,decide_eq_true_eq] at both
          obtain ⟨⟨floor,set,above⟩,small⟩ := both
          refine ⟨.inr (.inr ⟨?_,oldest,floor,by rw [own]; rfl,set,of_decide_eq_true above⟩),congrArg _ own,
            fun _ mem => by cases mem⟩
          have double := small.trans (Nat.min_le_left _ _)
          omega
        · obtain ⟨settled,last,visits⟩ := ih (r := r.evict oldest (next :: rest)) rfl (counted.evict own)
          refine ⟨settled,last.trans (List.getLast?_cons_cons ..).symm,?_⟩
          intro visited mem
          rcases List.mem_cons.mp mem with rfl | mem
          · exact counted
          · exact visits visited mem
      · next room => exact ⟨.inl (Nat.not_lt.mp room),congrArg _ own,fun _ mem => by cases mem⟩

theorem pop_counted {r r' : Ring} (counted : r.Counted) (popped : r.pop = some (batch,r')) :
    r'.Counted ∧ r.batches = batch :: r'.batches ∧ batch.bytes ≤ r.bytes ∧ r'.horizonTicks = r.horizonTicks ∧
      r'.evictedEvents = r.evictedEvents ∧ r'.capacity = r.capacity := by
  unfold pop at popped
  split at popped
  · cases popped
  · next oldest rest own =>
    cases popped
    exact ⟨counted.evict own,own,counted.front own,rfl,rfl,rfl⟩

end Ring

structure RingRun.Accounts (capacity : Nat) (s : RingRun) : Prop where
  counted : s.ring.Counted
  capacity : s.ring.capacity = capacity
  order : s.pushed = s.removed.map Removal.batch ++ s.ring.batches
  horizon : s.ring.horizonTicks = Ring.horizonOf s.evicted 0
  events : s.ring.evictedEvents = eventsOf s.evicted

namespace RingRun

variable {s : RingRun}

theorem evicted_snoc (s : RingRun) (ring : Ring) (pushed evicted : List EventBatch) :
    (⟨ring,pushed,s.removed ++ evicted.map .evicted⟩ : RingRun).evicted = s.evicted ++ evicted := by
  rw [RingRun.evicted,RingRun.evicted,List.filterMap_append,List.filterMap_map]
  congr 1
  exact List.filterMap_some

theorem Accounts.evicts {capacity : Nat} (accounts : s.Accounts capacity) {given after : Ring}
    {arrived evicted : List EventBatch} (holds : given.batches = s.ring.batches ++ arrived) (counted : given.Counted)
    (same : given.capacity = s.ring.capacity ∧ given.horizonTicks = s.ring.horizonTicks ∧
      given.evictedEvents = s.ring.evictedEvents) (evicts : Ring.Evicts given after evicted) :
    (⟨after,s.pushed ++ arrived,s.removed ++ evicted.map .evicted⟩ : RingRun).Accounts capacity := by
  obtain ⟨capacity,horizon,events⟩ := same
  refine ⟨counted.evicts evicts,evicts.capacity.trans (capacity.trans accounts.capacity),?_,?_,?_⟩
  · have batches : (evicted.map Removal.evicted).map Removal.batch = evicted := by
      rw [List.map_map]
      exact List.map_id _
    rw [accounts.order,List.append_assoc,← holds,evicts.splits,List.map_append,batches,List.append_assoc]
  · rw [evicted_snoc,Ring.horizonOf_append,← accounts.horizon,← horizon]
    exact evicts.horizon
  · rw [evicted_snoc,eventsOf,List.map_append,List.sum_append]
    exact evicts.events.trans (congrArg (· + _) (events.trans accounts.events))

theorem taken {given after evicted : List EventBatch} (splits : given = evicted ++ after) :
    given.take (given.length - after.length) = evicted := by
  rw [splits,List.length_append,Nat.add_sub_cancel,List.take_left]

theorem Accounts.enters {capacity : Nat} (accounts : s.Accounts capacity) {op : RingOp} {given : Ring}
    (enters : op.enters s.ring = some given) : op.apply s.ring = Ring.evictLoop given.batches given ∧ given.Counted ∧
      given.batches = s.ring.batches ++ op.arrives ∧ given.capacity = s.ring.capacity ∧
      given.horizonTicks = s.ring.horizonTicks ∧ given.evictedEvents = s.ring.evictedEvents := by
  cases op with
  | push batch =>
    cases enters
    refine ⟨rfl,?_,rfl,rfl,rfl,rfl⟩
    rw [Ring.Counted,accounts.counted,bytesOf,bytesOf,List.map_append,List.sum_append]
    rfl
  | pop => cases enters
  | setFloor floor =>
    cases enters
    exact ⟨rfl,accounts.counted,(List.append_nil _).symm,rfl,rfl,rfl⟩

theorem step_evicts {capacity : Nat} (accounts : s.Accounts capacity) {op : RingOp} {given : Ring}
    (enters : op.enters s.ring = some given) : (s.step op).Accounts capacity := by
  obtain ⟨applied,counted,holds,same⟩ := accounts.enters enters
  obtain ⟨evicted,evicts⟩ := Ring.evictLoop_evicts given.batches (r := given) rfl
  rw [← applied] at evicts
  have removes : op.removes s.ring = evicted.map .evicted := by
    have split := congrArg (List.map Removal.evicted) (taken (holds.symm.trans evicts.splits))
    cases op with
    | push batch => exact split
    | pop => cases enters
    | setFloor floor => exact split
  rw [step,removes]
  exact accounts.evicts holds counted same evicts

theorem step_accounts {capacity : Nat} (accounts : s.Accounts capacity) (op : RingOp) : (s.step op).Accounts capacity := by
  cases op with
  | push batch => exact step_evicts accounts rfl
  | setFloor floor => exact step_evicts accounts rfl
  | pop =>
    cases found : s.ring.pop with
    | none =>
      have still : s.step .pop = s := by
        simp only [step,RingOp.apply,RingOp.removes,RingOp.arrives,found,Option.map_none,Option.getD_none,
          Option.toList_none,List.append_nil]
      rw [still]
      exact accounts
    | some popped =>
      obtain ⟨batch,ring⟩ := popped
      obtain ⟨counted,own,_,horizon,events,capacity⟩ := Ring.pop_counted accounts.counted found
      have next : s.step .pop = ⟨ring,s.pushed,s.removed ++ [.popped batch]⟩ := by
        simp only [step,RingOp.apply,RingOp.removes,RingOp.arrives,found,Option.map_some,Option.getD_some,
          Option.toList_some,List.append_nil]
      have evicted : (⟨ring,s.pushed,s.removed ++ [.popped batch]⟩ : RingRun).evicted = s.evicted := by
        rw [RingRun.evicted,RingRun.evicted,List.filterMap_append]
        exact List.append_nil _
      rw [next]
      refine ⟨counted,capacity.trans accounts.capacity,?_,?_,?_⟩
      · rw [accounts.order,own,List.map_append,List.append_assoc]
        rfl
      · rw [evicted]
        exact horizon.trans accounts.horizon
      · rw [evicted]
        exact events.trans accounts.events

theorem after_accounts (capacity : Nat) (ops : List RingOp) : (after capacity ops).Accounts capacity := by
  induction ops using List.reverseRecOn with
  | nil => exact ⟨rfl,rfl,rfl,rfl,rfl⟩
  | append_singleton ops op ih =>
    rw [after,List.foldl_append]
    exact step_accounts ih op

theorem after_pushed (capacity : Nat) (ops : List RingOp) : (after capacity ops).pushed = ops.flatMap RingOp.arrives := by
  induction ops using List.reverseRecOn with
  | nil => rfl
  | append_singleton ops op ih =>
    rw [after,List.foldl_append,List.flatMap_append,← ih]
    exact congrArg _ (List.append_nil _).symm

theorem events_split (s : RingRun) : eventsOf (s.removed.map Removal.batch) = eventsOf s.popped + eventsOf s.evicted := by
  obtain ⟨_,_,removed⟩ := s
  induction removed with
  | nil => rfl
  | cons removal removed ih =>
    cases removal with
    | popped batch => exact (congrArg (batch.events.length + ·) ih).trans (Nat.add_assoc _ _ _).symm
    | evicted batch => exact (congrArg (batch.events.length + ·) ih).trans (Nat.add_left_comm _ _ _)

end RingRun

theorem ring_accounts (capacity : Nat) (ops : List RingOp) :
    let s := RingRun.after capacity ops
    s.ring.bytes = bytesOf s.ring.batches ∧
      (∀ oldest, s.ring.batches.head? = some oldest → oldest.bytes ≤ s.ring.bytes) ∧
      s.pushed = ops.flatMap RingOp.arrives ∧
      s.pushed = s.removed.map Removal.batch ++ s.ring.batches ∧
      eventsOf s.pushed = eventsOf s.ring.batches + eventsOf s.popped + s.ring.evictedEvents ∧
      s.ring.horizonTicks = (s.evicted.getLast?.map (·.endTicks)).getD 0 ∧
      ∀ op given, RingOp.enters s.ring op = some given →
        (op.apply s.ring).Settled ∧ (op.apply s.ring).capacity = capacity ∧
          (op.apply s.ring).batches.getLast? = (s.ring.batches ++ op.arrives).getLast? ∧
          ∀ visited ∈ Ring.evictStates given.batches given, ∀ oldest,
            visited.batches.head? = some oldest → oldest.bytes ≤ visited.bytes := by
  intro s
  have accounts : s.Accounts capacity := RingRun.after_accounts capacity ops
  have front {r : Ring} (counted : r.Counted) (oldest : EventBatch) (first : r.batches.head? = some oldest) :
      oldest.bytes ≤ r.bytes := by
    obtain ⟨rest,own⟩ := List.head?_eq_some_iff.mp first
    exact counted.front own
  refine ⟨accounts.counted,fun oldest first => front accounts.counted oldest first,?_,accounts.order,?_,accounts.horizon,?_⟩
  · exact RingRun.after_pushed capacity ops
  · rw [accounts.order,eventsOf,List.map_append,List.sum_append,← eventsOf,← eventsOf,RingRun.events_split,accounts.events]
    omega
  · intro op given enters
    obtain ⟨applied,counted,holds,_⟩ := accounts.enters enters
    obtain ⟨settled,last,visits⟩ := Ring.evictLoop_settles given.batches rfl counted
    rw [← applied] at settled last
    refine ⟨settled,(RingRun.step_accounts accounts op).capacity,last.trans (congrArg _ holds),?_⟩
    intro visited mem
    exact front (visits visited mem)

end Trace0
