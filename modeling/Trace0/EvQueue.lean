import Trace0.Clock
import Trace0.Event
import Trace0.Lib.Keyed

namespace Trace0
export Keyed (ownedBy ownedBy_nil ownedBy_append ownedBy_single ownedBy_map ownedBy_absent ownedBy_once
  ownedBy_sublist ownedBy_snoc ownedBy_parallel mem_ownedBy)

def batchN : Nat := 1024
def batchesCapacity : Nat := 64
def deltaOverflow : UInt64 := 0xFFFFFFFF
def usizeMax : Nat := 2 ^ 64 - 1

structure EventBatch where
  baseTicks : UInt64
  tid : UInt32
  events : List PackedEvent
  capacity : Nat
  deriving DecidableEq, Repr

namespace EventBatch

def withCapacity (cap : Nat) (baseTicks : UInt64) (tid : UInt32) : EventBatch :=
  ⟨baseTicks,tid,[],cap⟩

-- The struct itself is 40 bytes (u64, u32 and a Vec, aligned to 8), a packed event 8.
def bytes (b : EventBatch) : Nat := 40 + b.capacity * 8

def entries (b : EventBatch) : List (UInt64 × UInt32) :=
  b.events.map fun p => (b.baseTicks + p.deltaTicks.toUInt64,p.codeKind)

def decodeInto (b : EventBatch) (clock : Clock) : List Event :=
  b.events.map fun p => ⟨clock.nsSinceStart (b.baseTicks + p.deltaTicks.toUInt64),b.tid,p.codeKind⟩

def endTicks (b : EventBatch) : UInt64 :=
  b.baseTicks + ((b.events.getLast?.map (·.deltaTicks.toUInt64)).getD 0)

@[simp] theorem entries_length (b : EventBatch) : b.entries.length = b.events.length := by
  simp [entries]

theorem decodeInto_entries (b : EventBatch) (clock : Clock) :
    b.decodeInto clock = b.entries.map fun e => ⟨clock.nsSinceStart e.1,b.tid,e.2⟩ := by
  simp [decodeInto,entries]

theorem endTicks_last (b : EventBatch) (e : UInt64 × UInt32)
    (last : b.entries.getLast? = some e) : b.endTicks = e.1 := by
  simp only [entries,List.getLast?_map,Option.map_eq_some_iff] at last
  obtain ⟨p,present,rfl⟩ := last
  simp [endTicks,present]

end EventBatch

structure Consumer (T : Type) where
  owner : T
  batches : List EventBatch

structure EventQueue (T : Type) where
  id : Nat
  clock : Clock
  recycleFloor : UInt64
  consumers : List (Consumer T)
  nextConsumer : Nat
  dropped : Nat
  closed : Bool

-- A queue's id is drawn from a counter that starts at 1, so 0 names no queue.
def EventQueue.new (id : Nat) (clock : Clock) : EventQueue T :=
  ⟨id,clock,0,[],0,0,false⟩

def EventQueue.recordDropped (q : EventQueue T) (events : Nat) : EventQueue T :=
  {q with dropped := q.dropped + events}

def EventQueue.close (q : EventQueue T) : EventQueue T := {q with closed := true}

-- Pops one ring until it is empty or the limit is met: what was popped, what is left, the
-- new count, and whether the limit made the whole call return.
def popLoop (limit : Nat) : List EventBatch → Nat →
    List EventBatch × List EventBatch × Nat × Bool
  | [],got => ([],[],got,false)
  | batch :: rest,got =>
    if limit ≤ got+1 then ([batch],rest,got+1,true)
    else
      let later := popLoop limit rest (got+1)
      (batch :: later.1,later.2)

-- The consumers in the order they are visited, from the rotating start. The code appends
-- the batch alone to `out`; the owner is kept beside it to say whose ring it left.
def drainFrom (limit : Nat) : List (Consumer T) → Nat → List (T × EventBatch) × List (Consumer T)
  | [],_ => ([],[])
  | c :: rest,got =>
    let visit := popLoop limit c.batches got
    let popped := visit.1.map (c.owner,·)
    let c := {c with batches := visit.2.1}
    if visit.2.2.2 then (popped,c :: rest)
    else
      let later := drainFrom limit rest visit.2.2.1
      (popped ++ later.1,c :: later.2)

def EventQueue.drainBatches (q : EventQueue T) (limit : Nat) :
    List (T × EventBatch) × EventQueue T :=
  let n := q.consumers.length
  if n = 0 then ([],q)
  else
    let start := q.nextConsumer % n
    let visited := drainFrom limit (q.consumers.drop start ++ q.consumers.take start) 0
    (visited.1,{q with
      consumers := visited.2.drop (n - start) ++ visited.2.take (n - start)
      nextConsumer := q.nextConsumer+1})

section Draining

variable {T : Type}

def EventQueue.owners (q : EventQueue T) : List T := q.consumers.map (·.owner)

theorem popLoop_splits (limit : Nat) (batches : List EventBatch) (got : Nat) :
    (popLoop limit batches got).1 ++ (popLoop limit batches got).2.1 = batches := by
  induction batches generalizing got with
  | nil => rfl
  | cons batch rest ih =>
    unfold popLoop
    split
    · rfl
    · simp [ih]

theorem popLoop_exhausts {limit : Nat} {batches : List EventBatch} {got : Nat}
    (unmet : (popLoop limit batches got).2.2.2 = false) : (popLoop limit batches got).2.1 = [] := by
  induction batches generalizing got with
  | nil => rfl
  | cons batch rest ih =>
    unfold popLoop at unmet ⊢
    split
    · rename_i met
      simp [met] at unmet
    · rename_i below
      rw [if_neg below] at unmet
      exact ih unmet

theorem popLoop_none {limit : Nat} {batches : List EventBatch} {got : Nat}
    (none : (popLoop limit batches got).1 = []) : batches = [] := by
  cases batches with
  | nil => rfl
  | cons batch rest =>
    unfold popLoop at none
    split at none <;> cases none

theorem popLoop_count {limit : Nat} (batches : List EventBatch) {got : Nat} (below : got < limit) :
    (popLoop limit batches got).2.2.1 = got + (popLoop limit batches got).1.length ∧
      (popLoop limit batches got).2.2.1 ≤ limit ∧
      ((popLoop limit batches got).2.2.2 = false → (popLoop limit batches got).2.2.1 < limit) := by
  induction batches generalizing got with
  | nil => exact ⟨rfl,Nat.le_of_lt below,fun _ => below⟩
  | cons batch rest ih =>
    unfold popLoop
    split
    · refine ⟨rfl,below,by simp⟩
    · rename_i unmet
      obtain ⟨count,most,open_⟩ := ih (Nat.lt_of_not_le unmet)
      refine ⟨?_,most,open_⟩
      simp only [count,List.length_cons]
      omega

theorem drainFrom_owners (limit : Nat) (consumers : List (Consumer T)) (got : Nat) :
    (drainFrom limit consumers got).2.map (·.owner) = consumers.map (·.owner) := by
  induction consumers generalizing got with
  | nil => rfl
  | cons c rest ih =>
    simp only [drainFrom]
    split
    · rfl
    · simp [ih]

theorem drainFrom_none {limit : Nat} {consumers : List (Consumer T)} {got : Nat}
    (none : (drainFrom limit consumers got).1 = []) : ∀ c ∈ consumers, c.batches = [] := by
  induction consumers generalizing got with
  | nil => simp
  | cons c rest ih =>
    simp only [drainFrom] at none
    split at none
    · rename_i met
      have first : c.batches = [] := popLoop_none (by simpa using none)
      rw [first] at met
      simp [popLoop] at met
    · simp only [List.append_eq_nil_iff,List.map_eq_nil_iff] at none
      intro d present
      rcases List.mem_cons.mp present with rfl | later
      · exact popLoop_none none.1
      · exact ih none.2 d later

theorem drainFrom_length {limit : Nat} (consumers : List (Consumer T)) {got : Nat}
    (below : got < limit) : got + (drainFrom limit consumers got).1.length ≤ limit := by
  induction consumers generalizing got with
  | nil => exact Nat.le_of_lt below
  | cons c rest ih =>
    obtain ⟨count,most,open_⟩ := popLoop_count c.batches below
    simp only [drainFrom]
    split
    · simpa [← count] using most
    · rename_i unmet
      have later := ih (open_ (by simpa using unmet))
      simp only [List.length_append,List.length_map]
      omega

theorem drain_length (q : EventQueue T) {limit : Nat} (positive : 0 < limit) :
    (q.drainBatches limit).1.length ≤ limit := by
  unfold EventQueue.drainBatches
  dsimp only
  split
  · simp
  · simpa using drainFrom_length (q.consumers.drop (q.nextConsumer % q.consumers.length) ++
      q.consumers.take (q.nextConsumer % q.consumers.length)) positive

private theorem rotated (q : EventQueue T) (n : Nat) : (q.consumers.drop n ++ q.consumers.take n).map (·.owner) =
    q.owners.drop n ++ q.owners.take n := by simp [EventQueue.owners]

theorem drain_owners (q : EventQueue T) (limit : Nat) :
    (q.drainBatches limit).2.owners = q.owners := by
  unfold EventQueue.drainBatches
  dsimp only
  split
  · rfl
  · simp only [EventQueue.owners,List.map_append,List.map_drop,List.map_take,drainFrom_owners]
    rw [List.drop_left' (by simp),List.take_left' (by simp),List.take_append_drop]

@[simp] theorem drain_frame (q : EventQueue T) (limit : Nat) :
    (q.drainBatches limit).2.id = q.id ∧ (q.drainBatches limit).2.dropped = q.dropped ∧
    (q.drainBatches limit).2.closed = q.closed ∧ (q.drainBatches limit).2.clock = q.clock ∧
    (q.drainBatches limit).2.recycleFloor = q.recycleFloor := by
  unfold EventQueue.drainBatches
  dsimp only
  split <;> simp

end Draining

section Rings

variable {T : Type} [DecidableEq T] {q : EventQueue T}

def heldIn (t : T) (consumers : List (Consumer T)) : List EventBatch :=
  (consumers.filter (·.owner = t)).flatMap (·.batches)

def EventQueue.held (q : EventQueue T) (t : T) : List EventBatch := heldIn t q.consumers

-- The producer end: `none` is `PushError::Full`, which hands the batch back.
def EventQueue.push (q : EventQueue T) (t : T) (batch : EventBatch) : Option (EventQueue T) :=
  if (q.held t).length < batchesCapacity then
    some {q with consumers := q.consumers.map fun c =>
      if c.owner = t then {c with batches := c.batches ++ [batch]} else c}
  else none

@[simp] theorem heldIn_nil (t : T) : heldIn t [] = [] := rfl

theorem heldIn_cons (t : T) (c : Consumer T) (rest : List (Consumer T)) :
    heldIn t (c :: rest) = (if c.owner = t then c.batches else []) ++ heldIn t rest := by
  by_cases same : c.owner = t <;> simp [heldIn,same]

theorem heldIn_append (t : T) (left right : List (Consumer T)) :
    heldIn t (left ++ right) = heldIn t left ++ heldIn t right := by simp [heldIn]

theorem heldIn_absent {t : T} {consumers : List (Consumer T)}
    (absent : t ∉ consumers.map (·.owner)) : heldIn t consumers = [] := by
  have none : consumers.filter (·.owner = t) = [] := by
    rw [List.filter_eq_nil_iff]
    intro c present same
    exact absent (List.mem_map.mpr ⟨c,present,by simpa using same⟩)
  simp [heldIn,none]

theorem heldIn_swap {t : T} {left right : List (Consumer T)}
    (distinct : ((left ++ right).map (·.owner)).Nodup) :
    heldIn t (left ++ right) = heldIn t (right ++ left) := by
  rw [heldIn_append,heldIn_append]
  rw [List.map_append,List.nodup_append] at distinct
  by_cases inLeft : t ∈ left.map (·.owner)
  · have outside : t ∉ right.map (·.owner) := fun inRight => distinct.2.2 t inLeft t inRight rfl
    simp [heldIn_absent outside]
  · simp [heldIn_absent inLeft]

theorem drainFrom_splits (t : T) (limit : Nat) (consumers : List (Consumer T)) (got : Nat) :
    heldIn t consumers =
      ownedBy t (drainFrom limit consumers got).1 ++ heldIn t (drainFrom limit consumers got).2 := by
  induction consumers generalizing got with
  | nil => rfl
  | cons c rest ih =>
    have visit := popLoop_splits limit c.batches got
    simp only [drainFrom]
    split
    · rw [heldIn_cons,heldIn_cons,ownedBy_map]
      by_cases same : c.owner = t
      · simp only [same,if_true,← List.append_assoc,visit]
      · simp [same]
    · rename_i unmet
      have emptied := popLoop_exhausts (by simpa using unmet)
      rw [emptied,List.append_nil] at visit
      rw [ownedBy_append,ownedBy_map,heldIn_cons,heldIn_cons,visit,emptied,
        ih (popLoop limit c.batches got).2.2.1]
      simp

theorem drain_splits (distinct : q.owners.Nodup) (limit : Nat) (t : T) :
    q.held t = ownedBy t (q.drainBatches limit).1 ++ (q.drainBatches limit).2.held t := by
  unfold EventQueue.drainBatches
  dsimp only
  split
  · simp
  · set start := q.nextConsumer % q.consumers.length with startEq
    have turned := rotated q start
    have front : q.held t = heldIn t (q.consumers.drop start ++ q.consumers.take start) := by
      rw [← heldIn_swap (by simpa [List.take_append_drop,EventQueue.owners] using distinct)]
      simp [EventQueue.held,List.take_append_drop]
    have back : ((drainFrom limit (q.consumers.drop start ++ q.consumers.take start) 0).2.map
        (·.owner)).Nodup := by
      rw [drainFrom_owners,turned]
      exact (List.perm_append_comm.trans (by rw [List.take_append_drop])).nodup_iff.mpr distinct
    rw [front,drainFrom_splits t limit _ 0]
    congr 1
    simp only [EventQueue.held]
    rw [← heldIn_swap (by simpa [List.take_append_drop] using back),List.take_append_drop]

theorem drain_none {limit : Nat} (none : (q.drainBatches limit).1 = []) (t : T) : q.held t = [] := by
  have empty : ∀ c ∈ q.consumers, c.batches = [] := by
    unfold EventQueue.drainBatches at none
    dsimp only at none
    split at none
    · rename_i vacant
      simp [List.eq_nil_of_length_eq_zero vacant]
    · have visited := drainFrom_none none
      intro c present
      refine visited c ?_
      rw [← List.take_append_drop (q.nextConsumer % q.consumers.length) q.consumers] at present
      exact List.mem_append.mpr (List.mem_append.mp present).symm
  unfold EventQueue.held heldIn
  rw [List.flatMap_eq_nil_iff]
  exact fun c present => empty c (List.mem_filter.mp present).1

theorem push_some {t : T} {batch : EventBatch} {after : EventQueue T}
    (accepted : q.push t batch = some after) :
    (q.held t).length < batchesCapacity ∧ after = {q with consumers := after.consumers} ∧
      after.owners = q.owners := by
  unfold EventQueue.push at accepted
  split at accepted
  · rename_i room
    cases Option.some.inj accepted
    refine ⟨room,rfl,?_⟩
    simp only [EventQueue.owners,List.map_map]
    refine List.map_congr_left fun c _ => ?_
    by_cases same : c.owner = t <;> simp [same]
  · cases accepted

theorem push_none {t : T} {batch : EventBatch} (full : q.push t batch = none) :
    batchesCapacity ≤ (q.held t).length := by
  unfold EventQueue.push at full
  split at full
  · cases full
  · omega

private theorem heldIn_map (t u : T) (batch : EventBatch) (consumers : List (Consumer T)) :
    (consumers.map (·.owner)).Nodup → u ∈ consumers.map (·.owner) →
    heldIn t (consumers.map fun c => if c.owner = u then {c with batches := c.batches ++ [batch]} else c) =
      heldIn t consumers ++ if u = t then [batch] else [] := by
  induction consumers with
  | nil => simp
  | cons c rest ih =>
    intro distinct member
    simp only [List.map_cons,List.nodup_cons] at distinct
    rw [List.map_cons,heldIn_cons,heldIn_cons]
    by_cases here : c.owner = u
    · have same : rest.map (fun d => if d.owner = u then {d with batches := d.batches ++ [batch]} else d) =
          rest := by
        refine (List.map_congr_left fun d present => ?_).trans (List.map_id' rest)
        have other : d.owner ≠ u := fun clash =>
          distinct.1 (List.mem_map.mpr ⟨d,present,clash.trans here.symm⟩)
        simp [other]
      rw [same]
      by_cases mine : u = t
      · have gone : heldIn t rest = [] := heldIn_absent (by rw [← mine,← here]; exact distinct.1)
        simp [here,mine,gone]
      · simp [here,mine]
    · have later : u ∈ rest.map (·.owner) := by
        rcases List.mem_cons.mp member with equal | inner
        · exact absurd equal.symm here
        · exact inner
      rw [if_neg here,ih distinct.2 later,List.append_assoc]

theorem push_held {t : T} {batch : EventBatch} {after : EventQueue T} (distinct : q.owners.Nodup)
    (member : t ∈ q.owners) (accepted : q.push t batch = some after) (u : T) :
    after.held u = q.held u ++ if t = u then [batch] else [] := by
  unfold EventQueue.push at accepted
  split at accepted
  · cases Option.some.inj accepted
    exact heldIn_map u t batch q.consumers distinct member
  · cases accepted

end Rings

end Trace0
