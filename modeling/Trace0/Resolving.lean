import Trace0.Intern
import Trace0.World
import Mathlib.Tactic

namespace Trace0

def emptyKey : UInt64 := 0
def golden : UInt64 := 0x9E3779B97F4A7C15

structure Slot where
  key : UInt64
  id : UInt32
  deriving DecidableEq, Repr

-- `slots` has 256 of them, indexed by the top eight bits of the scrambled key.
structure CodeCache where
  slots : UInt64 → Slot

namespace CodeCache

def empty : CodeCache := ⟨fun _ => ⟨emptyKey,0⟩⟩

def slotOf (key : UInt64) : UInt64 := (key * golden) >>> 56

def get (c : CodeCache) (key : UInt64) : Option UInt32 :=
  if key = emptyKey then none
  else
    let slot := c.slots (slotOf key)
    if slot.key = key then some slot.id else none

def put (c : CodeCache) (key : UInt64) (id : UInt32) : CodeCache :=
  if key = emptyKey then c else ⟨Function.update c.slots (slotOf key) ⟨key,id⟩⟩

theorem slotOf_lt (key : UInt64) : (slotOf key).toNat < 256 := by
  have wide := (key * golden).toNat_lt
  have shift : (56 : UInt64).toNat % 64 = 56 := rfl
  rw [slotOf,UInt64.toNat_shiftRight,Nat.shiftRight_eq_div_pow,shift]
  omega

@[simp] theorem get_empty (key : UInt64) : empty.get key = none := by
  unfold get empty
  split
  · rfl
  · rename_i nonnull
    exact if_neg (Ne.symm nonnull)

theorem get_put {c : CodeCache} {key key' : UInt64} {id id' : UInt32} (hit : (c.put key id).get key' = some id') :
    (key' = key ∧ id' = id) ∨ c.get key' = some id' := by
  unfold put at hit
  split at hit
  · exact .inr hit
  · unfold get at hit ⊢
    split at hit
    · cases hit
    · rename_i nonnull
      rw [if_neg nonnull]
      dsimp only at hit ⊢
      by_cases same : slotOf key' = slotOf key
      · rw [same,Function.update_self] at hit
        split at hit
        · rename_i own
          exact .inl ⟨own.symm,(Option.some.inj hit).symm⟩
        · cases hit
      · rw [Function.update_of_ne same] at hit
        exact .inr hit

theorem get_put_self {c : CodeCache} {key : UInt64} (id : UInt32) (nonnull : key ≠ emptyKey) :
    (c.put key id).get key = some id := by
  simp [put,get,nonnull]

end CodeCache

def nameRetriesMax : Nat := 64

-- A thread's `Hot` with its `CodeCache`.
structure Caches extends Hot where
  codes : CodeCache

def Caches.fresh : Caches := ⟨.empty,.empty⟩

structure RecordCall where
  run : Nat
  key : UInt64
  kind : EventKind
  deriving DecidableEq

-- Where a thread stands in `record`: before its fast check, in `resolve_cold` up to each look
-- at what is shared, and before the push.
inductive Resolve where
  | outside
  | entered (call : RecordCall)
  | cold (call : RecordCall)
  | loaded (call : RecordCall)
  | missed (call : RecordCall)
  | unknown (call : RecordCall)
  | resolved (call : RecordCall) (id : UInt32)
  deriving DecidableEq

def Resolve.call : Resolve → Option RecordCall
  | .outside => none
  | .entered call | .cold call | .loaded call | .missed call | .unknown call | .resolved call _ => some call

-- An address has no code object, has one, or has one that is being destroyed: the states
-- whose interners are still to forget it, and whether one did.
inductive Address where
  | vacant
  | alive (info : CodeInfo)
  | dying (todo : List Nat) (forgotten : Bool)
  deriving DecidableEq

-- `watched` are the runs whose `State` is alive. A pushed event is kept with its call and the
-- id its run's interner has for the address at that moment, which no step reads.
structure Resolving (T : Type) where
  watched : List Nat
  next : Nat
  interners : Nat → Interner
  generation : Nat
  addresses : UInt64 → Address
  caches : T → Caches
  stages : T → Resolve
  pushed : List (RecordCall × UInt32 × Option UInt32)

inductive ResolveAct (T : Type) where
  | begin_ (capacity : Option UInt32)
  | drop (run : Nat)
  | create (key : UInt64) (info : CodeInfo)
  | destroy (key : UInt64)
  | forget (key : UInt64) (freedAt : UInt64)
  | destroyed (key : UInt64)
  | call (t : T) (call : RecordCall)
  | check (t : T)
  | load (t : T) (osTid : UInt32)
  | ensure (t : T) (named : Bool)
  | lookup (t : T)
  | insert (t : T) (recycleFloor : UInt64)
  | push (t : T)

namespace Caches

def clear (h : Caches) : Caches := {h with codes := .empty}

def adopt (h : Caches) (run generation : Nat) (osTid : UInt32) : Caches :=
  let h := if h.queueId ≠ run then
      {h.clear with lastCodeKey := notCached,ensured := false,nameRetries := nameRetriesMax}
    else h
  let h := if h.codeGen ≠ generation then {h.clear with codeGen := generation} else h
  if h.tid = 0xFFFFFFFF then {h with tid := osTid} else h

def ensure (h : Caches) (named : Bool) : Caches :=
  if !h.ensured && decide (0 < h.nameRetries) then
    {h with nameRetries := h.nameRetries - 1,ensured := named}
  else h

def hit (h : Caches) (call : RecordCall) (generation : Nat) : Bool :=
  h.lastCodeKey = call.key && h.queueId = call.run && h.codeGen = generation

def remember (h : Caches) (key : UInt64) (id : UInt32) : Caches :=
  {h with
    lastCodeId := id
    lastCodeKey := if h.ensured || h.nameRetries = 0 then key else notCached}

end Caches

variable {T : Type} [DecidableEq T]

namespace Resolving

def initial : Resolving T :=
  ⟨[],1,fun _ => .new none,0,fun _ => .vacant,fun _ => .fresh,fun _ => .outside,[]⟩

def enter (s : Resolving T) (t : T) (h : Caches) (stage : Resolve) : Resolving T :=
  {s with caches := Function.update s.caches t h,stages := Function.update s.stages t stage}

def setAddress (s : Resolving T) (key : UInt64) (a : Address) : Resolving T :=
  {s with addresses := Function.update s.addresses key a}

def withInterner (s : Resolving T) (run : Nat) (i : Interner) : Resolving T :=
  {s with interners := Function.update s.interners run i}

def found (s : Resolving T) (t : T) (call : RecordCall) (id : UInt32) : Resolving T :=
  let h := s.caches t
  s.enter t ({h with codes := h.codes.put call.key id}.remember call.key id) (.resolved call id)

def insertStep (s : Resolving T) (t : T) (recycleFloor : UInt64) : Option (Resolving T) :=
  match s.stages t with
  | .unknown call =>
    match s.addresses call.key with
    | .alive info =>
      let inserted := (s.interners call.run).insert info call.key recycleFloor
      let s := s.withInterner call.run inserted.2
      match inserted.1 with
      | some id => some (s.found t call id)
      | none => some (s.enter t (s.caches t) .outside)
    | _ => none
  | _ => none

def pushStep (s : Resolving T) (t : T) : Option (Resolving T) :=
  match s.stages t with
  | .resolved call id => some {s.enter t {s.caches t with queueId := call.run} .outside with
      pushed := s.pushed ++ [(call,id,(s.interners call.run).lookup call.key)]}
  | _ => none

-- The last address is no object's: objects are aligned.
def step (s : Resolving T) : ResolveAct T → Option (Resolving T)
  | .begin_ capacity => some {s.withInterner s.next (.new capacity) with
      watched := s.watched ++ [s.next]
      next := s.next + 1}
  | .drop run => some {s with watched := s.watched.filter (· ≠ run)}
  | .create key info =>
    if key = notCached then none
    else
      match s.addresses key with
      | .vacant => some (s.setAddress key (.alive info))
      | _ => none
  | .destroy key =>
    match s.addresses key with
    | .alive _ => some (s.setAddress key (.dying s.watched false))
    | _ => none
  | .forget key freedAt =>
    match s.addresses key with
    | .dying (run :: todo) forgotten =>
      let forgot := (s.interners run).forget key freedAt
      some ((s.withInterner run forgot.2).setAddress key (.dying todo (forgotten || forgot.1)))
    | _ => none
  | .destroyed key =>
    match s.addresses key with
    | .dying [] forgotten => some {s.setAddress key .vacant with
        generation := if forgotten then s.generation + 1 else s.generation}
    | _ => none
  | .call t call =>
    match s.stages t,s.addresses call.key with
    | .outside,.alive _ => if call.run ∈ s.watched then some (s.enter t (s.caches t) (.entered call)) else none
    | _,_ => none
  | .check t =>
    match s.stages t with
    | .entered call =>
      if (s.caches t).hit call s.generation then
        some (s.enter t (s.caches t) (.resolved call (s.caches t).lastCodeId))
      else some (s.enter t (s.caches t) (.cold call))
    | _ => none
  | .load t osTid =>
    match s.stages t with
    | .cold call => some (s.enter t ((s.caches t).adopt call.run s.generation osTid) (.loaded call))
    | _ => none
  | .ensure t named =>
    match s.stages t with
    | .loaded call =>
      let h := (s.caches t).ensure named
      match h.codes.get call.key with
      | some id => some (s.enter t (h.remember call.key id) (.resolved call id))
      | none => some (s.enter t h (.missed call))
    | _ => none
  | .lookup t =>
    match s.stages t with
    | .missed call =>
      match (s.interners call.run).lookup call.key with
      | some id => some (s.found t call id)
      | none => some (s.enter t (s.caches t) (.unknown call))
    | _ => none
  | .insert t recycleFloor => s.insertStep t recycleFloor
  | .push t => s.pushStep t

end Resolving

-- No code object is destroyed during a callback for it.
def Outlasts (s : Resolving T) : ResolveAct T → Prop
  | .destroy key => ∀ t call, (s.stages t).call = some call → call.key ≠ key
  | _ => True

end Trace0
