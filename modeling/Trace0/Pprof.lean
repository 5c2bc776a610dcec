import Trace0.Event
import Trace0.Exporter
import Trace0.Intern
import Trace0.Lib.Keyed
import Trace0.Lib.Ledger
import Trace0.Lib.Timed
import Mathlib.Data.List.Lex
import Mathlib.Data.List.Sort

namespace Trace0
namespace Pprof

-- The order of `u32`, from which that of the stacks in a `BTreeMap` follows.
scoped instance u32Order : LinearOrder UInt32 where
  le_refl := UInt32.le_refl
  le_trans := fun _ _ _ => UInt32.le_trans
  le_antisymm := fun _ _ => UInt32.le_antisymm
  le_total := UInt32.le_total
  lt_iff_le_not_ge := fun a b => by
    rw [UInt32.lt_iff_toNat_lt,UInt32.le_iff_toNat_le,UInt32.le_iff_toNat_le]
    omega
  toDecidableLE := inferInstance
  toDecidableEq := inferInstance

namespace pb

-- An index into the string table is a natural number here.
structure ValueType where
  type : Nat
  unit : Nat
  deriving DecidableEq

structure Sample where
  locationId : List UInt64
  value : List Int64
  deriving DecidableEq

structure Line where
  functionId : UInt64
  line : Int64
  column : Int64
  deriving DecidableEq

structure Location where
  id : UInt64
  line : List Line
  deriving DecidableEq

structure Function where
  id : UInt64
  name : Nat
  systemName : Nat
  filename : Nat
  startLine : Int64
  deriving DecidableEq

structure Profile where
  sampleType : List ValueType
  sample : List Sample
  location : List Location
  function : List Function
  stringTable : List String
  comment : List Nat
  deriving DecidableEq

end pb

structure Fold where
  stack : List UInt32
  lastTs : UInt64
  deriving DecidableEq

-- A `Vec` grows at its end, so a stack is a path from its outermost frame. Nothing walks over `folds`.
structure PprofExporter where
  out : List OutCall
  folds : UInt32 → Option Fold
  selfNs : List (List UInt32 × Int64)

abbrev CodeLookup := UInt32 → Option CodeInfo

structure Strings where
  table : List String
  index : List (String × Nat)
  deriving DecidableEq

namespace Strings

def id (strings : Strings) (text : String) : Strings × Nat :=
  match strings.index.lookup text with
  | some i => (strings,i)
  | none =>
    let i := strings.table.length
    (⟨strings.table ++ [text],strings.index ++ [(text,i)]⟩,i)

def withEmptyHead : Strings := (id ⟨[],[]⟩ "").1

end Strings

def locationId (codeId : UInt32) : UInt64 := codeId.toUInt64 + 1

def saturatingSub (a b : UInt64) : UInt64 := if b ≤ a then a - b else 0

namespace PprofExporter

def new : PprofExporter := ⟨[],fun _ => none,[]⟩

-- What an event charges to the stack that stood before it.
def charge (fold : Fold) (ev : Event) : Option (List UInt32 × UInt64) :=
  let elapsed := saturatingSub ev.tsNs fold.lastTs
  if 0 < elapsed ∧ fold.stack ≠ [] then some (fold.stack,elapsed) else none

def advance (fold : Fold) (ev : Event) : Fold :=
  ⟨if ev.kind.opensSlice then fold.stack ++ [ev.codeId] else fold.stack.dropLast,ev.tsNs⟩

def writeEvent (ex : PprofExporter) (ev : Event) : PprofExporter :=
  let fold := (ex.folds ev.tid).getD ⟨[],ev.tsNs⟩
  {ex with
    folds := Function.update ex.folds ev.tid (some (advance fold ev))
    selfNs := match charge fold ev with
      | some (stack,elapsed) => Ledger.credit stack elapsed.toInt64 ex.selfNs
      | none => ex.selfNs}

def writeBatch (ex : PprofExporter) (events : List Event) : PprofExporter := events.foldl writeEvent ex

def insertCode (used : List UInt32) (codeId : UInt32) : List UInt32 :=
  if codeId ∈ used then used else used.orderedInsert (· ≤ ·) codeId

def usedCodes (selfNs : List (List UInt32 × Int64)) : List UInt32 :=
  selfNs.foldl (fun used entry => entry.1.foldl insertCode used) []

def addCode (codes : CodeLookup) (acc : Strings × pb.Profile) (codeId : UInt32) : Strings × pb.Profile :=
  let (strings,profile) := acc
  let info := (codes codeId).getD ⟨"","",0⟩
  let (strings,name) := strings.id (if info.qualname = "" then "<unknown>" else info.qualname)
  let (strings,filename) := strings.id info.filename
  let id := locationId codeId
  let line := info.firstlineno.toUInt64.toInt64
  (strings,{profile with
    function := profile.function ++ [⟨id,name,name,filename,line⟩]
    location := profile.location ++ [⟨id,[⟨id,line,0⟩]⟩]})

def sampleOf (entry : List UInt32 × Int64) : pb.Sample := ⟨entry.1.reverse.map locationId,[entry.2]⟩

def declared : Strings × pb.Profile :=
  let (strings,type) := Strings.withEmptyHead.id "wall"
  let (strings,unit) := strings.id "nanoseconds"
  (strings,⟨[⟨type,unit⟩],[],[],[],[],[]⟩)

def comments (strings : Strings) (dropped : UInt64) : Strings × List Nat :=
  if 0 < dropped then
    let (strings,i) := strings.id ("trace0: " ++ toString dropped ++ " events dropped")
    (strings,[i])
  else (strings,[])

def profile (selfNs : List (List UInt32 × Int64)) (codes : CodeLookup) (dropped : UInt64) : pb.Profile :=
  let (strings,profile) := (usedCodes selfNs).foldl (addCode codes) declared
  let (strings,comment) := comments strings dropped
  {profile with sample := selfNs.map sampleOf,comment,stringTable := strings.table}

-- `encode` is what `prost` makes of a profile.
def finish (encode : pb.Profile → List UInt8) (ex : PprofExporter) (codes : CodeLookup) (dropped : UInt64) :
    PprofExporter :=
  {ex with
    out := ex.out ++ [.write (encode (profile ex.selfNs codes dropped)),.flush]
    selfNs := []}

end PprofExporter

open PprofExporter Keyed

def chargesFrom : (UInt32 → Option Fold) → List Event → List (UInt32 × List UInt32 × UInt64)
  | _,[] => []
  | folds,ev :: rest =>
    let fold := (folds ev.tid).getD ⟨[],ev.tsNs⟩
    (charge fold ev).toList.map (ev.tid,·) ++
      chargesFrom (Function.update folds ev.tid (some (advance fold ev))) rest

def threadCharges : Option Fold → List Event → List (List UInt32 × UInt64)
  | _,[] => []
  | fold,ev :: rest =>
    let fold := fold.getD ⟨[],ev.tsNs⟩
    (charge fold ev).toList ++ threadCharges (some (advance fold ev)) rest

def amounts (charges : List (UInt32 × List UInt32 × UInt64)) : List (List UInt32 × Int64) :=
  charges.map fun c => (c.2.1,c.2.2.toInt64)

theorem writeEvent_charged (ex : PprofExporter) (ev : Event) : (ex.writeEvent ev).selfNs = Ledger.credits ex.selfNs
    (amounts ((charge ((ex.folds ev.tid).getD ⟨[],ev.tsNs⟩) ev).toList.map (ev.tid,·))) := by
  cases found : charge ((ex.folds ev.tid).getD ⟨[],ev.tsNs⟩) ev with
  | none =>
    simp only [writeEvent,found]
    rfl
  | some charged =>
    simp only [writeEvent,found]
    rfl

theorem events_charged (ex : PprofExporter) (events : List Event) :
    (events.foldl writeEvent ex).selfNs = Ledger.credits ex.selfNs (amounts (chargesFrom ex.folds events)) ∧
      (events.foldl writeEvent ex).out = ex.out := by
  induction events generalizing ex with
  | nil => exact ⟨rfl,rfl⟩
  | cons ev events ih =>
    obtain ⟨charged,kept⟩ := ih (ex.writeEvent ev)
    refine ⟨charged.trans ?_,kept⟩
    have split : amounts (chargesFrom ex.folds (ev :: events)) =
        amounts ((charge ((ex.folds ev.tid).getD ⟨[],ev.tsNs⟩) ev).toList.map (ev.tid,·)) ++
          amounts (chargesFrom (ex.writeEvent ev).folds events) := List.map_append
    rw [split,Ledger.credits_append,← writeEvent_charged]

theorem batches_flatten (ex : PprofExporter) (batches : List (List Event)) :
    batches.foldl writeBatch ex = batches.flatten.foldl writeEvent ex := List.foldl_flatten.symm

theorem owned_charges (folds : UInt32 → Option Fold) (events : List Event) (tid : UInt32) :
    ownedBy tid (chargesFrom folds events) = threadCharges (folds tid) (events.filter (·.tid = tid)) := by
  induction events generalizing folds with
  | nil => rfl
  | cons ev events ih =>
    rw [chargesFrom,ownedBy_append,ownedBy_map,ih]
    by_cases own : ev.tid = tid
    · subst own
      simp [threadCharges]
    · simp [own,Function.update_of_ne (Ne.symm own)]

theorem charges_tid {folds : UInt32 → Option Fold} {events : List Event} (mem : c ∈ chargesFrom folds events) :
    ∃ ev ∈ events, ev.tid = c.1 := by
  induction events generalizing folds with
  | nil => cases mem
  | cons ev events ih =>
    rw [chargesFrom] at mem
    rcases List.mem_append.mp mem with here | later
    · obtain ⟨charged,_,rfl⟩ := List.mem_map.mp here
      exact ⟨ev,List.mem_cons_self,rfl⟩
    · obtain ⟨other,present,same⟩ := ih later
      exact ⟨other,List.mem_cons_of_mem _ present,same⟩

theorem charge_stack (charged : charge fold ev = some c) : c.1 ≠ [] := by
  rw [charge] at charged
  obtain ⟨both,same⟩ := Option.ite_none_right_eq_some.mp charged
  cases same
  exact both.2

theorem charges_stack {folds : UInt32 → Option Fold} {events : List Event} (mem : c ∈ chargesFrom folds events) :
    c.2.1 ≠ [] := by
  induction events generalizing folds with
  | nil => cases mem
  | cons ev events ih =>
    rw [chargesFrom] at mem
    rcases List.mem_append.mp mem with here | later
    · obtain ⟨charged,present,rfl⟩ := List.mem_map.mp here
      exact charge_stack (Option.mem_toList.mp present)
    · exact ih later

theorem charges_perm (folds : UInt32 → Option Fold) {left right : List Event}
    (same : ∀ tid, left.filter (·.tid = tid) = right.filter (·.tid = tid)) :
    (chargesFrom folds left).Perm (chargesFrom folds right) := by
  apply perm_of_owned
  intro tid
  rw [owned_charges,owned_charges,same]

def timed (ev : Event) : Brackets.Bracket UInt32 × ℕ :=
  (if ev.kind.opensSlice then .push ev.codeId else .pop ev.codeId,ev.tsNs.toNat)

def inNat (charges : List (List UInt32 × UInt64)) : List (List UInt32 × ℕ) := charges.map fun c => (c.1,c.2.toNat)

theorem saturatingSub_toNat {a b : UInt64} (le : b ≤ a) : (saturatingSub a b).toNat = a.toNat - b.toNat := by
  rw [saturatingSub,if_pos le,UInt64.toNat_sub_of_le _ _ le]

theorem advance_stack (fold : Fold) (ev : Event) : (advance fold ev).stack = Timed.after fold.stack (timed ev).1 := by
  unfold advance timed
  cases ev.kind.opensSlice <;> rfl

theorem charge_timed (fold : Fold) (ev : Event) (rises : fold.lastTs ≤ ev.tsNs) :
    inNat (charge fold ev).toList =
      [(fold.stack,ev.tsNs.toNat - fold.lastTs.toNat)].filter fun c => 0 < c.2 ∧ c.1 ≠ [] := by
  have elapsed := saturatingSub_toNat rises
  have positive : 0 < saturatingSub ev.tsNs fold.lastTs ↔ 0 < ev.tsNs.toNat - fold.lastTs.toNat := by
    rw [UInt64.lt_iff_toNat_lt,elapsed]
    rfl
  by_cases charged : 0 < saturatingSub ev.tsNs fold.lastTs ∧ fold.stack ≠ []
  · have counted : 0 < ev.tsNs.toNat - fold.lastTs.toNat ∧ fold.stack ≠ [] := ⟨positive.mp charged.1,charged.2⟩
    rw [charge,if_pos charged,List.filter_cons,if_pos (decide_eq_true counted),← elapsed]
    rfl
  · have skipped : ¬(0 < ev.tsNs.toNat - fold.lastTs.toNat ∧ fold.stack ≠ []) := fun both =>
      charged ⟨positive.mpr both.1,both.2⟩
    rw [charge,if_neg charged,List.filter_cons,if_neg fun both => skipped (of_decide_eq_true both)]
    rfl

theorem thread_timed (fold : Fold) (events : List Event) (rising : (fold.lastTs :: events.map (·.tsNs)).Pairwise (· ≤ ·)) :
    inNat (threadCharges (some fold) events) =
      (Timed.charges fold.stack fold.lastTs.toNat (events.map timed)).filter fun c => 0 < c.2 ∧ c.1 ≠ [] := by
  induction events generalizing fold with
  | nil => rfl
  | cons ev events ih =>
    obtain ⟨least,later⟩ := List.pairwise_cons.mp rising
    have here := charge_timed fold ev (least _ List.mem_cons_self)
    have rest := ih (advance fold ev) later
    have split : inNat (threadCharges (some fold) (ev :: events)) =
        inNat (charge fold ev).toList ++ inNat (threadCharges (some (advance fold ev)) events) := List.map_append
    have after : Timed.charges fold.stack fold.lastTs.toNat ((ev :: events).map timed) =
        [(fold.stack,ev.tsNs.toNat - fold.lastTs.toNat)] ++
          Timed.charges (advance fold ev).stack ev.tsNs.toNat (events.map timed) := by
      rw [advance_stack]
      rfl
    rw [split,after,List.filter_append,here,rest]
    rfl

end Pprof
end Trace0
