import Trace0.Event
import Trace0.Intern
import Trace0.Lib.Assoc
import Mathlib.Tactic

namespace Trace0

-- What an exporter does with its `out`.
inductive OutCall where
  | write (bytes : List UInt8)
  | flush
  deriving DecidableEq

def OutCall.bytes : OutCall → List UInt8
  | .write bytes => bytes
  | .flush => []

def written (calls : List OutCall) : List UInt8 := calls.flatMap OutCall.bytes

def utf8 (s : String) : List UInt8 := s.toByteArray.data.toList

@[simp] theorem written_append (left right : List OutCall) :
    written (left ++ right) = written left ++ written right := by simp [written]

@[simp] theorem written_cons (call : OutCall) (calls : List OutCall) :
    written (call :: calls) = call.bytes ++ written calls := by simp [written]

@[simp] theorem written_nil : written [] = [] := rfl

-- The names by thread id, in the order they were given.
structure ThreadRegistry where
  inner : List (UInt32 × String)
  deriving DecidableEq

namespace ThreadRegistry

def new : ThreadRegistry := ⟨[]⟩

-- `name` is what the interpreter calls the present thread, empty where it cannot say.
def ensure (r : ThreadRegistry) (tid : UInt32) (name : String) : ThreadRegistry × Bool :=
  if (r.inner.lookup tid).isSome then (r,true)
  else if name.toList = [] ∨ "Dummy-".toList <+: name.toList then (r,false)
  else (⟨r.inner ++ [(tid,name)]⟩,true)

def name (r : ThreadRegistry) (tid : UInt32) : Option String := r.inner.lookup tid

def snapshot (r : ThreadRegistry) : List (UInt32 × String) := r.inner.mergeSort (·.1 ≤ ·.1)

end ThreadRegistry

def Registers (earlier later : ThreadRegistry) : Prop :=
  ∀ tid name, earlier.name tid = some name → later.name tid = some name

theorem Registers.trans {first second third : ThreadRegistry} (left : Registers first second)
    (right : Registers second third) : Registers first third :=
  fun tid name known => right tid name (left tid name known)

-- The trait that `write_batch` and `finish` belong to. An exporter sees the code objects and
-- the threads' names as they are when it asks; no result stands for a panic.
structure Exporter (E : Type) where
  start : E
  writeBatch : E → List Event → (UInt32 → Option CodeInfo) → (UInt32 → Option String) → Option E
  finish : E → (UInt32 → Option CodeInfo) → List (UInt32 × String) → UInt64 → E
  out : E → List OutCall

structure BatchCall where
  events : List Event
  codes : UInt32 → Option CodeInfo
  names : UInt32 → Option String

namespace Exporter

variable {E : Type} {x : Exporter E}

def write (x : Exporter E) (ex : E) (calls : List BatchCall) : Option E :=
  calls.foldlM (fun ex call => x.writeBatch ex call.events call.codes call.names) ex

-- What every exporter promises once it was given certain events: it does not panic, asks for
-- no code but its events' and for no thread's name twice.
structure Lawful (x : Exporter E) (Given : List Event → E → Prop) : Prop where
  start : Given [] x.start
  wrote : ∀ {seen ex}, Given seen ex → ∀ events codes names,
    ∃ next, x.writeBatch ex events codes names = some next ∧ Given (seen ++ events) next
  reads : ∀ {seen ex events codes codes' names names'}, Given seen ex →
    (∀ ev ∈ events, codes ev.codeId = codes' ev.codeId) →
    (∀ ev ∈ events, (∀ e ∈ seen, e.tid ≠ ev.tid) → names ev.tid = names' ev.tid) →
    x.writeBatch ex events codes names = x.writeBatch ex events codes' names'
  finishes : ∀ {seen ex codes codes'}, Given seen ex → (∀ ev ∈ seen, codes ev.codeId = codes' ev.codeId) →
    ∀ threads dropped, x.finish ex codes threads dropped = x.finish ex codes' threads dropped

variable {Given : List Event → E → Prop} {ex : E} {seen : List Event} {calls : List BatchCall}

theorem Lawful.writes (lawful : x.Lawful Given) (given : Given seen ex) (calls : List BatchCall) :
    ∃ next, x.write ex calls = some next ∧ Given (seen ++ calls.flatMap (·.events)) next := by
  induction calls generalizing seen ex with
  | nil => exact ⟨ex,rfl,by simpa using given⟩
  | cons call rest ih =>
    obtain ⟨mid,first,there⟩ := lawful.wrote given call.events call.codes call.names
    obtain ⟨next,run,there⟩ := ih there
    refine ⟨next,?_,by simpa using there⟩
    simpa [write,first] using run

end Exporter

end Trace0
