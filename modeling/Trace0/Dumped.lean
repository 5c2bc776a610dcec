import Trace0.Exporter
import Trace0.Floors

namespace Trace0

section Looking

-- The file of the dump at hand: none, the one its exporter writes, or one that an error or a
-- panic has cut off, with which the recorder is gone.
inductive DumpFile (E : Type) where
  | closed
  | open_ (ex : E)
  | failed

structure Dump (T : Type) where
  events : List (Event × T × Nat)
  registered : ThreadRegistry
  calls : List BatchCall

-- The recorder and the threads with what a dump's exporter looks at. `codes` and `names` are
-- what the call at hand has been told so far.
structure Dumping (T E : Type) where
  tracing : Tracing T
  registry : ThreadRegistry
  file : DumpFile E
  codes : UInt32 → Option (Option CodeInfo)
  names : UInt32 → Option (Option String)
  current : Dump T
  finished : List (Dump T × List OutCall)

-- `ok` says whether the writes of `finish` succeed.
inductive DumpingAct (T : Type) where
  | tracing (act : TracingAct T)
  | ensure (t : T) (name : String)
  | readCode (id : UInt32)
  | readName (tid : UInt32)
  | finish (ok : Bool)

variable {T E : Type} [DecidableEq T]

namespace Dumping

def initial (id : Nat) (clock : Clock) (capacityBytes : Nat) (capacity : Option UInt32) (now : UInt64) :
    Dumping T E :=
  ⟨.initial id clock capacityBytes capacity now,.new,.closed,fun _ => none,fun _ => none,⟨[],.new,[]⟩,[]⟩

def codesTold (s : Dumping T E) (id : UInt32) : Option CodeInfo := (s.codes id).getD (s.tracing.interner.code id)
def namesTold (s : Dumping T E) (tid : UInt32) : Option String := (s.names tid).getD (s.registry.name tid)

def returned (s : Dumping T E) : Dumping T E := {s with codes := fun _ => none,names := fun _ => none}

def withTracing (s : Dumping T E) (tracing : Tracing T) : Dumping T E := {s with tracing := tracing}

-- `finish` comes before the recorder's next step, and after an error there is none.
def waits (s : Dumping T E) : TracingAct T → Bool
  | .recorder _ =>
    match s.file,s.tracing.recorder.phase with
    | .failed,_ | .open_ _,.idle => true
    | _,_ => false
  | _ => false

def open_ (x : Exporter E) (s : Dumping T E) (next : Tracing T) : Dumping T E :=
  {s.withTracing next with
    file := .open_ x.start
    current := ⟨next.dumped,s.registry,[]⟩}.returned

def chunk (s : Dumping T E) : List Event :=
  match s.tracing.recorder.phase with
  | .writing chunk _ => chunk
  | _ => []

def sent (s : Dumping T E) (ex : E) (call : BatchCall) (next : Tracing T) : Dumping T E :=
  {s.withTracing next with
    file := .open_ ex
    current := {s.current with calls := s.current.calls ++ [call]}}.returned

def wrote (x : Exporter E) (s : Dumping T E) (ok : Bool) (next : Tracing T) : Dumping T E :=
  match s.file with
  | .open_ ex =>
    match x.writeBatch ex s.chunk s.codesTold s.namesTold,ok with
    | some ex,true => s.sent ex ⟨s.chunk,s.codesTold,s.namesTold⟩ next
    | _,_ => {s.withTracing next with file := .failed}
  | _ => s.withTracing next

def follow (x : Exporter E) (s : Dumping T E) (act : TracingAct T) (next : Tracing T) : Dumping T E :=
  match act with
  | .recorder (.assemble true) => s.open_ x next
  | .recorder (.write ok) => s.wrote x ok next
  | _ => s.withTracing next

def finishStep (x : Exporter E) (s : Dumping T E) (ok : Bool) : Option (Dumping T E) :=
  match s.file,s.tracing.recorder.phase with
  | .open_ ex,.idle =>
    if ok then
      let ex := x.finish ex s.codesTold s.registry.snapshot (.ofNat s.tracing.recorder.world.queue.dropped)
      some {s with file := .closed,finished := s.finished ++ [(s.current,x.out ex)]}.returned
    else some {s with file := .failed}
  | _,_ => none

def step (x : Exporter E) (tidOf : T → UInt32) (s : Dumping T E) : DumpingAct T → Option (Dumping T E)
  | .tracing act => if s.waits act then none else (s.tracing.step tidOf act).map (s.follow x act)
  | .ensure t name => some {s with registry := (s.registry.ensure (tidOf t) name).1}
  | .readCode id =>
    match s.file with
    | .open_ _ => some {s with codes := Function.update s.codes id (some (s.codesTold id))}
    | _ => none
  | .readName tid =>
    match s.file with
    | .open_ _ => some {s with names := Function.update s.names tid (some (s.namesTold tid))}
    | _ => none
  | .finish ok => s.finishStep x ok

end Dumping

-- No code object is destroyed during a callback for it.
def Dumping.Outlives (s : Dumping T E) : DumpingAct T → Prop
  | .tracing act => Trace0.Outlives s.tracing act
  | _ => True

end Looking

variable {T E : Type} [DecidableEq T]

-- A dumped event stands for one that its thread pushed, for a call of this code object.
def Placed (s : Tracing T) (d : Event × T × Nat) (info : CodeInfo) : Prop :=
  ∃ e, (ownedBy d.2.1 s.recorder.world.ledger.pushed)[d.2.2]? = some e ∧ d.1.codeId = codeIdOf e.2 ∧
    (ownedBy d.2.1 s.origins)[d.2.2]? = some info

def Among (events : List (Event × T × Nat)) (t : T) (n : Nat) : Prop := ∃ d ∈ events, d.2 = (t,n)

-- What keeps the names of a dump's events until it is finished, whatever has been written of
-- them already and been evicted since: no floor that is out gives their ids away.
structure Protected (s : Tracing T) (events : List (Event × T × Nat)) : Prop where
  named : ∀ d ∈ events, ∃ info, Placed s d info ∧ s.interner.code d.1.codeId = some info
  published : Guards s (Among events) s.recorder.world.queue.recycleFloor
  called : ∀ t key kind ticks floor, s.callbacks t = .floored key kind ticks floor → Guards s (Among events) floor

variable {tidOf : T → UInt32} {s s' : Tracing T} {events : List (Event × T × Nat)} {d : Event × T × Nat}
  {info info' : CodeInfo}

theorem Placed.same (left : Placed s d info) (right : Placed s d info') : info = info' := by
  obtain ⟨_,_,_,origin⟩ := left
  obtain ⟨_,_,_,origin'⟩ := right
  exact Option.some.inj (origin.symm.trans origin')

section Phases

variable {r r' : Recorder T}

def Phase.Open (phase : Phase T) : Prop :=
  phase = .idle ∨ (∃ chunk rest, phase = .writing chunk rest) ∨ ∃ rest, phase = .wrote rest

end Phases

section Filing

variable {x : Exporter E} {Given : List Event → E → Prop} {m m' : Dumping T E} {dump : Dump T}

def CodeFits (s : Tracing T) (dump : Dump T) (id : UInt32) (found : Option CodeInfo) : Prop :=
  ∀ d ∈ dump.events, d.1.codeId = id → ∀ info, Placed s d info → found = some info

def NameFits (registry : ThreadRegistry) (dump : Dump T) (tid : UInt32) (found : Option String) : Prop :=
  (∀ name, dump.registered.name tid = some name → found = some name) ∧
    ∀ name, found = some name → registry.name tid = some name

-- The dump whose file is open: what was written is what the tables the calls were given say.
structure Filed (x : Exporter E) (tidOf : T → UInt32) (m : Dumping T E) (ex : E) : Prop where
  phase : m.tracing.recorder.phase.Open
  protected_ : Protected m.tracing m.current.events
  own : ∀ d ∈ m.current.events, d.1.tid = tidOf d.2.1
  codes : ∀ id found, m.codes id = some found → CodeFits m.tracing m.current id found
  names : ∀ tid found, m.names tid = some found → NameFits m.registry m.current tid found
  calls : ∀ call ∈ m.current.calls, (∀ id, CodeFits m.tracing m.current id (call.codes id)) ∧
    ∀ tid, NameFits m.registry m.current tid (call.names tid)
  registered : Registers m.current.registered m.registry
  whole : m.current.calls.flatMap (·.events) ++ m.tracing.recorder.phase.unwritten = m.current.events.map (·.1)
  wrote : x.write x.start m.current.calls = some ex

-- The tables that a finished dump shows: the code object each event was recorded for, and the
-- names as they were registered while it was written.
structure Tells (tidOf : T → UInt32) (m : Dumping T E) (dump : Dump T) (codes : UInt32 → Option CodeInfo)
    (names : UInt32 → Option String) (registry : ThreadRegistry) : Prop where
  codes : ∀ d ∈ dump.events, d.1.tid = tidOf d.2.1 ∧ ∃ info, Placed m.tracing d info ∧ codes d.1.codeId = some info
  registered : ∀ d ∈ dump.events, ∀ name, dump.registered.name d.1.tid = some name → names d.1.tid = some name
  known : ∀ tid name, names tid = some name → registry.name tid = some name
  earlier : Registers dump.registered registry
  later : Registers registry m.registry

def Exported (x : Exporter E) (tidOf : T → UInt32) (m : Dumping T E) (dump : Dump T) (out : List OutCall) : Prop :=
  ∃ codes names registry, ∃ chunks : List (List Event), ∃ dropped ex, Tells tidOf m dump codes names registry ∧
    chunks.flatten = dump.events.map (·.1) ∧
    x.write x.start (chunks.map fun events => ⟨events,codes,names⟩) = some ex ∧
    out = x.out (x.finish ex codes registry.snapshot dropped)

structure Onward (m m' : Dumping T E) : Prop where
  placed : ∀ d info, Placed m.tracing d info → Placed m'.tracing d info
  registry : Registers m.registry m'.registry

theorem CodeFits.onward {id : UInt32} {found : Option CodeInfo} (protected_ : Protected m.tracing dump.events)
    (onward : Onward m m') (fits : CodeFits m.tracing dump id found) : CodeFits m'.tracing dump id found := by
  intro d mem same info placed
  obtain ⟨info',before,_⟩ := protected_.named d mem
  rw [placed.same (onward.placed d info' before)]
  exact fits d mem same info' before

theorem NameFits.onward {tid : UInt32} {found : Option String} (onward : Onward m m')
    (fits : NameFits m.registry dump tid found) : NameFits m'.registry dump tid found :=
  ⟨fits.1,fun name shown => onward.registry tid name (fits.2 name shown)⟩

theorem Exported.onward {out : List OutCall} (onward : Onward m m') (done : Exported x tidOf m dump out) :
    Exported x tidOf m' dump out := by
  obtain ⟨codes,names,registry,chunks,dropped,ex,tells,rest⟩ := done
  refine ⟨codes,names,registry,chunks,dropped,ex,⟨?_,tells.registered,tells.known,tells.earlier,?_⟩,rest⟩
  · intro d mem
    obtain ⟨own,info,placed,named⟩ := tells.codes d mem
    exact ⟨own,info,onward.placed d info placed,named⟩
  · exact fun tid name known => onward.registry tid name (tells.later tid name known)

section Telling

variable {ex : E}

theorem Filed.codesTold (filed : Filed x tidOf m ex) (id : UInt32) : CodeFits m.tracing m.current id (m.codesTold id) := by
  unfold Dumping.codesTold
  cases looked : m.codes id with
  | some found => exact filed.codes id found looked
  | none =>
    rintro d mem rfl info placed
    obtain ⟨info',before,named⟩ := filed.protected_.named d mem
    rw [placed.same before]
    exact named

theorem Filed.namesTold (filed : Filed x tidOf m ex) (tid : UInt32) : NameFits m.registry m.current tid (m.namesTold tid) := by
  unfold Dumping.namesTold
  cases looked : m.names tid with
  | some found => exact filed.names tid found looked
  | none => exact ⟨filed.registered tid,fun _ known => known⟩

theorem Filed.onward (filed : Filed x tidOf m ex) (onward : Onward m m') (current : m'.current = m.current)
    (phase : m'.tracing.recorder.phase.Open)
    (unwritten : m'.tracing.recorder.phase.unwritten = m.tracing.recorder.phase.unwritten)
    (protected_ : Protected m'.tracing m.current.events)
    (codes : ∀ id found, m'.codes id = some found → CodeFits m.tracing m.current id found)
    (names : ∀ tid found, m'.names tid = some found → NameFits m.registry m.current tid found) : Filed x tidOf m' ex := by
  refine ⟨phase,current ▸ protected_,current ▸ filed.own,?_,?_,?_,?_,?_,current ▸ filed.wrote⟩
  · intro id found looked
    rw [current]
    exact (codes id found looked).onward filed.protected_ onward
  · intro tid found looked
    rw [current]
    exact (names tid found looked).onward onward
  · rw [current]
    intro call mem
    obtain ⟨codes,names⟩ := filed.calls call mem
    exact ⟨fun id => (codes id).onward filed.protected_ onward,fun tid => (names tid).onward onward⟩
  · rw [current]
    exact fun tid name known => onward.registry tid name (filed.registered tid name known)
  · rw [current,unwritten]
    exact filed.whole

end Telling

end Filing

end Trace0
