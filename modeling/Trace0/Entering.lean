import Trace0.Lib.Attempt
import Trace0.Signals

namespace Trace0
open Signals (DeadlySignal Disposition Handler deadlySignals)

inductive Format where
  | Json
  | Protobuf
  | Pprof

def Format.asStr : Format → String
  | Json => "json"
  | Protobuf => "protobuf"
  | Pprof => "pprof"

inductive ChildKey where
  | output
  | format
  | recordMb
  deriving DecidableEq

def ChildKey.name : ChildKey → String
  | output => "TRACE0_CHILD_OUTPUT"
  | format => "TRACE0_CHILD_FORMAT"
  | recordMb => "TRACE0_CHILD_RECORD_MB"

inductive MonitoringEvent where
  | PY_START
  | PY_RETURN
  | PY_YIELD
  | PY_RESUME
  | PY_UNWIND
  | PY_THROW
  deriving DecidableEq

def pairs : List MonitoringEvent := [.PY_START,.PY_RETURN,.PY_YIELD,.PY_RESUME,.PY_UNWIND,.PY_THROW]

-- The tool that has taken the profiler id; a callback names the run it records for.
structure Tool where
  name : String
  callbacks : List (MonitoringEvent × Nat)
  events : List MonitoringEvent

structure Running where
  queue : Nat
  control : Bool

structure Tracer where
  output : String
  format : Format
  traceSubprocesses : Bool
  recordLastMb : Option Nat

structure Process (H : Type) where
  environ : ChildKey → Option String
  tool : Option Tool
  current : DeadlySignal → Disposition H
  replaced : List (DeadlySignal × Handler H)
  active : Option Nat
  slots : Nat → Option Running
  exporters : List Nat
  nextQueue : Nat
  hooksRegistered : Bool

-- Everything that may go wrong, by where it is called.
inductive EnterCall where
  | environ
  | entry (key : ChildKey)
  | watch
  | openOutput
  | spawn
  | monitoring
  | profilerId
  | useToolId
  | events
  | newCallbacks
  | eventValue (event : MonitoringEvent)
  | newFunction (event : MonitoringEvent)
  | registerCallback (event : MonitoringEvent)
  | setEvents
  | forkModule
  | registerAtFork
  | importSignal
  | ourHandler
  | lookupSignal (sig : DeadlySignal)
  | getsignal (sig : DeadlySignal)
  | setSignal (sig : DeadlySignal)
  | signalNumber (sig : DeadlySignal)
  deriving DecidableEq

variable {H : Type}

-- An error leaves the process as it is at that point.
abbrev Enter (H : Type) := EStateM Unit (Process H)

section Source

variable (fails : EnterCall → Bool)

def call (c : EnterCall) : Enter H PUnit := if fails c then throw () else pure ()

def setItem (key : ChildKey) (value : Option String) : Enter H PUnit := do
  call fails (.entry key)
  modify fun p => {p with environ := Function.update p.environ key value}

def advertiseToSpawnedChildren (tracer : Tracer) : Enter H PUnit := do
  call fails .environ
  setItem fails .output (some tracer.output)
  setItem fails .format (some tracer.format.asStr)
  match tracer.recordLastMb with
  | some mb => setItem fails .recordMb (some (toString mb))
  | none => setItem fails .recordMb none

def stopAdvertising : Enter H PUnit := do
  call fails .environ
  [ChildKey.output,ChildKey.format,ChildKey.recordMb].forM fun key => setItem fails key none

-- `use_tool_id` refuses an id that is in use.
def useToolId (name : String) : Enter H PUnit := do
  call fails .useToolId
  let p ← get
  match p.tool with
  | some _ => throw ()
  | none => set {p with tool := some ⟨name,[],[]⟩}

def registerCallback (run : Nat) (event : MonitoringEvent) : Enter H PUnit := do
  call fails (.eventValue event)
  call fails (.newFunction event)
  call fails (.registerCallback event)
  modify fun p => {p with tool := p.tool.map fun tool => {tool with callbacks := tool.callbacks ++ [(event,run)]}}

def setEvents (mask : List MonitoringEvent) : Enter H PUnit := do
  call fails .setEvents
  modify fun p => {p with tool := p.tool.map fun tool => {tool with events := mask}}

def enable (run : Nat) : Enter H PUnit := do
  call fails .monitoring
  call fails .profilerId
  useToolId fails "trace0"
  call fails .events
  call fails .newCallbacks
  pairs.forM (registerCallback fails run)
  setEvents fails pairs

def closeAndJoin (run : Nat) (p : Process H) : Process H := {p with exporters := p.exporters.erase run}

def start (tracer : Tracer) : Enter H Running := do
  let run ← modifyGet fun p => (p.nextQueue,{p with nextQueue := p.nextQueue+1})
  call fails .watch
  call fails .openOutput
  call fails .spawn
  modify fun p => {p with exporters := run :: p.exporters}
  fun p =>
    match enable fails run p with
    | .ok _ p => .ok ⟨run,tracer.recordLastMb.isSome⟩ p
    | .error e p => .error e (closeAndJoin run p)

-- `call_once` runs its closure once, whether or not it ends well.
def registerForkHooks : Enter H PUnit := do
  let p ← get
  if p.hooksRegistered then pure ()
  else
    set {p with hooksRegistered := true}
    call fails .forkModule
    call fails .registerAtFork

def takeOver (sig : DeadlySignal) : Enter H PUnit := do
  let p ← get
  if fails (.lookupSignal sig) || fails (.getsignal sig) then pure ()
  else
    match p.current sig with
    | .ours => pure ()
    | .program previous =>
      if fails (.setSignal sig) then pure ()
      else
        set {p with current := Function.update p.current sig .ours}
        call fails (.signalNumber sig)
        modify fun p => {p with replaced := p.replaced.filter (·.1 ≠ sig) ++ [(sig,previous)]}

def takeOverDeadlySignals : Enter H PUnit := do
  call fails .importSignal
  call fails .ourHandler
  deadlySignals.forM (takeOver fails)

def install (me : Nat) (running : Running) : Enter H PUnit := do
  registerForkHooks fails
  takeOverDeadlySignals fails
  modify fun p => {p with slots := Function.update p.slots me (some running),active := some me}

def enter (me : Nat) (tracer : Tracer) : Enter H PUnit := do
  if tracer.traceSubprocesses then advertiseToSpawnedChildren fails tracer else stopAdvertising fails
  let running ← start fails tracer
  install fails me running

end Source

-- What a caller can see of a failed enter.
structure Process.Same (p p' : Process H) : Prop where
  environ : p'.environ = p.environ
  tool : p'.tool = p.tool
  current : p'.current = p.current
  active : p'.active = p.active
  slots : p'.slots = p.slots
  exporters : p'.exporters = p.exporters

def Tracer.entries (tracer : Tracer) : List (ChildKey × Option String) :=
  if tracer.traceSubprocesses then
    [(.output,some tracer.output),(.format,some tracer.format.asStr),(.recordMb,tracer.recordLastMb.map toString)]
  else [(.output,none),(.format,none),(.recordMb,none)]

def Tracer.performed (tracer : Tracer) (fails : EnterCall → Bool) : List (ChildKey × Option String) :=
  if fails .environ then [] else tracer.entries.takeWhile fun w => !fails (.entry w.1)

-- The calls up to the one that takes the tool id.
def startCalls : List EnterCall := [.watch,.openOutput,.spawn,.monitoring,.profilerId,.useToolId]

def Tracer.earlyCalls (tracer : Tracer) : List EnterCall :=
  .environ :: tracer.entries.map (.entry ·.1) ++ startCalls

def Process.written (p : Process H) (entries : List (ChildKey × Option String)) : Process H :=
  {p with environ := entries.foldl (fun environ w => Function.update environ w.1 w.2) p.environ}

variable {fails : EnterCall → Bool} {p : Process H} {tracer : Tracer}

theorem call_ok {c : EnterCall} (passes : fails c = false) (p : Process H) : call fails c p = .ok ⟨⟩ p := by
  rw [call,passes]
  rfl

theorem call_error {c : EnterCall} (failed : fails c = true) (p : Process H) : call fails c p = .error () p := by
  rw [call,failed]
  rfl

theorem entries_written (fails : EnterCall → Bool) (tracer : Tracer) :
    (if tracer.traceSubprocesses then advertiseToSpawnedChildren fails tracer else stopAdvertising fails : Enter H PUnit) =
      call fails .environ >>= fun _ => tracer.entries.forM fun w => setItem fails w.1 w.2 := by
  unfold Tracer.entries advertiseToSpawnedChildren stopAdvertising
  cases tracer.traceSubprocesses with
  | false => rfl
  | true =>
    simp only [if_true,List.forM_eq_forM,List.forM_cons,List.forM_nil]
    cases tracer.recordLastMb <;> simp

theorem enter_written (fails : EnterCall → Bool) (me : Nat) (tracer : Tracer) :
    (enter fails me tracer : Enter H PUnit) = call fails .environ >>= fun _ =>
      (tracer.entries.forM fun w => setItem fails w.1 w.2) >>= fun _ => start fails tracer >>= install fails me := by
  rw [← bind_assoc,← entries_written]
  unfold enter
  cases tracer.traceSubprocesses <;> rfl

theorem entries_distinct (tracer : Tracer) : (tracer.entries.map (·.1)).Nodup := by
  unfold Tracer.entries
  split <;> simp

theorem items_run (fails : EnterCall → Bool) (entries : List (ChildKey × Option String)) (p : Process H) :
    let done := entries.takeWhile fun w => !fails (.entry w.1)
    (entries.forM fun w => setItem fails w.1 w.2) p =
      if entries.any (fun w => fails (.entry w.1)) then .error () (p.written done) else .ok ⟨⟩ (p.written done) := by
  induction entries generalizing p with
  | nil => rfl
  | cons w entries ih =>
    cases failed : fails (.entry w.1) with
    | true =>
      have stops : setItem fails w.1 w.2 p = .error () p := Attempt.bind_error (call_error failed p)
      simp only [List.forM_eq_forM,List.forM_cons,List.any_cons,failed,Bool.true_or,if_true,List.takeWhile_cons,
        Bool.not_true,Bool.false_eq_true,if_false]
      exact Attempt.bind_error stops
    | false =>
      have writes : setItem fails w.1 w.2 p = .ok ⟨⟩ (p.written [w]) := Attempt.bind_ok (call_ok failed p)
      simp only [List.forM_eq_forM,List.forM_cons,List.any_cons,failed,Bool.false_or,List.takeWhile_cons,
        Bool.not_false,if_true]
      exact (Attempt.bind_ok writes).trans (ih (p.written [w]))

theorem written_same (entries : List (ChildKey × Option String)) (environ : ChildKey → Option String)
    (distinct : (entries.map (·.1)).Nodup) :
    entries.foldl (fun environ w => Function.update environ w.1 w.2) environ = environ ↔
      ∀ w ∈ entries, environ w.1 = w.2 := by
  have untouched (entries : List (ChildKey × Option String)) (environ : ChildKey → Option String) (key : ChildKey)
      (other : key ∉ entries.map (·.1)) :
      entries.foldl (fun environ w => Function.update environ w.1 w.2) environ key = environ key := by
    induction entries generalizing environ with
    | nil => rfl
    | cons w entries ih =>
      rw [List.map_cons,List.mem_cons,not_or] at other
      rw [List.foldl_cons,ih _ other.2,Function.update_of_ne other.1]
  induction entries with
  | nil => simp
  | cons w entries ih =>
    rw [List.map_cons,List.nodup_cons] at distinct
    rw [List.foldl_cons,List.forall_mem_cons]
    constructor
    · intro same
      have own := congrFun same w.1
      rw [untouched entries _ w.1 distinct.1,Function.update_self] at own
      rw [own,Function.update_eq_self] at same
      exact ⟨own.symm,(ih distinct.2).mp same⟩
    · rintro ⟨own,rest⟩
      rw [← own,Function.update_eq_self]
      exact (ih distinct.2).mpr rest

theorem keeps_call (I : Process H → Prop) (c : EnterCall) : Attempt.Keeps I (call fails c) := by
  intro p inv
  cases failed : fails c with
  | true => rw [call_error failed]; exact inv
  | false => rw [call_ok failed]; exact inv

-- Once the tool id is taken, nothing that follows gives it back.
def Process.Armed (p : Process H) : Prop := p.tool ≠ none

theorem callback_armed (run : Nat) (event : MonitoringEvent) :
    Attempt.Keeps (Process.Armed (H := H)) (registerCallback fails run event) := by
  unfold registerCallback
  refine Attempt.keeps_bind (keeps_call _ _) ?_
  intro _
  refine Attempt.keeps_bind (keeps_call _ _) ?_
  intro _
  refine Attempt.keeps_bind (keeps_call _ _) ?_
  intro _
  refine Attempt.keeps_modify ?_
  intro p armed none
  exact armed (Option.map_eq_none_iff.mp none)

theorem setEvents_armed (mask : List MonitoringEvent) :
    Attempt.Keeps (Process.Armed (H := H)) (setEvents fails mask) := by
  unfold setEvents
  refine Attempt.keeps_bind (keeps_call _ _) ?_
  intro _
  refine Attempt.keeps_modify ?_
  intro p armed none
  exact armed (Option.map_eq_none_iff.mp none)

theorem registerForkHooks_armed : Attempt.Keeps (Process.Armed (H := H)) (registerForkHooks fails) := by
  refine Attempt.keeps_get ?_
  intro p armed
  split
  · exact armed
  · have marked : Process.Armed {p with hooksRegistered := true} := armed
    have rest : Attempt.Keeps (Process.Armed (H := H)) (call fails .forkModule >>= fun _ => call fails .registerAtFork) :=
      Attempt.keeps_bind (keeps_call _ _) fun _ => keeps_call _ _
    exact rest _ marked

theorem takeOver_armed (sig : DeadlySignal) : Attempt.Keeps (Process.Armed (H := H)) (takeOver fails sig) := by
  refine Attempt.keeps_get ?_
  intro p armed
  by_cases skipped : (fails (.lookupSignal sig) || fails (.getsignal sig)) = true
  · rw [if_pos skipped]
    exact armed
  · rw [if_neg skipped]
    cases p.current sig with
    | ours => exact armed
    | program previous =>
      by_cases refused : fails (.setSignal sig) = true
      · simp only [refused,if_true]
        exact armed
      · simp only [refused,Bool.false_eq_true,if_false]
        have replaced : Process.Armed {p with current := Function.update p.current sig .ours} := armed
        have rest : Attempt.Keeps (Process.Armed (H := H)) (call fails (.signalNumber sig) >>= fun _ =>
            modify fun p => {p with replaced := p.replaced.filter (·.1 ≠ sig) ++ [(sig,previous)]}) :=
          Attempt.keeps_bind (keeps_call _ _) fun _ => Attempt.keeps_modify fun _ armed => armed
        exact rest _ replaced

theorem install_armed (fails : EnterCall → Bool) (me : Nat) (running : Running) :
    Attempt.Keeps (Process.Armed (H := H)) (install fails me running) := by
  refine Attempt.keeps_bind registerForkHooks_armed ?_
  intro _
  refine Attempt.keeps_bind ?_ ?_
  · unfold takeOverDeadlySignals
    refine Attempt.keeps_bind (keeps_call _ _) ?_
    intro _
    refine Attempt.keeps_bind (keeps_call _ _) ?_
    intro _
    exact Attempt.keeps_forM takeOver_armed _
  · intro _
    exact Attempt.keeps_modify fun _ armed => armed

def toolCalls : List EnterCall := [.monitoring,.profilerId,.useToolId]

theorem enable_refused (run : Nat) (refused : p.tool ≠ none ∨ ∃ c ∈ toolCalls, fails c = true) :
    enable fails run p = .error () p := by
  unfold enable
  cases monitoring : fails .monitoring with
  | true => exact Attempt.bind_error (call_error monitoring p)
  | false =>
    rw [Attempt.bind_ok (call_ok monitoring p)]
    cases profiler : fails .profilerId with
    | true => exact Attempt.bind_error (call_error profiler p)
    | false =>
      rw [Attempt.bind_ok (call_ok profiler p)]
      apply Attempt.bind_error
      unfold useToolId
      cases use : fails .useToolId with
      | true => exact Attempt.bind_error (call_error use p)
      | false =>
        rw [Attempt.bind_ok (call_ok use p)]
        have owned : p.tool ≠ none := by
          refine refused.resolve_right ?_
          rintro ⟨c,among,failed⟩
          simp only [toolCalls,List.mem_cons,List.not_mem_nil,or_false] at among
          rcases among with rfl | rfl | rfl
          · rw [monitoring] at failed; cases failed
          · rw [profiler] at failed; cases failed
          · rw [use] at failed; cases failed
        obtain ⟨tool,present⟩ := Option.ne_none_iff_exists'.mp owned
        show (match p.tool with | some _ => throw () | none => set {p with tool := some ⟨"trace0",[],[]⟩} : Enter H PUnit) p = _
        rw [present]
        rfl

theorem enable_armed (run : Nat) (free : p.tool = none) (passes : ∀ c ∈ toolCalls, fails c = false) :
    (Attempt.final (enable fails run p)).Armed := by
  have taken : useToolId fails "trace0" p = .ok ⟨⟩ {p with tool := some ⟨"trace0",[],[]⟩} := by
    unfold useToolId
    rw [Attempt.bind_ok (call_ok (passes .useToolId (by decide)) p)]
    show (match p.tool with | some _ => throw () | none => set {p with tool := some ⟨"trace0",[],[]⟩} : Enter H PUnit) p = _
    rw [free]
    rfl
  unfold enable
  rw [Attempt.bind_ok (call_ok (passes .monitoring (by decide)) p),
    Attempt.bind_ok (call_ok (passes .profilerId (by decide)) p),Attempt.bind_ok taken]
  have rest : Attempt.Keeps (Process.Armed (H := H)) (call fails .events >>= fun _ => call fails .newCallbacks >>= fun _ =>
      pairs.forM (registerCallback fails run) >>= fun _ => setEvents fails pairs) := by
    refine Attempt.keeps_bind (keeps_call _ _) ?_
    intro _
    refine Attempt.keeps_bind (keeps_call _ _) ?_
    intro _
    apply Attempt.keeps_bind (Attempt.keeps_forM (callback_armed run) _)
    intro _
    exact setEvents_armed _
  exact rest _ (by simp [Process.Armed])

theorem start_run (tracer : Tracer) (p : Process H) : start fails tracer p =
    if fails .watch || fails .openOutput || fails .spawn then .error () {p with nextQueue := p.nextQueue+1}
    else
      match enable fails p.nextQueue {p with nextQueue := p.nextQueue+1,exporters := p.nextQueue :: p.exporters} with
      | .ok _ q => .ok ⟨p.nextQueue,tracer.recordLastMb.isSome⟩ q
      | .error e q => .error e (closeAndJoin p.nextQueue q) := by
  unfold start call
  cases fails .watch <;> cases fails .openOutput <;> cases fails .spawn <;> rfl

theorem start_refused (refused : p.tool ≠ none ∨ ∃ c ∈ startCalls, fails c = true) :
    start fails tracer p = .error () {p with nextQueue := p.nextQueue+1} := by
  rw [start_run]
  split
  · rfl
  · rename_i passes
    simp only [Bool.or_eq_true,not_or,Bool.not_eq_true] at passes
    obtain ⟨⟨watch,open_⟩,spawn⟩ := passes
    rw [enable_refused]
    · simp only [closeAndJoin,List.erase_cons_head]
    · refine refused.imp id ?_
      rintro ⟨c,among,failed⟩
      simp only [startCalls,List.mem_cons,List.not_mem_nil,or_false] at among
      rcases among with rfl | rfl | rfl | rfl | rfl | rfl
      · rw [watch] at failed; cases failed
      · rw [open_] at failed; cases failed
      · rw [spawn] at failed; cases failed
      · exact ⟨_,by decide,failed⟩
      · exact ⟨_,by decide,failed⟩
      · exact ⟨_,by decide,failed⟩

theorem start_armed (tracer : Tracer) (free : p.tool = none) (passes : ∀ c ∈ startCalls, fails c = false) :
    (Attempt.final (start fails tracer p)).Armed := by
  rw [start_run,passes .watch (by decide),passes .openOutput (by decide),passes .spawn (by decide)]
  have taken : (Attempt.final (enable fails p.nextQueue
      {p with nextQueue := p.nextQueue+1,exporters := p.nextQueue :: p.exporters})).Armed := by
    refine enable_armed (p := {p with nextQueue := p.nextQueue+1,exporters := p.nextQueue :: p.exporters}) _ free ?_
    intro c among
    apply passes
    simp only [toolCalls,startCalls,List.mem_cons,List.not_mem_nil,or_false] at among ⊢
    rcases among with rfl | rfl | rfl <;> simp
  simp only [Bool.or_self,Bool.false_eq_true,if_false]
  split
  · rename_i ran
    rw [ran] at taken
    exact taken
  · rename_i ran
    rw [ran] at taken
    exact taken

-- A failed enter undoes nothing, but for the exporter of a run that did not get the tool id. It leaves no trace exactly
-- where it fails by then and every entry it had written was there already.
theorem failed_enter (fails : EnterCall → Bool) (me : Nat) (tracer : Tracer) (p p' : Process H)
    (failed : enter fails me tracer p = .error () p') :
    p.Same p' ↔ (∀ w ∈ tracer.performed fails, p.environ w.1 = w.2) ∧
      (p.tool ≠ none ∨ ∃ c ∈ tracer.earlyCalls, fails c = true) := by
  rw [enter_written] at failed
  cases environ : fails .environ with
  | true =>
    rw [Attempt.bind_error (call_error environ p)] at failed
    cases failed
    refine iff_of_true ⟨rfl,rfl,rfl,rfl,rfl,rfl⟩ ⟨?_,.inr ⟨.environ,by simp [Tracer.earlyCalls],environ⟩⟩
    intro w among
    rw [Tracer.performed,environ] at among
    cases among
  | false =>
    rw [Attempt.bind_ok (call_ok environ p)] at failed
    have run := items_run fails tracer.entries p
    dsimp only at run
    have performed : tracer.performed fails = tracer.entries.takeWhile fun w => !fails (.entry w.1) := by
      rw [Tracer.performed,environ]
      rfl
    rw [← performed] at run
    have distinct : ((tracer.performed fails).map (·.1)).Nodup := by
      rw [performed]
      exact (entries_distinct tracer).sublist ((List.takeWhile_sublist _).map _)
    have unchanged := written_same (tracer.performed fails) p.environ distinct
    cases stopped : tracer.entries.any fun w => fails (.entry w.1) with
    | true =>
      rw [stopped,if_pos rfl] at run
      rw [Attempt.bind_error run] at failed
      cases failed
      obtain ⟨w,among,failed⟩ := List.any_eq_true.mp stopped
      have early : ∃ c ∈ tracer.earlyCalls, fails c = true := by
        refine ⟨_,?_,failed⟩
        rw [Tracer.earlyCalls]
        exact List.mem_append_left _ (List.mem_cons_of_mem _ (List.mem_map_of_mem (f := (EnterCall.entry ·.1)) among))
      exact ⟨fun same => ⟨unchanged.mp same.environ,.inr early⟩,
        fun holds => ⟨unchanged.mpr holds.1,rfl,rfl,rfl,rfl,rfl⟩⟩
    | false =>
      rw [stopped,if_neg (by decide)] at run
      rw [Attempt.bind_ok run] at failed
      by_cases refused : p.tool ≠ none ∨ ∃ c ∈ startCalls, fails c = true
      · rw [Attempt.bind_error (start_refused (p := p.written _) refused)] at failed
        cases failed
        have early : p.tool ≠ none ∨ ∃ c ∈ tracer.earlyCalls, fails c = true :=
          refused.imp id fun ⟨c,among,failed⟩ => ⟨c,List.mem_append_right _ among,failed⟩
        exact ⟨fun same => ⟨unchanged.mp same.environ,early⟩,
          fun holds => ⟨unchanged.mpr holds.1,rfl,rfl,rfl,rfl,rfl⟩⟩
      · rw [not_or,not_not] at refused
        obtain ⟨free,passes⟩ := refused
        have passes : ∀ c ∈ startCalls, fails c = false := fun c among =>
          Bool.eq_false_of_not_eq_true fun failed => passes ⟨c,among,failed⟩
        have armed : p'.Armed := by
          have begun := start_armed tracer (p := p.written (tracer.performed fails)) free passes
          cases ran : start fails tracer (p.written (tracer.performed fails)) with
          | error e q =>
            rw [ran] at begun
            rw [Attempt.bind_error ran] at failed
            cases failed
            exact begun
          | ok running q =>
            rw [ran] at begun
            rw [Attempt.bind_ok ran] at failed
            have ended := install_armed fails me running q begun
            rw [failed] at ended
            exact ended
        apply iff_of_false
        · intro same
          exact armed (same.tool.trans free)
        · rintro ⟨_,owned | ⟨c,among,failed⟩⟩
          · exact owned free
          · rw [Tracer.earlyCalls] at among
            rcases List.mem_append.mp among with entry | later
            · rcases List.mem_cons.mp entry with rfl | entry
              · rw [environ] at failed; cases failed
              · obtain ⟨w,inside,rfl⟩ := List.mem_map.mp entry
                exact absurd (List.any_eq_true.mpr ⟨w,inside,failed⟩) (by rw [stopped]; decide)
            · rw [passes c later] at failed; cases failed

-- One tracer is running, and advertises its output to the children it spawns.
def outerRunning (advertised : ChildKey → Option String) : Process Unit :=
  ⟨advertised,some ⟨"trace0",pairs.map (·,1),pairs⟩,fun _ => .ours,deadlySignals.map (·,.default),some 0,
    fun tracer => if tracer = 0 then some ⟨1,false⟩ else none,[1],2,true⟩

-- Entering another inside it is refused by the interpreter, after the children were told of it.
theorem failed_enter_advertises :
    let outer : ChildKey → Option String := fun key =>
      match key with
      | .output => some "outer.json"
      | .format => some "json"
      | .recordMb => none
    ∃ p', enter (fun _ => false) 1 ⟨"inner.json",.Json,true,none⟩ (outerRunning outer) = .error () p' ∧
      p'.environ .output = some "inner.json" ∧ ¬(outerRunning outer).Same p' := by
  intro outer
  refine ⟨_,rfl,rfl,?_⟩
  intro same
  have kept := congrFun same.environ .output
  have different : some "inner.json" ≠ some "outer.json" := by decide
  exact different kept

-- A tracer that leaves spawned children alone finds nothing to take down, and is refused.
theorem failed_enter_quiet :
    ∃ p', enter (fun _ => false) 1 ⟨"inner.json",.Json,false,none⟩ (outerRunning fun _ => none) = .error () p' ∧
      (outerRunning fun _ => none).Same p' := by
  refine ⟨_,rfl,(failed_enter (fun _ => false) 1 ⟨"inner.json",.Json,false,none⟩ (outerRunning fun _ => none) _ rfl).mpr ?_⟩
  refine ⟨?_,.inl (by simp [outerRunning])⟩
  intro w among
  have absent : w ∈ [(ChildKey.output,(none : Option String)),(.format,none),(.recordMb,none)] := among
  simp only [List.mem_cons,List.not_mem_nil,or_false] at absent
  rcases absent with rfl | rfl | rfl <;> rfl

end Trace0
