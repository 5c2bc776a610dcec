import Trace0.PipelineDelivery
import Trace0.Streamed

namespace Trace0

variable {T E : Type} [DecidableEq T] {tidOf : T → UInt32}

section Pipes

variable {p p' : Pipeline T}

theorem drained_pushed {w : World T} (sound : Sound tidOf w) {b : EventBatch} (drained : b ∈ w.ledger.drained.map (·.2))
    {e : UInt64 × UInt32} (inside : e ∈ b.entries) : ∃ t, b.tid = tidOf t ∧ (t,e) ∈ w.ledger.pushed := by
  obtain ⟨⟨t,b⟩,present,rfl⟩ := List.mem_map.mp drained
  refine ⟨t,(drained_shape sound _ present).1,?_⟩
  have accepted : b ∈ acceptedOf (ownedBy t w.ledger.shipped) := by
    have kept : acceptedOf (ownedBy t w.ledger.shipped) = ownedBy t w.ledger.drained ++ w.queue.held t :=
      (sound.threads t).kept
    rw [kept]
    exact List.mem_append_left _ (mem_ownedBy.mpr present)
  obtain ⟨s,shipped,rfl⟩ := List.mem_map.mp accepted
  have told : handed (ownedBy t w.ledger.shipped) <+: ownedBy t w.ledger.pushed := ⟨_,(sound.threads t).told⟩
  exact mem_ownedBy.mp (told.subset (List.mem_flatMap.mpr ⟨s,(List.mem_filter.mp shipped).1,inside⟩))

end Pipes

section Files

variable {x : Exporter E} {Given : List Event → E → Prop} {s s' : Streaming T E} {events : List Event}

def Streaming.atHand (s : Streaming T E) : List Event := s.pipeline.written.flatten ++ s.chunk.getD []

def NamedSo (tidOf : T → UInt32) (s : Streaming T E) (tid : UInt32) (name : String) : Prop :=
  ∀ origin ∈ s.origins, tidOf origin.1 = tid → origin.2.name = some name

def CodeTold (s : Streaming T E) (events : List Event) (id : UInt32) (found : Option CodeInfo) : Prop :=
  ∀ ev ∈ events, ev.codeId = id → ∃ info, found = some info ∧ s.interner.code id = some info

def NameTold (tidOf : T → UInt32) (s : Streaming T E) (events : List Event) (tid : UInt32) (found : Option String) :
    Prop :=
  (∀ name, found = some name → s.registry.name tid = some name) ∧
    ∀ ev ∈ events, ev.tid = tid → ∀ name, NamedSo tidOf s tid name → found = some name

def Ended (x : Exporter E) (s : Streaming T E) (out : List OutCall) : Prop :=
  s.pipeline.writer = .returned true ∧ ∃ ex registry dropped, s.exporter = some ex ∧
    s.pipeline.finish = some dropped ∧ Registers registry s.registry ∧
      out = x.out (x.finish ex s.interner.code registry.snapshot (.ofNat dropped))

structure Streams (x : Exporter E) (tidOf : T → UInt32) (s : Streaming T E) : Prop where
  coded : Coded tidOf s
  sound : EndSound tidOf s.pipeline.world s.pipeline.ender
  fan : Fan s.pipeline
  decoded : s.pipeline.written = s.pipeline.exported.map (·.decodeInto s.pipeline.world.queue.clock)
  codes : ∀ id found, s.codes id = some found → CodeTold s s.atHand id found
  names : ∀ tid found, s.names tid = some found → NameTold tidOf s s.atHand tid found
  calls : ∀ call ∈ s.calls, (∀ id, CodeTold s call.events id (call.codes id)) ∧
    ∀ tid, NameTold tidOf s call.events tid (call.names tid)
  wrote : ∀ ex, s.exporter = some ex → s.calls.map (·.events) = s.pipeline.written ∧ x.write x.start s.calls = some ex
  finished : ∀ out, s.finished = some out → Ended x s out

omit [DecidableEq T] in
theorem CodeTold.onward {id : UInt32} {found : Option CodeInfo} (knows : Knows s s') (told : CodeTold s events id found) :
    CodeTold s' events id found := by
  intro ev mem same
  obtain ⟨info,shown,named⟩ := told ev mem same
  exact ⟨info,shown,knows.codes id info named⟩

omit [DecidableEq T] in
theorem NameTold.onward {tid : UInt32} {found : Option String} (knows : Knows s s')
    (told : NameTold tidOf s events tid found) : NameTold tidOf s' events tid found :=
  ⟨fun name shown => knows.registry tid name (told.1 name shown),
    fun ev mem same name so => told.2 ev mem same name fun origin present => so origin (knows.origins present)⟩

theorem Coded.origin_at (coded : Coded tidOf s) {t : T} {n : Nat} {e : UInt64 × UInt32}
    (here : (ownedBy t s.pipeline.world.ledger.pushed)[n]? = some e) :
    ∃ origin, (ownedBy t s.origins)[n]? = some origin ∧ s.interner.code (codeIdOf e.2) = some origin.info ∧
      ∀ name, origin.name = some name → s.registry.name (tidOf t) = some name := by
  have each := Keyed.ownedBy_matched coded.origins (fun _ _ traces => traces.same) t
  obtain ⟨inside,same⟩ := List.getElem?_eq_some_iff.mp here
  have within : n < (ownedBy t s.origins).length := each.length_eq ▸ inside
  have traces := each.get inside within
  rw [List.get_eq_getElem,List.get_eq_getElem,same] at traces
  exact ⟨_,List.getElem?_eq_getElem within,traces.code,traces.name⟩

theorem Streams.hand_batch (streams : Streams x tidOf s) {ev : Event} (mem : ev ∈ s.atHand) :
    ∃ b ∈ s.pipeline.world.ledger.drained.map (·.2), ev ∈ b.decodeInto s.pipeline.world.queue.clock := by
  rw [← streams.fan.order]
  rcases List.mem_append.mp mem with wrote | now
  · rw [streams.decoded] at wrote
    obtain ⟨events,listed,inside⟩ := List.mem_flatten.mp wrote
    obtain ⟨b,exported,rfl⟩ := List.mem_map.mp listed
    exact ⟨b,List.mem_append_left _ exported,inside⟩
  · unfold Streaming.chunk at now
    split at now
    · cases popped : s.pipeline.ring.pop with
      | none =>
        rw [popped] at now
        cases now
      | some next =>
        rw [popped] at now
        have split := (plain_pop streams.fan.plain popped).1
        refine ⟨next.1,List.mem_append_right _ (List.mem_append_left _ ?_),now⟩
        rw [split]
        exact List.mem_cons_self
    · cases now

theorem Streams.hand_pushed (streams : Streams x tidOf s) {ev : Event} (mem : ev ∈ s.atHand) :
    ∃ t origin, (t,origin) ∈ s.origins ∧ ev.tid = tidOf t ∧ s.interner.code ev.codeId = some origin.info ∧
      ∀ name, origin.name = some name → s.registry.name (tidOf t) = some name := by
  obtain ⟨b,drained,inside⟩ := streams.hand_batch mem
  rw [EventBatch.decodeInto_entries] at inside
  obtain ⟨e,listed,rfl⟩ := List.mem_map.mp inside
  obtain ⟨t,own,pushed⟩ := drained_pushed streams.sound.sound drained listed
  obtain ⟨n,here⟩ := List.mem_iff_getElem?.mp (mem_ownedBy.mpr pushed)
  obtain ⟨origin,there,code,name⟩ := streams.coded.origin_at here
  exact ⟨t,origin,mem_ownedBy.mp (List.mem_of_getElem? there),own,code,name⟩

theorem Streams.codesTold (streams : Streams x tidOf s) (id : UInt32) : CodeTold s s.atHand id (s.codesTold id) := by
  unfold Streaming.codesTold
  cases looked : s.codes id with
  | some found => exact streams.codes id found looked
  | none =>
    rintro ev mem rfl
    obtain ⟨_,origin,_,_,code,_⟩ := streams.hand_pushed mem
    exact ⟨origin.info,code,code⟩

theorem Streams.namesTold (streams : Streams x tidOf s) (tid : UInt32) :
    NameTold tidOf s s.atHand tid (s.namesTold tid) := by
  unfold Streaming.namesTold
  cases looked : s.names tid with
  | some found => exact streams.names tid found looked
  | none =>
    refine ⟨fun _ known => known,?_⟩
    rintro ev mem rfl name so
    obtain ⟨t,origin,present,own,_,named⟩ := streams.hand_pushed mem
    have under := so (t,origin) present own.symm
    exact own ▸ named name under

theorem Streams.given (lawful : x.Lawful Given) (streams : Streams x tidOf s) {ex : E} (open_ : s.exporter = some ex) :
    Given s.pipeline.written.flatten ex := by
  obtain ⟨batches,wrote⟩ := streams.wrote ex open_
  obtain ⟨next,run,given⟩ := lawful.writes lawful.start s.calls
  cases run.symm.trans wrote
  rw [← batches,← List.flatMap_def]
  exact given

theorem Ended.onward (lawful : x.Lawful Given) (streams : Streams x tidOf s) (knows : Knows s s')
    (writer : s'.pipeline.writer = s.pipeline.writer) (finish : s'.pipeline.finish = s.pipeline.finish)
    (exporter : s'.exporter = s.exporter) {out : List OutCall} (ended : Ended x s out) : Ended x s' out := by
  obtain ⟨returned,ex,registry,dropped,open_,told,earlier,rfl⟩ := ended
  refine ⟨writer.trans returned,ex,registry,dropped,exporter.trans open_,finish.trans told,
    earlier.trans knows.registry,?_⟩
  have same : ∀ ev ∈ s.pipeline.written.flatten, s.interner.code ev.codeId = s'.interner.code ev.codeId := by
    intro ev mem
    obtain ⟨_,origin,_,_,code,_⟩ := streams.hand_pushed (List.mem_append_left _ mem)
    rw [code,knows.codes _ _ code]
  rw [lawful.finishes (streams.given lawful open_) same]

theorem Streams.unfinished (streams : Streams x tidOf s) (going : ∀ ok, s.pipeline.writer ≠ .returned ok) :
    s.finished = none := by
  cases done : s.finished with
  | none => rfl
  | some out => exact absurd (streams.finished out done).1 (going true)

end Files

end Trace0
