import Trace0.JsonDecoding
import Trace0.ProtoSequences
import Trace0.SharedFile

namespace Trace0

open SharedFile

-- The calls of an `Exporter`, with the lookups they are given.
structure ThreadTable where
  name : UInt32 → Option String
  snapshot : List (UInt32 × String)

inductive Request where
  | writeBatch (events : List Event) (codes : UInt32 → Option CodeInfo) (threads : ThreadTable)
  | finish (codes : UInt32 → Option CodeInfo) (threads : ThreadTable) (dropped : UInt64)

-- What is written from one flush to the next is whole records.
inductive Flushed : List OutCall → List (List (List UInt8)) → Prop where
  | nil : Flushed [] []
  | cons (writes : ∀ call ∈ ws, ∃ bytes, call = .write bytes) (whole : written ws = g.flatten)
      (rest : Flushed calls gs) : Flushed (ws ++ .flush :: calls) (g :: gs)

theorem Flushed.append (left : Flushed calls groups) (right : Flushed more others) :
    Flushed (calls ++ more) (groups ++ others) := by
  induction left with
  | nil => exact right
  | cons writes whole _ ih =>
    rw [List.append_assoc,List.cons_append]
    exact .cons writes whole ih

theorem Flushed.one (writes : ∀ call ∈ ws, ∃ bytes, call = .write bytes) (whole : written ws = g.flatten) :
    Flushed (ws ++ [.flush]) [g] := .cons writes whole .nil

theorem writes_segment {ws calls : List OutCall} (writes : ∀ call ∈ ws, ∃ bytes, call = .write bytes)
    (whole : buf ++ written ws = g.flatten) (rest : Writes [] calls gs) :
    Writes buf (ws ++ .flush :: calls) (g :: gs) := by
  induction ws generalizing buf with
  | nil => exact ⟨g,gs,rfl,by simpa using whole,rest⟩
  | cons call ws ih =>
    obtain ⟨bytes,rfl⟩ := writes call List.mem_cons_self
    apply ih (fun call mem => writes call (List.mem_cons_of_mem _ mem))
    rw [List.append_assoc]
    exact whole

theorem Flushed.writes (flushed : Flushed calls groups) : Writes [] calls groups := by
  induction flushed with
  | nil => rfl
  | cons writes whole _ ih => exact writes_segment writes whole ih

theorem Flushed.written (flushed : Flushed calls groups) : written calls = groups.flatten.flatten := by
  induction flushed with
  | nil => rfl
  | cons _ whole _ ih => simp [whole,ih,OutCall.bytes]

namespace Json
namespace JsonExporter

variable (serde : Metadata → List (List UInt8))

def serve (ex : JsonExporter) : Request → JsonExporter
  | .writeBatch events codes _ => ex.writeBatch events codes
  | .finish _ threads dropped => ex.finish serde threads.snapshot dropped

def Record (r : List UInt8) : Prop :=
  (∃ pid ev info, r = eventEntry pid ev (.of info) ++ utf8 ",") ∨ ∃ entry, r = (serde entry).flatten ++ utf8 ","

def Made (ex : JsonExporter) : Prop := ∀ t ∈ ex.templates, ∃ info, t.2 = .of info

theorem template_made {ex : JsonExporter} (made : Made ex) (id : UInt32) (codes : CodeLookup) :
    (ex.template id codes).1.buf = ex.buf ∧ (ex.template id codes).1.out = ex.out ∧
      Made (ex.template id codes).1 ∧ ∃ info, (ex.template id codes).2 = .of info := by
  unfold template
  cases found : ex.templates.lookup id with
  | some template => exact ⟨rfl,rfl,made,made _ (Assoc.mem_of_lookup found)⟩
  | none =>
    refine ⟨rfl,rfl,?_,_,rfl⟩
    intro t mem
    rcases List.mem_append.mp mem with old | new
    · exact made t old
    · exact ⟨_,congrArg (·.2) (List.mem_singleton.mp new)⟩

theorem events_records (events : List Event) (codes : CodeLookup) {ex : JsonExporter} (made : Made ex) :
    ∃ g : List (List UInt8), (events.foldl (fun ex ev => ex.writeEvent ev codes) ex).buf = ex.buf ++ g.flatten ∧
      (events.foldl (fun ex ev => ex.writeEvent ev codes) ex).out = ex.out ∧
      Made (events.foldl (fun ex ev => ex.writeEvent ev codes) ex) ∧ ∀ r ∈ g, Record serde r := by
  induction events generalizing ex with
  | nil => exact ⟨[],by simp,rfl,made,nofun⟩
  | cons ev rest ih =>
    obtain ⟨same,still,kept,info,own⟩ := template_made made ev.codeId codes
    have pushed : Made (ex.writeEvent ev codes) := kept
    obtain ⟨g,buf,out,last,records⟩ := ih pushed
    refine ⟨(eventEntry (ex.template ev.codeId codes).1.pid ev (.of info) ++ utf8 ",") :: g,?_,?_,last,?_⟩
    · rw [List.foldl_cons,buf]
      simp [writeEvent,pushEvent,same,own]
    · rw [List.foldl_cons,out]
      exact still
    · intro r mem
      rcases List.mem_cons.mp mem with rfl | later
      · exact .inl ⟨_,_,_,rfl⟩
      · exact records r later

def Whole (out : List OutCall) : Prop :=
  ∃ groups, Flushed out groups ∧ ∀ r ∈ groups.flatten, Record serde r

theorem Whole.more {out m : List OutCall} {g : List (List UInt8)} (had : Whole serde out)
    (writes : ∀ call ∈ m, ∃ bytes, call = .write bytes) (whole : written m = g.flatten)
    (records : ∀ r ∈ g, Record serde r) : Whole serde (out ++ (m ++ [.flush])) := by
  obtain ⟨groups,flushed,before⟩ := had
  refine ⟨groups ++ [g],flushed.append (.one writes whole),?_⟩
  intro r mem
  rw [List.flatten_append,List.flatten_singleton,List.mem_append] at mem
  rcases mem with old | new
  · exact before r old
  · exact records r new

theorem writeBatch_whole {ex : JsonExporter} (had : Whole serde ex.out) (made : Made ex) (events : List Event)
    (codes : CodeLookup) : Whole serde (ex.writeBatch events codes).out ∧ Made (ex.writeBatch events codes) := by
  have cleared : Made {ex with buf := []} := made
  obtain ⟨g,buf,out,kept,records⟩ := events_records serde events codes cleared
  refine ⟨?_,kept⟩
  unfold writeBatch
  simp only [out,buf,List.nil_append]
  refine had.more serde (m := [.write g.flatten]) ?_ ?_ records
  · intro call mem
    exact ⟨_,List.mem_singleton.mp mem⟩
  · simp [OutCall.bytes]

theorem finish_whole {ex : JsonExporter} (had : Whole serde ex.out) (threads : List (UInt32 × String))
    (dropped : UInt64) : Whole serde (ex.finish serde threads dropped).out := by
  obtain ⟨writes,texts⟩ := entries_calls serde (metadata ex.pid threads dropped)
  rw [(finish_out serde ex threads dropped).2]
  refine had.more serde writes (g := (metadata ex.pid threads dropped).map fun e => (serde e).flatten ++ utf8 ",") ?_ ?_
  · rw [texts,List.flatMap_def]
  · intro r mem
    obtain ⟨entry,_,rfl⟩ := List.mem_map.mp mem
    exact .inr ⟨entry,rfl⟩

theorem finish_made {ex : JsonExporter} (made : Made ex) (threads : List (UInt32 × String)) (dropped : UInt64) :
    Made (ex.finish serde threads dropped) := by
  unfold Made
  rw [(finish_out serde ex threads dropped).1]
  exact made

theorem serve_whole {ex : JsonExporter} (had : Whole serde ex.out) (made : Made ex) (requests : List Request) :
    Whole serde (requests.foldl (serve serde) ex).out := by
  induction requests generalizing ex with
  | nil => exact had
  | cons request rest ih =>
    cases request with
    | writeBatch events codes threads =>
      obtain ⟨whole,kept⟩ := writeBatch_whole serde had made events codes
      exact ih whole kept
    | finish codes threads dropped =>
      exact ih (finish_whole serde had threads.snapshot dropped) (finish_made serde made threads.snapshot dropped)

end JsonExporter
end Json
namespace Proto
namespace ProtoExporter

variable (encode : TracePacket → List UInt8)

def serve (ex : ProtoExporter) : Request → Option ProtoExporter
  | .writeBatch events codes threads => ex.writeBatch encode events codes threads.name
  | .finish _ _ dropped => some (ex.finish encode dropped)

def Record (r : List UInt8) : Prop := ∃ body, r = framed body

def Whole (out : List OutCall) : Prop := ∃ groups, Flushed out groups ∧ ∀ r ∈ groups.flatten, Record r

def Framing (base : List OutCall) (ex : ProtoExporter) : Prop :=
  ex.panicked = false → Whole base ∧ ∃ (more : List OutCall) (g h : List (List UInt8)), ex.out = base ++ more ∧
    (∀ call ∈ more, ∃ bytes, call = .write bytes) ∧ written more = g.flatten ∧ ex.buf = h.flatten ∧
    ∀ r ∈ g ++ h, Record r

variable {ex next : ProtoExporter} {base : List OutCall}

theorem Framing.same (had : Framing base ex) (out : next.out = ex.out) (buf : next.buf = ex.buf)
    (panicked : next.panicked = ex.panicked) : Framing base next := by
  unfold Framing
  rw [out,buf,panicked]
  exact had

theorem Framing.packet {packet : TracePacket} (had : Framing base ex) (out : next.out = (ex.writePacket encode packet).out)
    (buf : next.buf = ex.buf) (panicked : next.panicked = ex.panicked) : Framing base next := by
  intro fine
  rw [panicked] at fine
  obtain ⟨settled,more,g,h,whole,writes,packets,events,records⟩ := had fine
  refine ⟨settled,more ++ [.write (packetTag :: varint (.ofNat (encode packet).length)),.write (encode packet)],
    g ++ [framed (encode packet)],h,?_,?_,?_,buf.trans events,?_⟩
  · rw [out,← List.append_assoc,← whole]
    rfl
  · intro call mem
    simp only [List.mem_append,List.mem_cons,List.not_mem_nil,or_false] at mem
    rcases mem with old | rfl | rfl
    · exact writes call old
    · exact ⟨_,rfl⟩
    · exact ⟨_,rfl⟩
  · simp [packets,OutCall.bytes,framed]
  · intro r mem
    simp only [List.mem_append,List.mem_singleton] at mem
    rcases mem with (old | rfl) | old
    · exact records r (List.mem_append_left _ old)
    · exact ⟨_,rfl⟩
    · exact records r (List.mem_append_right _ old)

theorem ensureProcess_framing (had : Framing base ex) : Framing base (ex.ensureProcess encode) := by
  rcases ensureProcess_cases encode ex with ⟨-,same⟩ | ⟨-,announced⟩
  · rw [same]
    exact had
  · rw [announced]
    exact had.packet encode rfl rfl rfl

theorem ensureSequence_framing (had : Framing base ex) (tid : UInt32) (threads : ThreadNames) :
    Framing base (ex.ensureSequence encode tid threads) := by
  rcases ensureSequence_cases encode ex tid threads with ⟨-,same⟩ | ⟨-,added⟩
  · rw [same]
    exact had
  · rw [added]
    exact had.packet encode rfl rfl rfl

theorem template_framing (had : Framing base ex) {seq : Sequence} (known : ex.sequences.lookup tid = some seq)
    (made : ex.template encode tid codeId opening codes = some (next,range)) : Framing base next := by
  rcases template_cases encode codeId opening codes known with
    ⟨_,-,found⟩ | ⟨-,-,added⟩ | ⟨mid,entry,-,-,interned,added⟩
  · rw [found] at made
    cases made
    exact had
  · rw [added] at made
    cases made
    exact had.same rfl rfl rfl
  · rw [added] at made
    cases made
    rcases codeIid_cases encode codeId codes known with ⟨_,-,same⟩ | ⟨_,-,-,fresh⟩
    · rw [same] at interned
      cases interned
      exact had.same rfl rfl rfl
    · rw [fresh] at interned
      cases interned
      exact had.packet encode rfl rfl rfl

theorem pushEvent_framing (had : Framing base ex) (id : UInt32) (tsNs : UInt64) (range : UInt32 × UInt32) :
    Framing base (ex.pushEvent id tsNs range) := by
  obtain ⟨start,len⟩ := range
  intro fine
  have both : ex.panicked = false ∧ start.toNat ≤ (start + len).toNat ∧ (start + len).toNat ≤ ex.templateBytes.length := by
    simpa [pushEvent] using fine
  obtain ⟨before,order,inside⟩ := both
  obtain ⟨settled,more,g,h,whole,writes,packets,events,records⟩ := had before
  have size : ((ex.templateBytes.take (start + len).toNat).drop start.toNat).length = len.toNat := by
    rw [List.length_drop,List.length_take,min_eq_left inside]
    have sum := UInt32.toNat_add start len
    have bound := start.toNat_lt
    have bound' := len.toNat_lt
    omega
  refine ⟨settled,more,g,h ++ [framed (Tag.timestamp :: (varint tsNs ++
    (ex.templateBytes.take (start + len).toNat).drop start.toNat))],whole,writes,packets,?_,?_⟩
  · have length : (Tag.timestamp :: (varint tsNs ++ (ex.templateBytes.take (start + len).toNat).drop start.toNat)).length =
        1 + (varint tsNs).length + len.toNat := by
      rw [List.length_cons,List.length_append,size]
      omega
    rw [List.flatten_append,List.flatten_singleton,framed,length,← events]
    rfl
  · intro r mem
    simp only [List.mem_append,List.mem_singleton] at mem
    rcases mem with old | old | rfl
    · exact records r (List.mem_append_left _ old)
    · exact records r (List.mem_append_right _ old)
    · exact ⟨_,rfl⟩

theorem writeEvent_framing (had : Framing base ex) (wrote : ex.writeEvent encode ev codes threads = some next) :
    Framing base next := by
  obtain ⟨made,range,seq,templated,-,rfl⟩ := writeEvent_cases encode wrote
  obtain ⟨_,known⟩ := ensureSequence_known encode ex ev.tid threads
  exact pushEvent_framing (template_framing encode (ensureSequence_framing encode had ev.tid threads) known templated) seq.id ev.tsNs
    range

theorem events_framing (had : Framing base ex) {events : List Event}
    (wrote : events.foldlM (fun ex ev => ex.writeEvent encode ev codes threads) ex = some next) : Framing base next := by
  induction events generalizing ex with
  | nil =>
    cases wrote
    exact had
  | cons ev rest ih =>
    rw [List.foldlM_cons] at wrote
    obtain ⟨mid,first,later⟩ := Option.bind_eq_some_iff.mp wrote
    exact ih (writeEvent_framing encode had first) later

theorem Framing.flush (had : Framing base ex) (own : next.panicked = ex.panicked) (kept : next.buf = ex.buf)
    (out : next.out = ex.out ++ [.write ex.buf,.flush] ∨ next.out = ex.out ++ [.flush]) : Framing next.out next := by
  intro fine
  rw [own] at fine
  obtain ⟨⟨groups,flushed,before⟩,more,g,h,whole,writes,packets,events,records⟩ := had fine
  have later : ∀ r ∈ h, Record r := fun r mem => records r (List.mem_append_right _ mem)
  refine ⟨?_,[],[],h,(List.append_nil _).symm,nofun,rfl,kept.trans events,later⟩
  rcases out with out | out
  · refine ⟨groups ++ [g ++ h],?_,?_⟩
    · rw [out,whole,List.append_assoc]
      apply flushed.append
      have segment : Flushed ((more ++ [.write ex.buf]) ++ [.flush]) [g ++ h] := by
        refine .one (fun call mem => ?_) (by simp [packets,events,OutCall.bytes])
        rcases List.mem_append.mp mem with old | new
        · exact writes call old
        · exact ⟨_,List.mem_singleton.mp new⟩
      simpa using segment
    · intro r mem
      rw [List.flatten_append,List.flatten_singleton,List.mem_append] at mem
      exact mem.elim (before r) (records r)
  · refine ⟨groups ++ [g],?_,?_⟩
    · rw [out,whole,List.append_assoc]
      exact flushed.append (.one writes packets)
    · intro r mem
      rw [List.flatten_append,List.flatten_singleton,List.mem_append] at mem
      exact mem.elim (before r) fun new => records r (List.mem_append_left _ new)

theorem writeBatch_framing (had : Framing ex.out ex) (wrote : ex.writeBatch encode events codes threads = some next) :
    Framing next.out next := by
  obtain ⟨last,run,flushed⟩ := Option.bind_eq_some_iff.mp wrote
  cases flushed
  have cleared : Framing ex.out {ex.ensureProcess encode with buf := []} := by
    intro fine
    obtain ⟨settled,more,g,h,whole,writes,packets,-,records⟩ := ensureProcess_framing encode had fine
    exact ⟨settled,more,g,[],whole,writes,packets,rfl,fun r mem => records r (by simpa using Or.inl (by simpa using mem))⟩
  exact (events_framing encode cleared run).flush rfl rfl (.inl rfl)

theorem finish_framing (had : Framing ex.out ex) (dropped : UInt64) :
    Framing (ex.finish encode dropped).out (ex.finish encode dropped) := by
  unfold finish
  by_cases lost : 0 < dropped
  · simp only [if_pos lost]
    have sent : Framing ex.out
        ((ex.ensureProcess encode).writePacket encode ((ex.ensureProcess encode).droppedPacket dropped)) :=
      (ensureProcess_framing encode had).packet encode rfl rfl rfl
    exact sent.flush rfl rfl (.inr rfl)
  · simp only [if_neg lost]
    exact had.flush rfl rfl (.inr rfl)

theorem serve_framing (had : Framing ex.out ex) {requests : List Request}
    (served : requests.foldlM (serve encode) ex = some next) : Framing next.out next := by
  induction requests generalizing ex with
  | nil =>
    cases served
    exact had
  | cons request rest ih =>
    rw [List.foldlM_cons] at served
    obtain ⟨mid,first,later⟩ := Option.bind_eq_some_iff.mp served
    cases request with
    | writeBatch events codes threads => exact ih (writeBatch_framing encode had first) later
    | finish codes threads dropped =>
      cases first
      exact ih (finish_framing encode had dropped) later

theorem serve_returns {slot : UInt32} {seen : List UInt32} (had : Numbered slot seen ex) (requests : List Request) :
    ∃ next, requests.foldlM (serve encode) ex = some next := by
  induction requests generalizing ex seen with
  | nil => exact ⟨ex,rfl⟩
  | cons request rest ih =>
    cases request with
    | writeBatch events codes threads =>
      obtain ⟨mid,first,there,-⟩ := writeBatch_numbered encode had events codes threads.name
      obtain ⟨next,later⟩ := ih there
      exact ⟨next,by simp [serve,first,later]⟩
    | finish codes threads dropped =>
      obtain ⟨next,later⟩ := ih (finish_numbered encode had dropped).1
      exact ⟨next,by simp [serve,later]⟩

theorem new_framing (pid : Int32) (slot : UInt32) : Framing (new pid slot).out (new pid slot) :=
  fun _ => ⟨⟨[],.nil,nofun⟩,[],[],[],rfl,nofun,rfl,rfl,nofun⟩

end ProtoExporter
end Proto

variable {ι : Type} [DecidableEq ι]

def NeverTorn (header : List UInt8) (Record : List UInt8 → Prop) (program : ι → List OutCall) : Prop :=
  ∃ records : ι → List (List UInt8),
    (∀ i, (records i).flatten = written (program i) ∧ ∀ r ∈ records i, Record r) ∧
    ∀ acts s, Machine.Runs step Machine.anything (shared header program) acts s →
      (s.lock = none → ∃ log : List (ι × List UInt8), s.file = header ++ (log.map (·.2)).flatten ∧
        ∀ i, Keyed.ownedBy i log <+: records i ∧
          ((s.writers i).phase = .dropped → Keyed.ownedBy i log = records i)) ∧
      ∀ chosen : List ι, ∃ more s', Machine.Runs step Machine.anything s more s' ∧ s'.lock = none ∧
        ∀ i ∈ chosen, (s'.writers i).phase = .dropped

theorem never_torn_of_flushed {Record : List UInt8 → Prop} (header : List UInt8) {program : ι → List OutCall}
    (whole : ∀ i, ∃ groups, Flushed (program i) groups ∧ ∀ r ∈ groups.flatten, Record r) :
    NeverTorn header Record program := by
  choose groups flushed records using whole
  refine ⟨fun i => (groups i).flatten,fun i => ⟨(flushed i).written.symm,records i⟩,?_⟩
  intro acts s path
  have fit := fun i => (flushed i).writes
  exact ⟨dropped_records fit path,all_end fit path⟩

theorem shared_never_torn (serde : Json.Metadata → List (List UInt8)) (encode : Proto.TracePacket → List UInt8)
    (lives : ι → List Request) :
    (create Json.JsonExporter.opening = (utf8 "[",[]) ∧ ∀ pids : ι → UInt32,
      NeverTorn (utf8 "[") (Json.JsonExporter.Record serde) fun i =>
        ((lives i).foldl (Json.JsonExporter.serve serde) (.new (pids i))).out) ∧
    (create [] = ([],[]) ∧ ∀ (pids : ι → Int32) (slots : ι → UInt32), ∃ done : ι → Proto.ProtoExporter,
      (∀ i, (lives i).foldlM (Proto.ProtoExporter.serve encode) (.new (pids i) (slots i)) = some (done i)) ∧
        ((∀ i, (done i).panicked = false) → NeverTorn [] Proto.ProtoExporter.Record fun i => (done i).out)) := by
  refine ⟨⟨rfl,?_⟩,rfl,?_⟩
  · intro pids
    apply never_torn_of_flushed
    intro i
    exact Json.JsonExporter.serve_whole serde ⟨[],.nil,nofun⟩ (fun _ mem => by cases mem) (lives i)
  · intro pids slots
    have returns := fun i => Proto.ProtoExporter.serve_returns encode
      (Proto.ProtoExporter.new_numbered (pids i) (slots i)) (lives i)
    choose done served using returns
    refine ⟨done,served,?_⟩
    intro fine
    apply never_torn_of_flushed
    intro i
    exact (Proto.ProtoExporter.serve_framing encode (Proto.ProtoExporter.new_framing (pids i) (slots i)) (served i)
      (fine i)).1

def oneCall : List Request :=
  [.writeBatch [⟨5,10,packCodeKind 0 .Begin⟩,⟨9,10,packCodeKind 0 .End⟩] (fun _ => none) ⟨fun _ => none,[]⟩,
    .finish (fun _ => none) ⟨fun _ => none,[]⟩ 1]

-- The second writer commits while the first has its packets in the buffer still.
def twoMoves : List (Bool × Move) :=
  List.replicate 7 (false,.extend) ++ List.replicate 7 (true,.extend) ++
    [(true,.acquire),(true,.append 20),(true,.append 19),(true,.clear),(true,.release),(false,.acquire),(true,.extend),
      (false,.append 37),(true,.extend),(false,.clear),(false,.release),(true,.acquire),(true,.append 3),(true,.clear),
      (true,.release),(true,.drop),(false,.extend),(false,.extend),(false,.acquire),(false,.append 3),(false,.clear),
      (false,.release),(false,.drop)]

theorem shared_never_torn_two : ∃ (done : Bool → Proto.ProtoExporter) (s : System Bool) (log : List (Bool × List UInt8)),
    (∀ i, oneCall.foldlM (Proto.ProtoExporter.serve fun _ => [0]) (.new 7 i.toNat.toUInt32) = some (done i)) ∧
      (∀ i, (s.writers i).phase = .dropped) ∧ s.file.length = 82 ∧ s.file = (log.map (·.2)).flatten ∧
      ∀ i, (Keyed.ownedBy i log).flatten = written (done i).out := by
  obtain ⟨-,-,proto⟩ := shared_never_torn (fun _ => [[]]) (fun _ => [0]) fun _ : Bool => oneCall
  obtain ⟨done,served,torn⟩ := proto (fun _ => 7) fun i => i.toNat.toUInt32
  have fine : ∀ i, (done i).panicked = false := by
    intro i
    have fine : (oneCall.foldlM (Proto.ProtoExporter.serve fun _ => [0]) (.new 7 i.toNat.toUInt32)).all
        (!·.panicked) = true := by
      cases i <;> decide +kernel
    rw [served i,Option.all_some,Bool.not_eq_true'] at fine
    exact fine
  have ran : (Machine.run step (shared (create []).1 fun i : Bool =>
      ((oneCall.foldlM (Proto.ProtoExporter.serve fun _ => [0]) (.new 7 i.toNat.toUInt32)).map (·.out)).getD []) twoMoves).map
        (fun s => (s.lock,(s.writers true).phase,(s.writers false).phase,s.file.length)) =
          some (none,.dropped,.dropped,82) := by decide +kernel
  obtain ⟨s,path,facts⟩ := Option.map_eq_some_iff.mp ran
  simp only [served,Option.map_some,Option.getD_some] at path
  simp only [Prod.mk.injEq] at facts
  obtain ⟨free,second,first,size⟩ := facts
  obtain ⟨records,own,runs⟩ := torn fine
  obtain ⟨log,file,parts⟩ := (runs twoMoves s (Machine.runs_of_run path)).1 free
  have dropped : ∀ i, (s.writers i).phase = .dropped := Bool.forall_bool.mpr ⟨first,second⟩
  refine ⟨done,s,log,served,dropped,size,file,?_⟩
  intro i
  rw [(parts i).2 (dropped i)]
  exact (own i).1

end Trace0
