import Trace0.ProtoMessages
import Trace0.ProtoTables

namespace Trace0
namespace Proto
namespace ProtoExporter

section Reading

variable {encode : TracePacket → List UInt8} {ex : ProtoExporter} {seq : Sequence} {codes : CodeLookup}
  {threads : ThreadNames} {slot : UInt32} {seen : List UInt32}

theorem has_flags {p : TracePacket} (own : p.sequenceFlags = some flags) (flag : UInt32) :
    p.has flag = decide (flags &&& flag ≠ 0) := by
  unfold TracePacket.has
  rw [own]
  rfl

theorem clears {p : TracePacket} (own : p.sequenceFlags = some seqIncrementalStateCleared) :
    p.has seqIncrementalStateCleared = true := by
  rw [has_flags own]
  decide

theorem keeps {p : TracePacket} (own : p.sequenceFlags = some seqNeedsIncrementalState) :
    p.has seqIncrementalStateCleared = false ∧ p.has seqNeedsIncrementalState = true := by
  rw [has_flags own,has_flags own]
  decide

theorem learn_nothing (s : Interned) : s.learn ⟨[],[],[]⟩ = some s := rfl

theorem put_new {t : Tables} {id : UInt32} (fresh : t.sequences.lookup id = none) (s : Interned) :
    t.put id s = {t with sequences := t.sequences ++ [(id,s)]} := by
  simp [Tables.put,fresh]

theorem put_old {t : Tables} {id : UInt32} (known : t.sequences.lookup id = some old) (s : Interned) :
    t.put id s = {t with sequences := Assoc.alter id (fun _ => s) t.sequences} := by
  simp [Tables.put,known]

theorem sequence_first {t : Tables} {p : TracePacket} {id : UInt32} (fresh : t.sequences.lookup id = none)
    (clears : p.has seqIncrementalStateCleared = true) : t.sequence id p = some ⟨p.defaultTrack,[],[],[]⟩ := by
  simp [Tables.sequence,fresh,clears]

theorem sequence_later {t : Tables} {p : TracePacket} {id : UInt32} (known : t.sequences.lookup id = some s)
    (keeps : p.has seqIncrementalStateCleared = false) : t.sequence id p = some s := by
  simp [Tables.sequence,known,keeps]

theorem read_descriptor {t : Tables} {p : TracePacket} {id : UInt32} {s s' : Interned} {track : TrackDescriptor}
    (own : p.trustedPacketSequenceId = some id) (state : t.sequence id p = some s)
    (learnt : s.learn (p.internedData.getD ⟨[],[],[]⟩) = some s') (data : p.data = some (.trackDescriptor track))
    (uuid : track.uuid = some u) :
    t.readPacket p = some ({t.put id s' with tracks := (t.put id s').tracks ++ [(u,track)]},[]) := by
  simp [Tables.readPacket,own,state,learnt,data,uuid]

theorem read_interned {t : Tables} {p : TracePacket} {id : UInt32} {s s' : Interned}
    (own : p.trustedPacketSequenceId = some id) (state : t.sequence id p = some s)
    (learnt : s.learn (p.internedData.getD ⟨[],[],[]⟩) = some s') (data : p.data = none) :
    t.readPacket p = some (t.put id s',[]) := by
  simp [Tables.readPacket,own,state,learnt,data]

theorem read_instant {t : Tables} {p : TracePacket} {id : UInt32} {s s' : Interned} {ev : TrackEvent}
    (own : p.trustedPacketSequenceId = some id) (state : t.sequence id p = some s)
    (learnt : s.learn (p.internedData.getD ⟨[],[],[]⟩) = some s') (data : p.data = some (.trackEvent ev))
    (type : ev.type = some .instant) : t.readPacket p = some (t.put id s',[]) := by
  simp [Tables.readPacket,own,state,learnt,data,type]

theorem read_slice {t : Tables} {p : TracePacket} {id : UInt32} {s s' : Interned} {ev : TrackEvent} (opens : Bool)
    (own : p.trustedPacketSequenceId = some id) (state : t.sequence id p = some s)
    (learnt : s.learn (p.internedData.getD ⟨[],[],[]⟩) = some s') (data : p.data = some (.trackEvent ev))
    (type : ev.type = some (if opens then .sliceBegin else .sliceEnd)) :
    t.readPacket p = ((t.put id s').slice s' p ev opens).map fun slice => (t.put id s',[slice]) := by
  cases opens <;> simp [Tables.readPacket,own,state,learnt,data,type,Option.map_eq_bind]

theorem slice_eq (ev : TrackEvent) {t : Tables} {s : Interned} {p : TracePacket} {track : TrackDescriptor}
    {categories : List String} (needs : p.has seqNeedsIncrementalState = true) (stamp : p.timestamp = some tsNs)
    (default : ev.trackUuid.or s.track = some uuid) (described : t.tracks.lookup uuid = some track)
    (thread : track.thread = some th)
    (categorised : (ev.categoryIids.mapM fun iid => s.categories.lookup iid) = some categories)
    (named : Tables.interned s.names ev.nameIid = some name)
    (placed : Tables.interned s.locations ev.sourceLocationIid = some location) (opens : Bool) :
    t.slice s p ev opens = some ⟨tsNs,opens,uuid,th,categories ++ ev.categories,name.or ev.name,location⟩ := by
  simp [Tables.slice,needs,stamp,default,described,thread,categorised,named,placed]

theorem read_process (there : Numbered slot seen ex) (first : ex.processEmitted = false) :
    (ex.tables codes threads).readPacket ex.processPacket =
      some (({ex with processEmitted := true}.writePacket encode ex.processPacket).tables codes threads,[]) := by
  have none : ex.sequences = [] := by
    by_contra some
    rw [there.emitted some] at first
    cases first
  have before : ex.tables codes threads = ⟨[],[]⟩ := by
    rw [tables,first]
    rfl
  have opened : (⟨[],[]⟩ : Tables).sequence ex.processSequenceId ex.processPacket = some ⟨.none,[],[],[]⟩ :=
    sequence_first rfl (clears rfl)
  rw [before,read_descriptor rfl opened (learn_nothing _) rfl rfl]
  simp [tables,none,Tables.put,writePacket,processTrack,processSequenceId]

theorem nextTrack_eq (few : ex.sequences.length + 1 < 2 ^ 32) : ex.trackOf ex.nextId = ex.nextTrack := by
  have index : ex.nextId - ex.processSequenceId = .ofNat (ex.sequences.length + 1) := by
    unfold nextId processSequenceId
    rw [UInt32.ofNat_add]
    grind
  have wide : (UInt32.ofNat (ex.sequences.length + 1)).toUInt64 = .ofNat ex.sequences.length + 1 := by
    apply UInt64.toNat_inj.mp
    rw [UInt32.toNat_toUInt64,UInt32.toNat_ofNat_of_lt' few,UInt64.toNat_add,UInt64.toNat_ofNat',UInt64.toNat_one]
    omega
  unfold trackOf nextTrack
  rw [index,wide]
  grind

theorem nextId_new (there : Numbered slot seen ex) (few : ex.sequences.length + 1 < 2 ^ 32) :
    ex.nextId ∉ ex.processSequenceId :: ex.threadIds := by
  have next : ex.nextId = slotId slot (ex.sequences.length + 1) := by
    rw [← slotId_thread,threadSequenceId,nextId,there.ownSlot]
  have apart := (run_distinct slot (ex.sequences.length + 1)).mpr few
  rw [List.range_succ,List.map_append,List.nodup_append,there.count,← there.all_ids] at apart
  intro old
  exact apart.2.2 _ old _ (List.mem_singleton.mpr (by rw [next,there.count])) rfl

theorem read_thread (there : Numbered slot seen ex) (emitted : ex.processEmitted = true)
    (few : ex.sequences.length + 1 < 2 ^ 32) {next : ProtoExporter} (alike : Alike ex next)
    (added : next.sequences = ex.sequences ++ [(tid,⟨ex.nextId,header,[]⟩)]) :
    (ex.tables codes threads).readPacket (ex.threadPacket tid threads) = some (next.tables codes threads,[]) := by
  have before := Alike.tables ⟨rfl,rfl,rfl,rfl⟩ emitted codes threads
  have fresh : (ex.tables codes threads).sequences.lookup ex.nextId = none := by
    rw [Assoc.lookup_none,tables_keys ex emitted]
    exact nextId_new there few
  have track : (ex.threadPacket tid threads).defaultTrack = some (ex.trackOf ex.nextId) := by
    rw [nextTrack_eq few]
    rfl
  have own : (ex.threadPacket tid threads).data = some (.trackDescriptor (ex.threadTrack threads tid ex.nextId)) := by
    rw [threadTrack,nextTrack_eq few]
    rfl
  rw [read_descriptor rfl (sequence_first fresh (clears rfl)) rfl own rfl,put_new fresh,alike.tables emitted,before,added,
    track]
  simp [stateOf,threadTrack]

theorem define_new {known : List (UInt64 × V)} (fresh : iid ∉ known.map (·.1)) (value : V) :
    define known iid value = some (known ++ [(iid,value)]) := by
  rw [define,Assoc.lookup_none.mpr fresh]
  rfl

theorem learn_name {s : Interned} {iid : UInt64} (unnamed : iid ∉ s.names.map (·.1))
    (unplaced : iid ∉ s.locations.map (·.1)) (id : UInt32) (info : Option CodeInfo) :
    s.learn ((namePacket id iid info).internedData.getD ⟨[],[],[]⟩) =
      some {s with
        names := s.names ++ [(iid,qualname info)]
        locations := s.locations ++ ((place info).map (iid,·)).toList} := by
  have named := define_new unnamed (qualname info)
  cases info with
  | none =>
    rw [qualname,Option.map_none,Option.getD_none] at named
    simp [Interned.learn,namePacket,place,qualname,named]
  | some i =>
    have placed := define_new unplaced (i.filename,i.firstlineno)
    rw [qualname,Option.map_some,Option.getD_some] at named
    simp [Interned.learn,namePacket,place,qualname,named,placed]

theorem learn_code (ex : ProtoExporter) (coded : Coded codes seq) (codeId id : UInt32) (hasLocation : Bool) :
    (ex.stateOf codes seq).learn
      ((namePacket id (.ofNat seq.codeIids.length + 1) (codes codeId)).internedData.getD ⟨[],[],[]⟩) =
        some (ex.stateOf codes (seq.insert codeId (.ofNat seq.codeIids.length + 1,hasLocation))) := by
  have unnamed : UInt64.ofNat seq.codeIids.length + 1 ∉ (ex.stateOf codes seq).names.map (·.1) := by
    unfold stateOf
    rw [List.map_map]
    exact coded.unused
  have unplaced : UInt64.ofNat seq.codeIids.length + 1 ∉ (ex.stateOf codes seq).locations.map (·.1) :=
    fun old => coded.unused ((locations_keys seq.codeIids codes).subset old)
  rw [learn_name unnamed unplaced]
  simp only [stateOf,Sequence.insert,List.map_append,List.filterMap_append,List.map_cons,List.map_nil]
  cases info : codes codeId <;> simp [place,info]

theorem read_name (there : Numbered slot seen ex) (few : ex.sequences.length < 2 ^ 32)
    (mem : (tid,seq) ∈ ex.sequences) (coded : Coded codes seq) {next : ProtoExporter} (alike : Alike ex next)
    (added : next.sequences = (ex.insertCode tid codeId (.ofNat seq.codeIids.length + 1,hasLocation)).sequences) :
    (ex.tables codes threads).readPacket (namePacket seq.id (.ofNat seq.codeIids.length + 1) (codes codeId)) =
      some (next.tables codes threads,[]) := by
  have emitted := tables_known there mem
  have known := tables_sequence there few codes threads mem
  have state := sequence_later (p := namePacket seq.id (.ofNat seq.codeIids.length + 1) (codes codeId)) known
    (keeps rfl).1
  have ids := ids_distinct there few
  have other : ex.processSequenceId ≠ seq.id := by
    intro same
    exact (List.nodup_cons.mp ids).1 (same ▸ List.mem_map_of_mem (f := (·.2.id)) mem)
  have apart : ∀ e ∈ ex.sequences, e.2.id = seq.id ↔ e.1 = tid := by
    intro e eMem
    constructor
    · intro same
      have whole := List.inj_on_of_nodup_map (List.nodup_cons.mp ids).2 eMem mem same
      rw [whole]
    · intro same
      have whole := List.inj_on_of_nodup_map there.distinct eMem mem same
      rw [whole]
  have sequences : Assoc.alter seq.id
      (fun _ => ex.stateOf codes (seq.insert codeId (.ofNat seq.codeIids.length + 1,hasLocation)))
      (ex.sequences.map fun s => (s.2.id,ex.stateOf codes s.2)) = next.sequences.map fun s =>
        (s.2.id,ex.stateOf codes s.2) := by
    rw [added,insertCode_sequences]
    apply Assoc.alter_renamed apart
    intro e eMem same
    have whole := List.inj_on_of_nodup_map there.distinct eMem mem same
    rw [whole]
    rfl
  have tracks : next.sequences.map (fun s => (ex.trackOf s.2.id,ex.threadTrack threads s.1 s.2.id)) =
      ex.sequences.map fun s => (ex.trackOf s.2.id,ex.threadTrack threads s.1 s.2.id) := by
    rw [added,insertCode_sequences]
    apply Assoc.alter_map
    intro e _ same
    rw [← same]
    rfl
  rw [read_interned rfl state (learn_code ex coded codeId seq.id hasLocation) rfl,put_old known,alike.tables emitted,
    Alike.tables ⟨rfl,rfl,rfl,rfl⟩ emitted,tracks,← sequences]
  simp [Assoc.alter,other]

theorem put_same {id : UInt32} (there : Numbered slot seen ex) (few : ex.sequences.length < 2 ^ 32)
    (emitted : ex.processEmitted = true) (known : (ex.tables codes threads).sequences.lookup id = some s) :
    (ex.tables codes threads).put id s = ex.tables codes threads := by
  rw [put_old known,Assoc.alter_same _ known]
  rw [tables_keys ex emitted]
  exact ids_distinct there few

theorem read_dropped (there : Numbered slot seen ex) (few : ex.sequences.length < 2 ^ 32)
    (emitted : ex.processEmitted = true) (dropped : UInt64) :
    (ex.tables codes threads).readPacket (ex.droppedPacket dropped) = some (ex.tables codes threads,[]) := by
  have known : (ex.tables codes threads).sequences.lookup ex.processSequenceId = some ⟨none,[],[],[]⟩ := by
    rw [Alike.tables ⟨rfl,rfl,rfl,rfl⟩ emitted]
    exact List.lookup_cons_self
  have state : (ex.tables codes threads).sequence ex.processSequenceId (ex.droppedPacket dropped) =
      some ⟨none,[],[],[]⟩ := by
    apply sequence_later known
    simp [TracePacket.has,droppedPacket]
  have same := put_same there few emitted known
  rw [read_instant rfl state (learn_nothing _) rfl rfl,same]

def Opened (seq : Sequence) (codeId : UInt32) : Bool → Option (UInt64 × Bool) → Prop
  | false,opened => opened = none
  | true,opened => ∃ entry, opened = some entry ∧ seq.codeIids.lookup codeId = some entry

def sliceOf (ex : ProtoExporter) (codes : CodeLookup) (threads : ThreadNames) (id : UInt32) (ev : Event) : Slice where
  tsNs := ev.tsNs
  opens := ev.kind.opensSlice
  track := ex.trackOf id
  thread := ex.threadDescriptor threads ev.tid
  categories := if ev.kind.opensSlice then [category] else []
  name := if ev.kind.opensSlice then some (qualname (codes ev.codeId)) else none
  location := if ev.kind.opensSlice then place (codes ev.codeId) else none

theorem read_event (there : Numbered slot seen ex) (few : ex.sequences.length < 2 ^ 32) (ev : Event)
    (mem : (ev.tid,seq) ∈ ex.sequences) (coded : Coded codes seq)
    (opened : Opened seq ev.codeId ev.kind.opensSlice o) :
    (ex.tables codes threads).readPacket (eventPacket seq.id ev.tsNs o) =
      some (ex.tables codes threads,[ex.sliceOf codes threads seq.id ev]) := by
  have emitted := tables_known there mem
  have known := tables_sequence there few codes threads mem
  have track := tables_track there few codes threads mem
  have state := sequence_later (p := eventPacket seq.id ev.tsNs o) known (keeps rfl).1
  have same := put_same there few emitted known
  have needs : (eventPacket seq.id ev.tsNs o).has seqNeedsIncrementalState = true := (keeps rfl).2
  have read := read_slice (p := eventPacket seq.id ev.tsNs o) ev.kind.opensSlice rfl state (learn_nothing _) rfl
  rw [same] at read
  cases opening : ev.kind.opensSlice with
  | false =>
    rw [opening] at opened read
    obtain rfl : o = none := opened
    have slice := slice_eq (trackEvent none) (t := ex.tables codes threads) (s := ex.stateOf codes seq)
      needs rfl rfl track rfl rfl rfl rfl false
    rw [read rfl,slice]
    simp [sliceOf,opening,trackEvent]
  | true =>
    rw [opening] at opened read
    obtain ⟨entry,rfl,interned⟩ := opened
    have named := stateOf_names ex coded interned
    have category : ([categoryIid].mapM fun iid => (ex.stateOf codes seq).categories.lookup iid) = some [category] := rfl
    have name : Tables.interned (ex.stateOf codes seq).names (some entry.1) = some (some (qualname (codes ev.codeId))) := by
      rw [Tables.interned,named]
      rfl
    have location : Tables.interned (ex.stateOf codes seq).locations (if entry.2 then some entry.1 else none) =
        some (place (codes ev.codeId)) := by
      rw [coded.placed _ (Assoc.mem_of_lookup interned)]
      cases info : codes ev.codeId with
      | none => rfl
      | some i =>
        have placed := stateOf_locations ex coded interned (p := (i.filename,i.firstlineno)) (by rw [info]; rfl)
        simp [Tables.interned,placed,place]
    have slice := slice_eq (trackEvent (some entry)) (t := ex.tables codes threads) (s := ex.stateOf codes seq)
      needs rfl rfl track rfl category name location true
    rw [read rfl,slice]
    simp [sliceOf,opening,trackEvent]

end Reading

section Keeping

structure Keeps (ex next : ProtoExporter) : Prop where
  slot : next.slot = ex.slot
  pid : next.pid = ex.pid
  uuid : next.processUuid = ex.processUuid
  seated : ∀ tid seq, ex.sequences.lookup tid = some seq → ∃ seq', next.sequences.lookup tid = some seq' ∧
    seq'.id = seq.id ∧ ∀ code entry, seq.codeIids.lookup code = some entry → seq'.codeIids.lookup code = some entry
  threads : ex.sequences.length ≤ next.sequences.length
  text : ex.templateBytes.length ≤ next.templateBytes.length
  out : ex.out <+: next.out

theorem Keeps.of_same {ex next : ProtoExporter} (slot : next.slot = ex.slot) (pid : next.pid = ex.pid)
    (uuid : next.processUuid = ex.processUuid) (sequences : next.sequences = ex.sequences)
    (text : ex.templateBytes.length ≤ next.templateBytes.length)
    (out : ex.out <+: next.out) : Keeps ex next where
  slot := slot
  pid := pid
  uuid := uuid
  seated _ seq found := ⟨seq,sequences ▸ found,rfl,fun _ _ known => known⟩
  threads := le_of_eq (congrArg List.length sequences.symm)
  text := text
  out := out

theorem Keeps.refl (ex : ProtoExporter) : Keeps ex ex := .of_same rfl rfl rfl rfl le_rfl (List.prefix_refl _)

theorem Keeps.trans {ex mid next : ProtoExporter} (first : Keeps ex mid) (second : Keeps mid next) : Keeps ex next where
  slot := second.slot.trans first.slot
  pid := second.pid.trans first.pid
  uuid := second.uuid.trans first.uuid
  seated tid seq found := by
    obtain ⟨seq',found',own,codes⟩ := first.seated tid seq found
    obtain ⟨seq'',found'',own',codes'⟩ := second.seated tid seq' found'
    exact ⟨seq'',found'',own'.trans own,fun code entry known => codes' code entry (codes code entry known)⟩
  threads := first.threads.trans second.threads
  text := first.text.trans second.text
  out := first.out.trans second.out

-- Within the sizes that the numbers of a file are wide enough for; a slice that is
-- written is never longer.
structure Fits (ex : ProtoExporter) : Prop where
  threads : ex.sequences.length < 2 ^ 32
  text : ex.templateBytes.length < 2 ^ 32
  slices : ∀ call ∈ ex.out, call.bytes.length < 2 ^ 64

theorem Keeps.fits {ex next : ProtoExporter} (kept : Keeps ex next) (fits : Fits next) : Fits ex :=
  ⟨lt_of_le_of_lt kept.threads fits.threads,lt_of_le_of_lt kept.text fits.text,fun call mem => fits.slices call (kept.out.subset mem)⟩

variable (encode : TracePacket → List UInt8) (ex : ProtoExporter)

theorem writePacket_keeps (packet : TracePacket) : Keeps ex (ex.writePacket encode packet) := by
  refine Keeps.of_same rfl rfl rfl rfl le_rfl ?_
  simp [writePacket]

theorem insertCode_keeps (tid codeId : UInt32) (entry : UInt64 × Bool) : Keeps ex (ex.insertCode tid codeId entry) where
  slot := rfl
  pid := rfl
  uuid := rfl
  seated other seq found := by
    rw [insertCode_lookup,found,Option.map_some]
    by_cases same : other = tid
    · refine ⟨_,rfl,by rw [if_pos same]; rfl,?_⟩
      intro code known there
      rw [if_pos same,Sequence.insert,Assoc.lookup_snoc,there]
      rfl
    · refine ⟨_,rfl,by rw [if_neg same],?_⟩
      intro code known there
      rw [if_neg same]
      exact there
  threads := by
    rw [insertCode_sequences,Assoc.alter,List.length_map]
  text := le_rfl
  out := List.prefix_refl _

theorem ensureProcess_keeps : Keeps ex (ex.ensureProcess encode) := by
  rcases ensureProcess_cases encode ex with ⟨-,same⟩ | ⟨-,announced⟩
  · rw [same]
    exact .refl ex
  · rw [announced]
    exact .of_same rfl rfl rfl rfl le_rfl (by simp [writePacket])

theorem ensureSequence_keeps (tid : UInt32) (threads : ThreadNames) :
    Keeps ex (ex.ensureSequence encode tid threads) := by
  rcases ensureSequence_cases encode ex tid threads with ⟨-,same⟩ | ⟨-,added⟩
  · rw [same]
    exact .refl ex
  · rw [added]
    refine ⟨rfl,rfl,rfl,?_,?_,le_rfl,?_⟩
    · intro other seq found
      refine ⟨seq,?_,rfl,fun _ _ known => known⟩
      rw [Assoc.lookup_snoc,found]
      rfl
    · simp
    · simp [writePacket]

theorem codeIid_keeps {ex next : ProtoExporter} (known : ex.sequences.lookup tid = some seq)
    (interned : ex.codeIid encode tid codeId codes = some (next,entry)) : Keeps ex next := by
  rcases codeIid_cases encode codeId codes known with ⟨_,-,same⟩ | ⟨_,-,-,added⟩
  · rw [same] at interned
    cases interned
    exact .refl ex
  · rw [added] at interned
    cases interned
    exact (writePacket_keeps encode ex _).trans (insertCode_keeps _ tid codeId _)

theorem addTemplate_keeps (key : UInt64) (header event : List UInt8) : Keeps ex (ex.addTemplate key header event).1 := by
  refine Keeps.of_same rfl rfl rfl rfl ?_ (List.prefix_refl _)
  simp only [addTemplate,List.append_assoc,List.length_append]
  omega

theorem template_keeps {ex next : ProtoExporter} (known : ex.sequences.lookup tid = some seq)
    (made : ex.template encode tid codeId opening codes = some (next,range)) : Keeps ex next := by
  rcases template_cases encode codeId opening codes known with
    ⟨_,-,found⟩ | ⟨-,-,added⟩ | ⟨mid,entry,-,-,interned,added⟩
  · rw [found] at made
    cases made
    exact .refl ex
  · rw [added] at made
    cases made
    exact addTemplate_keeps ex ..
  · rw [added] at made
    cases made
    exact (codeIid_keeps encode known interned).trans (addTemplate_keeps mid ..)

theorem pushEvent_keeps (id : UInt32) (tsNs : UInt64) (range : UInt32 × UInt32) :
    Keeps ex (ex.pushEvent id tsNs range) := .of_same rfl rfl rfl rfl le_rfl (List.prefix_refl _)

theorem writeEvent_keeps {ex next : ProtoExporter} (wrote : ex.writeEvent encode ev codes threads = some next) :
    Keeps ex next := by
  obtain ⟨made,range,seq,templated,-,rfl⟩ := writeEvent_cases encode wrote
  obtain ⟨_,known⟩ := ensureSequence_known encode ex ev.tid threads
  exact ((ensureSequence_keeps encode ex ev.tid threads).trans (template_keeps encode known templated)).trans
    (pushEvent_keeps made ..)

theorem events_keeps {ex next : ProtoExporter} {events : List Event}
    (wrote : events.foldlM (fun ex ev => ex.writeEvent encode ev codes threads) ex = some next) : Keeps ex next := by
  induction events generalizing ex with
  | nil =>
    cases wrote
    exact .refl _
  | cons ev rest ih =>
    rw [List.foldlM_cons] at wrote
    obtain ⟨mid,first,later⟩ := Option.bind_eq_some_iff.mp wrote
    exact (writeEvent_keeps encode first).trans (ih later)

theorem writeBatch_keeps {ex next : ProtoExporter} (wrote : ex.writeBatch encode events codes threads = some next) :
    Keeps ex next := by
  obtain ⟨last,run,flushed⟩ := Option.bind_eq_some_iff.mp wrote
  cases flushed
  have cleared : Keeps (ex.ensureProcess encode) {ex.ensureProcess encode with buf := []} :=
    .of_same rfl rfl rfl rfl le_rfl (List.prefix_refl _)
  have sent : Keeps last {last with out := last.out ++ [.write last.buf,.flush]} :=
    .of_same rfl rfl rfl rfl le_rfl (by simp)
  exact ((ensureProcess_keeps encode ex).trans cleared).trans ((events_keeps encode run).trans sent)

theorem batches_keeps {ex next : ProtoExporter} {batches : List (List Event)}
    (wrote : batches.foldlM (fun ex events => writeBatch encode ex events codes threads) ex = some next) :
    Keeps ex next := by
  induction batches generalizing ex with
  | nil =>
    cases wrote
    exact .refl _
  | cons events rest ih =>
    rw [List.foldlM_cons] at wrote
    obtain ⟨mid,first,later⟩ := Option.bind_eq_some_iff.mp wrote
    exact (writeBatch_keeps encode first).trans (ih later)

end Keeping

end ProtoExporter
end Proto
end Trace0
