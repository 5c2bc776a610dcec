import Trace0.ProtoMessages
import Trace0.ProtoSequences

namespace Trace0
namespace Proto

-- What a reader of the trace knows of one packet sequence.
structure Interned where
  track : Option UInt64
  categories : List (UInt64 × String)
  names : List (UInt64 × String)
  locations : List (UInt64 × String × UInt32)
  deriving DecidableEq

structure Tables where
  sequences : List (UInt32 × Interned)
  tracks : List (UInt64 × TrackDescriptor)
  deriving DecidableEq

structure Slice where
  tsNs : UInt64
  opens : Bool
  track : UInt64
  thread : ThreadDescriptor
  categories : List String
  name : Option String
  location : Option (String × UInt32)
  deriving DecidableEq

def define (known : List (UInt64 × V)) (iid : UInt64) (value : V) : Option (List (UInt64 × V)) :=
  if (known.lookup iid).isSome then none else some (known ++ [(iid,value)])

def Interned.learn (s : Interned) (data : InternedData) : Option Interned := do
  let categories ← data.eventCategories.foldlM (fun known c => do define known (← c.iid) (← c.name)) s.categories
  let names ← data.eventNames.foldlM (fun known n => do define known (← n.iid) (← n.name)) s.names
  let locations ← data.sourceLocations.foldlM
    (fun known l => do define known (← l.iid) (← l.fileName,← l.lineNumber)) s.locations
  some {s with categories := categories,names := names,locations := locations}

def TracePacket.has (p : TracePacket) (flag : UInt32) : Bool := (p.sequenceFlags.getD 0) &&& flag ≠ 0

def TracePacket.defaultTrack (p : TracePacket) : Option UInt64 := do
  (← (← p.tracePacketDefaults).trackEventDefaults).trackUuid

namespace Tables

-- The first packet of a sequence clears its state, and no other does.
def sequence (t : Tables) (id : UInt32) (p : TracePacket) : Option Interned :=
  match t.sequences.lookup id,p.has seqIncrementalStateCleared with
  | none,true => some ⟨p.defaultTrack,[],[],[]⟩
  | some s,false => some s
  | _,_ => none

def put (t : Tables) (id : UInt32) (s : Interned) : Tables :=
  if (t.sequences.lookup id).isSome then {t with sequences := Assoc.alter id (fun _ => s) t.sequences}
  else {t with sequences := t.sequences ++ [(id,s)]}

-- A name or a place given as an iid is looked up, one given outright is taken as it is.
def interned (known : List (UInt64 × V)) (iid : Option UInt64) : Option (Option V) :=
  match iid with
  | none => some none
  | some iid => (known.lookup iid).map some

def slice (t : Tables) (s : Interned) (p : TracePacket) (ev : TrackEvent) (opens : Bool) : Option Slice := do
  guard (p.has seqNeedsIncrementalState)
  let tsNs ← p.timestamp
  let track ← ev.trackUuid.or s.track
  let thread ← (← t.tracks.lookup track).thread
  let categories ← ev.categoryIids.mapM fun iid => s.categories.lookup iid
  let name ← interned s.names ev.nameIid
  let location ← interned s.locations ev.sourceLocationIid
  some ⟨tsNs,opens,track,thread,categories ++ ev.categories,name.or ev.name,location⟩

def readPacket (t : Tables) (p : TracePacket) : Option (Tables × List Slice) := do
  let id ← p.trustedPacketSequenceId
  let s ← t.sequence id p
  let s ← s.learn (p.internedData.getD ⟨[],[],[]⟩)
  let t := t.put id s
  match p.data with
  | none => some (t,[])
  | some (.trackDescriptor track) => some ({t with tracks := t.tracks ++ [(← track.uuid,track)]},[])
  | some (.trackEvent ev) =>
    match ev.type with
    | some .sliceBegin => some (t,[← t.slice s p ev true])
    | some .sliceEnd => some (t,[← t.slice s p ev false])
    | _ => some (t,[])

def readPackets (t : Tables) : List TracePacket → Option (Tables × List Slice)
  | [] => some (t,[])
  | p :: rest => do
    let (t,first) ← t.readPacket p
    let (t,slices) ← readPackets t rest
    some (t,first ++ slices)

end Tables

def readFrame : Wire.Field → Option (List UInt8)
  | (1,.bytes body) => some body
  | _ => none

def readTrace (file : List UInt8) : Option (List Slice) := do
  let bodies ← (← Wire.readFields file).mapM readFrame
  let packets ← bodies.mapM decode
  let (_,slices) ← Tables.readPackets ⟨[],[]⟩ packets
  some slices

namespace ProtoExporter

-- The track of a thread, by the place of its sequence id behind the process's.
def trackOf (ex : ProtoExporter) (id : UInt32) : UInt64 :=
  ex.processUuid + (id - ex.processSequenceId).toUInt64

def processTrack (ex : ProtoExporter) : TrackDescriptor :=
  ⟨some ex.processUuid,none,some ("python:" ++ toString ex.pid),some ⟨some ex.pid,some "python"⟩,none⟩

def threadDescriptor (ex : ProtoExporter) (threads : ThreadNames) (tid : UInt32) : ThreadDescriptor :=
  ⟨some ex.pid,some tid.toInt32,threads tid⟩

def threadTrack (ex : ProtoExporter) (threads : ThreadNames) (tid id : UInt32) : TrackDescriptor :=
  ⟨some (ex.trackOf id),some ex.processUuid,none,none,some (ex.threadDescriptor threads tid)⟩

def qualname (info : Option CodeInfo) : String := (info.map (·.qualname)).getD "<unknown>"
def place (info : Option CodeInfo) : Option (String × UInt32) := info.map fun i => (i.filename,i.firstlineno)

def stateOf (ex : ProtoExporter) (codes : CodeLookup) (seq : Sequence) : Interned where
  track := some (ex.trackOf seq.id)
  categories := [(categoryIid,category)]
  names := seq.codeIids.map fun c => (c.2.1,qualname (codes c.1))
  locations := seq.codeIids.filterMap fun c => (place (codes c.1)).map (c.2.1,·)

def tables (ex : ProtoExporter) (codes : CodeLookup) (threads : ThreadNames) : Tables :=
  if ex.processEmitted then
    ⟨(ex.processSequenceId,⟨none,[],[],[]⟩) :: ex.sequences.map fun s => (s.2.id,ex.stateOf codes s.2),
      (ex.processUuid,ex.processTrack) :: ex.sequences.map fun s => (ex.trackOf s.2.id,ex.threadTrack threads s.1 s.2.id)⟩
  else ⟨[],[]⟩

structure Alike (ex next : ProtoExporter) : Prop where
  slot : next.slot = ex.slot
  pid : next.pid = ex.pid
  uuid : next.processUuid = ex.processUuid
  emitted : next.processEmitted = ex.processEmitted

theorem Alike.sequenceId {ex next : ProtoExporter} (alike : Alike ex next) :
    next.processSequenceId = ex.processSequenceId := by
  rw [processSequenceId,processSequenceId,alike.slot]

theorem Alike.trackOf {ex next : ProtoExporter} (alike : Alike ex next) : next.trackOf = ex.trackOf := by
  funext id
  rw [ProtoExporter.trackOf,ProtoExporter.trackOf,alike.uuid,alike.sequenceId]

theorem Alike.stateOf {ex next : ProtoExporter} (alike : Alike ex next) : next.stateOf = ex.stateOf := by
  funext codes seq
  rw [ProtoExporter.stateOf,ProtoExporter.stateOf,alike.trackOf]

theorem Alike.threadTrack {ex next : ProtoExporter} (alike : Alike ex next) : next.threadTrack = ex.threadTrack := by
  funext threads tid id
  rw [ProtoExporter.threadTrack,ProtoExporter.threadTrack,threadDescriptor,threadDescriptor,alike.trackOf,alike.uuid,
    alike.pid]

theorem Alike.tables {ex next : ProtoExporter} (alike : Alike ex next) (emitted : ex.processEmitted = true)
    (codes : CodeLookup) (threads : ThreadNames) : next.tables codes threads =
      ⟨(ex.processSequenceId,⟨none,[],[],[]⟩) :: next.sequences.map fun s => (s.2.id,ex.stateOf codes s.2),
        (ex.processUuid,ex.processTrack) ::
          next.sequences.map fun s => (ex.trackOf s.2.id,ex.threadTrack threads s.1 s.2.id)⟩ := by
  have track : next.processTrack = ex.processTrack := by
    rw [processTrack,processTrack,alike.uuid,alike.pid]
  rw [ProtoExporter.tables,alike.emitted,if_pos emitted,alike.sequenceId,alike.stateOf,alike.uuid,track,alike.trackOf,
    alike.threadTrack]

theorem tables_keys (ex : ProtoExporter) (emitted : ex.processEmitted = true) (codes : CodeLookup)
    (threads : ThreadNames) :
    (ex.tables codes threads).sequences.map (·.1) = ex.processSequenceId :: ex.threadIds := by
  rw [Alike.tables ⟨rfl,rfl,rfl,rfl⟩ emitted,List.map_cons,List.map_map]
  rfl

structure Coded (codes : CodeLookup) (seq : Sequence) : Prop where
  iids : seq.codeIids.map (·.2.1) = (List.range seq.codeIids.length).map fun k => .ofNat k + 1
  once : (seq.codeIids.map (·.1)).Nodup
  placed : ∀ c ∈ seq.codeIids, c.2.2 = (codes c.1).isSome

variable {ex : ProtoExporter} {seq : Sequence} {codes : CodeLookup} {threads : ThreadNames} {seen : List UInt32}

theorem distinct_words {words : List UInt32} (once : words.Nodup) : words.length ≤ 2 ^ 32 := by
  have inside : words.map UInt32.toNat ⊆ List.range (2 ^ 32) := by
    intro n mem
    obtain ⟨w,-,rfl⟩ := List.mem_map.mp mem
    exact List.mem_range.mpr w.toNat_lt
  have apart : (words.map UInt32.toNat).Nodup := once.map fun _ _ same => UInt32.toNat_inj.mp same
  simpa using (apart.subperm inside).length_le

theorem Coded.few (coded : Coded codes seq) : seq.codeIids.length ≤ 2 ^ 32 := by
  simpa using distinct_words coded.once

theorem Coded.distinct (coded : Coded codes seq) : (seq.codeIids.map (·.2.1)).Nodup := by
  rw [coded.iids]
  have few := coded.few
  apply List.Nodup.map_on _ List.nodup_range
  intro j jn k kn same
  rw [List.mem_range] at jn kn
  have value := UInt64.toNat_inj.mpr same
  simp only [UInt64.toNat_add,UInt64.toNat_ofNat',UInt64.toNat_one] at value
  omega

theorem Coded.unused (coded : Coded codes seq) : UInt64.ofNat seq.codeIids.length + 1 ∉ seq.codeIids.map (·.2.1) := by
  rw [coded.iids,List.mem_map]
  rintro ⟨k,kn,same⟩
  have few := coded.few
  rw [List.mem_range] at kn
  have value := UInt64.toNat_inj.mpr same
  simp only [UInt64.toNat_add,UInt64.toNat_ofNat',UInt64.toNat_one] at value
  omega

theorem Coded.snoc (coded : Coded codes seq) (fresh : seq.codeIids.lookup codeId = none) :
    Coded codes (seq.insert codeId (.ofNat seq.codeIids.length + 1,(codes codeId).isSome)) where
  iids := by
    unfold Sequence.insert
    rw [List.map_append,coded.iids,List.length_append,List.length_singleton,List.range_succ,List.map_append]
    rfl
  once := by
    unfold Sequence.insert
    rw [List.map_append,List.nodup_append]
    refine ⟨coded.once,List.nodup_singleton _,?_⟩
    intro other mem new one same
    obtain rfl := List.mem_singleton.mp one
    exact Assoc.lookup_none.mp fresh (same ▸ mem)
  placed c mem := by
    rcases List.mem_append.mp mem with old | new
    · exact coded.placed c old
    · obtain rfl := List.mem_singleton.mp new
      rfl

theorem stateOf_names (ex : ProtoExporter) (coded : Coded codes seq) (known : seq.codeIids.lookup codeId = some entry) :
    (ex.stateOf codes seq).names.lookup entry.1 = some (qualname (codes codeId)) := by
  apply Assoc.lookup_of_mem
  · unfold stateOf
    rw [List.map_map]
    exact coded.distinct
  · exact List.mem_map_of_mem (f := fun c => (c.2.1,qualname (codes c.1))) (Assoc.mem_of_lookup known)

theorem locations_keys (items : List (UInt32 × UInt64 × Bool)) (codes : CodeLookup) :
    ((items.filterMap fun c => (place (codes c.1)).map (c.2.1,·)).map (·.1)).Sublist (items.map (·.2.1)) := by
  induction items with
  | nil => exact .refl _
  | cons c rest ih =>
    cases found : place (codes c.1) with
    | none => simpa [found] using ih.cons _
    | some p => simpa [found] using ih

theorem stateOf_locations (ex : ProtoExporter) (coded : Coded codes seq)
    (known : seq.codeIids.lookup codeId = some entry) (there : place (codes codeId) = some p) :
    (ex.stateOf codes seq).locations.lookup entry.1 = some p := by
  apply Assoc.lookup_of_mem
  · exact (locations_keys seq.codeIids codes).nodup coded.distinct
  · apply List.mem_filterMap.mpr
    exact ⟨_,Assoc.mem_of_lookup known,by rw [there]; rfl⟩

section tables

variable {slot : UInt32} (there : Numbered slot seen ex) (few : ex.sequences.length < 2 ^ 32)

include there few in
theorem ids_distinct : (ex.processSequenceId :: ex.threadIds).Nodup := by
  rw [there.all_ids,run_distinct,← there.count]
  exact few

theorem trackOf_apart (ex : ProtoExporter) {left right : UInt32} (same : ex.trackOf left = ex.trackOf right) :
    left = right := by
  unfold trackOf at same
  have words := UInt64.toNat_inj.mpr ((UInt64.add_right_inj _).mp same)
  rw [UInt32.toNat_toUInt64,UInt32.toNat_toUInt64] at words
  exact (UInt32.sub_left_inj _).mp (UInt32.toNat_inj.mp words)

theorem trackOf_process (ex : ProtoExporter) : ex.trackOf ex.processSequenceId = ex.processUuid := by
  unfold trackOf
  rw [UInt32.sub_self]
  exact UInt64.add_zero _

include there few in
theorem tracks_distinct :
    (ex.processUuid :: ex.sequences.map fun s => ex.trackOf s.2.id).Nodup := by
  have images := (ids_distinct there few).map fun _ _ same => trackOf_apart ex same
  rw [List.map_cons,trackOf_process,threadIds,List.map_map] at images
  exact images

include there in
theorem tables_known (mem : (tid,seq) ∈ ex.sequences) : ex.processEmitted = true :=
  there.emitted (List.ne_nil_of_mem mem)

include there few in
theorem tables_sequence (codes : CodeLookup) (threads : ThreadNames) (mem : (tid,seq) ∈ ex.sequences) :
    (ex.tables codes threads).sequences.lookup seq.id = some (ex.stateOf codes seq) := by
  rw [tables,if_pos (tables_known there mem)]
  apply Assoc.lookup_of_mem
  · rw [List.map_cons,List.map_map]
    exact ids_distinct there few
  · exact List.mem_cons_of_mem _ (List.mem_map.mpr ⟨_,mem,rfl⟩)

include there few in
theorem tables_track (codes : CodeLookup) (threads : ThreadNames) (mem : (tid,seq) ∈ ex.sequences) :
    (ex.tables codes threads).tracks.lookup (ex.trackOf seq.id) = some (ex.threadTrack threads tid seq.id) := by
  rw [tables,if_pos (tables_known there mem)]
  apply Assoc.lookup_of_mem
  · rw [List.map_cons,List.map_map]
    exact tracks_distinct there few
  · exact List.mem_cons_of_mem _ (List.mem_map.mpr ⟨_,mem,rfl⟩)

end tables

end ProtoExporter

end Proto
end Trace0
