import Trace0.Event
import Trace0.Intern
import Trace0.Lib.Assoc
import Trace0.Exporter

namespace Trace0
namespace Proto

-- The messages of `perfetto.proto`.
structure EventName where
  iid : Option UInt64
  name : Option String
  deriving DecidableEq

structure EventCategory where
  iid : Option UInt64
  name : Option String
  deriving DecidableEq

structure SourceLocation where
  iid : Option UInt64
  fileName : Option String
  lineNumber : Option UInt32
  deriving DecidableEq

structure InternedData where
  eventCategories : List EventCategory
  eventNames : List EventName
  sourceLocations : List SourceLocation
  deriving DecidableEq

structure ProcessDescriptor where
  pid : Option Int32
  processName : Option String
  deriving DecidableEq

structure ThreadDescriptor where
  pid : Option Int32
  tid : Option Int32
  threadName : Option String
  deriving DecidableEq

structure TrackDescriptor where
  uuid : Option UInt64
  parentUuid : Option UInt64
  name : Option String
  process : Option ProcessDescriptor
  thread : Option ThreadDescriptor
  deriving DecidableEq

structure TrackEventDefaults where
  trackUuid : Option UInt64
  deriving DecidableEq

structure TracePacketDefaults where
  trackEventDefaults : Option TrackEventDefaults
  deriving DecidableEq

inductive TrackEventType where
  | sliceBegin
  | sliceEnd
  | instant
  deriving DecidableEq

def TrackEventType.toU8 : TrackEventType → UInt8
  | sliceBegin => 1
  | sliceEnd => 2
  | instant => 3

structure TrackEvent where
  type : Option TrackEventType
  trackUuid : Option UInt64
  categoryIids : List UInt64
  nameIid : Option UInt64
  name : Option String
  categories : List String
  sourceLocationIid : Option UInt64
  deriving DecidableEq

inductive Data where
  | trackEvent (event : TrackEvent)
  | trackDescriptor (track : TrackDescriptor)
  deriving DecidableEq

structure TracePacket where
  timestamp : Option UInt64
  trustedPacketSequenceId : Option UInt32
  internedData : Option InternedData
  sequenceFlags : Option UInt32
  tracePacketDefaults : Option TracePacketDefaults
  data : Option Data
  deriving DecidableEq

def packetTag : UInt8 := ((1 : UInt8) <<< 3) ||| 2
def processSequenceId : UInt32 := 1
def category : String := "py"

namespace Tag

def timestamp : UInt8 := (8 : UInt8) <<< 3
def trackEvent : UInt8 := ((11 : UInt8) <<< 3) ||| 2
def type : UInt8 := (9 : UInt8) <<< 3
def categoryIids : UInt8 := (3 : UInt8) <<< 3
def nameIid : UInt8 := (10 : UInt8) <<< 3
def sequenceFlags : UInt8 := (13 : UInt8) <<< 3
def sequenceId : UInt8 := (10 : UInt8) <<< 3
def sourceLocation : UInt16 := (34 : UInt16) <<< 3
def sourceLocationIid : List UInt8 :=
  [(sourceLocation &&& 0x7f).toUInt8 ||| 0x80,(sourceLocation >>> 7).toUInt8]

end Tag

def seqIncrementalStateCleared : UInt32 := 1
def seqNeedsIncrementalState : UInt32 := 2
def needsStateField : List UInt8 := [Tag.sequenceFlags,seqNeedsIncrementalState.toUInt8]
def categoryIid : UInt64 := 1
def sequencesPerSlot : UInt32 := 128

-- `Varint::of`: nine shifts by seven empty 64 bits, so the loop always ends by itself.
def varintLoop : Nat → UInt64 → List UInt8
  | 0,v => [v.toUInt8]
  | n+1,v => if 0x80 ≤ v then (v.toUInt8 ||| 0x80) :: varintLoop n (v >>> 7) else [v.toUInt8]

def varint (v : UInt64) : List UInt8 := varintLoop 9 v

structure Sequence where
  id : UInt32
  header : List UInt8
  codeIids : List (UInt32 × UInt64 × Bool)
  deriving DecidableEq

def Sequence.insert (seq : Sequence) (codeId : UInt32) (entry : UInt64 × Bool) : Sequence :=
  {seq with codeIids := seq.codeIids ++ [(codeId,entry)]}

-- The maps are lists in the order of insertion. `ids` are the sequence ids of what was
-- written, in that order, and `panicked` holds from where a slice of `template_bytes` is
-- out of range; no step reads either.
structure ProtoExporter where
  out : List OutCall
  buf : List UInt8
  templates : List (UInt64 × UInt32 × UInt32)
  templateBytes : List UInt8
  sequences : List (UInt32 × Sequence)
  processEmitted : Bool
  pid : Int32
  processUuid : UInt64
  slot : UInt32
  ids : List UInt32
  panicked : Bool

def processUuidOf (pid : Int32) : UInt64 := (pid.toUInt32.toUInt64 <<< 32) ||| 1

-- `CodeLookup` and `ThreadNames`.
abbrev CodeLookup := UInt32 → Option CodeInfo
abbrev ThreadNames := UInt32 → Option String

def framed (body : List UInt8) : List UInt8 := packetTag :: (varint (.ofNat body.length) ++ body)

namespace ProtoExporter

def new (pid : Int32) (slot : UInt32) : ProtoExporter :=
  ⟨[],[],[],[],[],false,pid,processUuidOf pid,slot,[],false⟩

variable (encode : TracePacket → List UInt8)

-- `prost` encodes the packet.
def writePacket (ex : ProtoExporter) (packet : TracePacket) : ProtoExporter :=
  let scratch := encode packet
  {ex with
    out := ex.out ++ [.write (packetTag :: varint (.ofNat scratch.length)),.write scratch]
    ids := ex.ids ++ packet.trustedPacketSequenceId.toList}

def processSequenceId (ex : ProtoExporter) : UInt32 := ex.slot * sequencesPerSlot + Proto.processSequenceId

def processPacket (ex : ProtoExporter) : TracePacket where
  timestamp := some 0
  trustedPacketSequenceId := some ex.processSequenceId
  sequenceFlags := some seqIncrementalStateCleared
  tracePacketDefaults := none
  internedData := none
  data := some (.trackDescriptor
    {uuid := some ex.processUuid
     parentUuid := none
     name := some ("python:" ++ toString ex.pid)
     process := some ⟨some ex.pid,some "python"⟩
     thread := none})

def ensureProcess (ex : ProtoExporter) : ProtoExporter :=
  if ex.processEmitted then ex
  else {ex with processEmitted := true}.writePacket encode ex.processPacket

def nextId (ex : ProtoExporter) : UInt32 :=
  ex.slot * sequencesPerSlot + Proto.processSequenceId + 1 + .ofNat ex.sequences.length

def nextTrack (ex : ProtoExporter) : UInt64 := ex.processUuid + 1 + .ofNat ex.sequences.length

def threadPacket (ex : ProtoExporter) (tid : UInt32) (threads : ThreadNames) : TracePacket where
  timestamp := some 0
  trustedPacketSequenceId := some ex.nextId
  sequenceFlags := some seqIncrementalStateCleared
  tracePacketDefaults := some ⟨some ⟨some ex.nextTrack⟩⟩
  internedData := some ⟨[⟨some categoryIid,some category⟩],[],[]⟩
  data := some (.trackDescriptor
    {uuid := some ex.nextTrack
     parentUuid := some ex.processUuid
     name := none
     process := none
     thread := some ⟨some ex.pid,some tid.toInt32,threads tid⟩})

-- Without the `debug_assert` on the index, which a release build leaves out.
def ensureSequence (ex : ProtoExporter) (tid : UInt32) (threads : ThreadNames) : ProtoExporter :=
  if (ex.sequences.lookup tid).isSome then ex
  else
    let id := ex.nextId
    let ex := ex.writePacket encode (ex.threadPacket tid threads)
    {ex with
      sequences := ex.sequences ++ [(tid,⟨id,Tag.sequenceId :: (varint id.toUInt64 ++ needsStateField),[]⟩)]}

def namePacket (id : UInt32) (iid : UInt64) (info : Option CodeInfo) : TracePacket where
  timestamp := some 0
  trustedPacketSequenceId := some id
  sequenceFlags := some seqNeedsIncrementalState
  tracePacketDefaults := none
  internedData := some
    {eventNames := [⟨some iid,some ((info.map (·.qualname)).getD "<unknown>")⟩]
     eventCategories := []
     sourceLocations := (info.map fun i => ⟨some iid,some i.filename,some i.firstlineno⟩).toList}
  data := none

def insertCode (ex : ProtoExporter) (tid codeId : UInt32) (entry : UInt64 × Bool) : ProtoExporter :=
  {ex with sequences := Assoc.alter tid (·.insert codeId entry) ex.sequences}

-- `none` where `self.sequences[&tid]` would panic.
def codeIid (ex : ProtoExporter) (tid codeId : UInt32) (codes : CodeLookup) :
    Option (ProtoExporter × UInt64 × Bool) :=
  (ex.sequences.lookup tid).map fun seq =>
    match seq.codeIids.lookup codeId with
    | some entry => (ex,entry)
    | none =>
      let iid := .ofNat seq.codeIids.length + 1
      let info := codes codeId
      let hasLocation := info.isSome
      let ex := ex.writePacket encode (namePacket seq.id iid info)
      (ex.insertCode tid codeId (iid,hasLocation),iid,hasLocation)

def templateKey (tid codeId : UInt32) (opens : Bool) : UInt64 :=
  (tid.toUInt64 <<< 32) ||| ((if opens then codeId else 0).toUInt64 <<< 1) ||| opens.toUInt64

def eventFields (opened : Option (UInt64 × Bool)) : List UInt8 :=
  match opened with
  | none => [Tag.type,TrackEventType.sliceEnd.toU8]
  | some (iid,hasLocation) =>
    [Tag.type,TrackEventType.sliceBegin.toU8] ++ (Tag.categoryIids :: varint categoryIid) ++
      (Tag.nameIid :: varint iid) ++ if hasLocation then Tag.sourceLocationIid ++ varint iid else []

def addTemplate (ex : ProtoExporter) (key : UInt64) (header event : List UInt8) : ProtoExporter × UInt32 × UInt32 :=
  let start := .ofNat ex.templateBytes.length
  let bytes := ex.templateBytes ++ header ++ [Tag.trackEvent] ++ varint (.ofNat event.length) ++ event
  let range := (start,.ofNat bytes.length - start)
  ({ex with templateBytes := bytes,templates := ex.templates ++ [(key,range)]},range)

def openedCode (ex : ProtoExporter) (tid codeId : UInt32) (opens : Bool) (codes : CodeLookup) :
    Option (ProtoExporter × Option (UInt64 × Bool)) :=
  if opens then (ex.codeIid encode tid codeId codes).map fun (ex,entry) => (ex,some entry)
  else some (ex,none)

def template (ex : ProtoExporter) (tid codeId : UInt32) (opens : Bool) (codes : CodeLookup) :
    Option (ProtoExporter × UInt32 × UInt32) :=
  let key := templateKey tid codeId opens
  match ex.templates.lookup key with
  | some range => some (ex,range)
  | none => do
    let (ex,opened) ← ex.openedCode encode tid codeId opens codes
    let seq ← ex.sequences.lookup tid
    some (ex.addTemplate key seq.header (eventFields opened))

def pushEvent (ex : ProtoExporter) (id : UInt32) (tsNs : UInt64) (range : UInt32 × UInt32) : ProtoExporter :=
  let ts := varint tsNs
  let (start,len) := range
  let bodyLen := 1 + ts.length + len.toNat
  let (a,b) := (start.toNat,(start + len).toNat)
  {ex with
    buf := ex.buf ++ packetTag :: (varint (.ofNat bodyLen) ++ Tag.timestamp :: (ts ++ (ex.templateBytes.take b).drop a))
    ids := ex.ids ++ [id]
    panicked := ex.panicked || !decide (a ≤ b ∧ b ≤ ex.templateBytes.length)}

def writeEvent (ex : ProtoExporter) (ev : Event) (codes : CodeLookup) (threads : ThreadNames) :
    Option ProtoExporter := do
  let ex := ex.ensureSequence encode ev.tid threads
  let (ex,range) ← ex.template encode ev.tid ev.codeId ev.kind.opensSlice codes
  let seq ← ex.sequences.lookup ev.tid
  some (ex.pushEvent seq.id ev.tsNs range)

def writeBatch (ex : ProtoExporter) (events : List Event) (codes : CodeLookup) (threads : ThreadNames) :
    Option ProtoExporter := do
  let ex := ex.ensureProcess encode
  let ex ← events.foldlM (fun ex ev => ex.writeEvent encode ev codes threads) {ex with buf := []}
  some {ex with out := ex.out ++ [.write ex.buf,.flush]}

def droppedPacket (ex : ProtoExporter) (dropped : UInt64) : TracePacket where
  timestamp := some 0
  trustedPacketSequenceId := some ex.processSequenceId
  internedData := none
  sequenceFlags := none
  tracePacketDefaults := none
  data := some (.trackEvent
    {type := some .instant
     trackUuid := some ex.processUuid
     name := some ("trace0: " ++ toString dropped ++ " events dropped")
     categories := ["py","dropped"]
     categoryIids := []
     nameIid := none
     sourceLocationIid := none})

def finish (ex : ProtoExporter) (dropped : UInt64) : ProtoExporter :=
  let ex :=
    if 0 < dropped then
      let ex := ex.ensureProcess encode
      ex.writePacket encode (ex.droppedPacket dropped)
    else ex
  {ex with out := ex.out ++ [.flush]}

end ProtoExporter

end Proto

end Trace0
