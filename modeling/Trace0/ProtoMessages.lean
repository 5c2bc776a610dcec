import Trace0.Lib.Wire
import Trace0.Proto

namespace Trace0
namespace Proto

open Wire

-- A message is read off its fields: the last of an optional field stands, a repeated one
-- grows, an unknown one is passed over and a known one of the wrong wire type refused.
def readText (b : List UInt8) : Option String := String.fromUTF8? ⟨b.toArray⟩

def EventName.merge (m : EventName) : Field → Option EventName
  | (1,.number n) => some {m with iid := some (.ofNat n)}
  | (2,.bytes b) => do some {m with name := some (← readText b)}
  | (1,_) | (2,_) => none
  | _ => some m

def EventCategory.merge (m : EventCategory) : Field → Option EventCategory
  | (1,.number n) => some {m with iid := some (.ofNat n)}
  | (2,.bytes b) => do some {m with name := some (← readText b)}
  | (1,_) | (2,_) => none
  | _ => some m

def SourceLocation.merge (m : SourceLocation) : Field → Option SourceLocation
  | (1,.number n) => some {m with iid := some (.ofNat n)}
  | (2,.bytes b) => do some {m with fileName := some (← readText b)}
  | (4,.number n) => some {m with lineNumber := some (.ofNat n)}
  | (1,_) | (2,_) | (4,_) => none
  | _ => some m

def InternedData.merge (m : InternedData) : Field → Option InternedData
  | (1,.bytes b) => do
    some {m with eventCategories := m.eventCategories ++ [← readMessage EventCategory.merge ⟨none,none⟩ b]}
  | (2,.bytes b) => do
    some {m with eventNames := m.eventNames ++ [← readMessage EventName.merge ⟨none,none⟩ b]}
  | (4,.bytes b) => do
    some {m with sourceLocations := m.sourceLocations ++ [← readMessage SourceLocation.merge ⟨none,none,none⟩ b]}
  | (1,_) | (2,_) | (4,_) => none
  | _ => some m

def ProcessDescriptor.merge (m : ProcessDescriptor) : Field → Option ProcessDescriptor
  | (1,.number n) => some {m with pid := some (UInt32.ofNat n).toInt32}
  | (6,.bytes b) => do some {m with processName := some (← readText b)}
  | (1,_) | (6,_) => none
  | _ => some m

def ThreadDescriptor.merge (m : ThreadDescriptor) : Field → Option ThreadDescriptor
  | (1,.number n) => some {m with pid := some (UInt32.ofNat n).toInt32}
  | (2,.number n) => some {m with tid := some (UInt32.ofNat n).toInt32}
  | (5,.bytes b) => do some {m with threadName := some (← readText b)}
  | (1,_) | (2,_) | (5,_) => none
  | _ => some m

def TrackDescriptor.merge (m : TrackDescriptor) : Field → Option TrackDescriptor
  | (1,.number n) => some {m with uuid := some (.ofNat n)}
  | (2,.bytes b) => do some {m with name := some (← readText b)}
  | (3,.bytes b) => do
    some {m with process := some (← readMessage ProcessDescriptor.merge (m.process.getD ⟨none,none⟩) b)}
  | (4,.bytes b) => do
    some {m with thread := some (← readMessage ThreadDescriptor.merge (m.thread.getD ⟨none,none,none⟩) b)}
  | (5,.number n) => some {m with parentUuid := some (.ofNat n)}
  | (1,_) | (2,_) | (3,_) | (4,_) | (5,_) => none
  | _ => some m

def TrackEventDefaults.merge (m : TrackEventDefaults) : Field → Option TrackEventDefaults
  | (11,.number n) => some {m with trackUuid := some (.ofNat n)}
  | (11,_) => none
  | _ => some m

def TracePacketDefaults.merge (m : TracePacketDefaults) : Field → Option TracePacketDefaults
  | (11,.bytes b) => do
    some {m with
      trackEventDefaults := some (← readMessage TrackEventDefaults.merge (m.trackEventDefaults.getD ⟨none⟩) b)}
  | (11,_) => none
  | _ => some m

def TrackEventType.read : Nat → Option TrackEventType
  | 1 => some .sliceBegin
  | 2 => some .sliceEnd
  | 3 => some .instant
  | _ => none

def TrackEvent.empty : TrackEvent := ⟨none,none,[],none,none,[],none⟩

def TrackEvent.merge (m : TrackEvent) : Field → Option TrackEvent
  | (3,.number n) => some {m with categoryIids := m.categoryIids ++ [.ofNat n]}
  | (9,.number n) => do some {m with type := some (← TrackEventType.read n)}
  | (10,.number n) => some {m with nameIid := some (.ofNat n)}
  | (11,.number n) => some {m with trackUuid := some (.ofNat n)}
  | (22,.bytes b) => do some {m with categories := m.categories ++ [← readText b]}
  | (23,.bytes b) => do some {m with name := some (← readText b)}
  | (34,.number n) => some {m with sourceLocationIid := some (.ofNat n)}
  | (3,_) | (9,_) | (10,_) | (11,_) | (22,_) | (23,_) | (34,_) => none
  | _ => some m

def TracePacket.empty : TracePacket := ⟨none,none,none,none,none,none⟩

def Data.event : Option Data → TrackEvent
  | some (.trackEvent event) => event
  | _ => .empty

def Data.track : Option Data → TrackDescriptor
  | some (.trackDescriptor track) => track
  | _ => ⟨none,none,none,none,none⟩

def TracePacket.merge (m : TracePacket) : Field → Option TracePacket
  | (8,.number n) => some {m with timestamp := some (.ofNat n)}
  | (10,.number n) => some {m with trustedPacketSequenceId := some (.ofNat n)}
  | (11,.bytes b) => do some {m with data := some (.trackEvent (← readMessage TrackEvent.merge (Data.event m.data) b))}
  | (12,.bytes b) => do
    some {m with internedData := some (← readMessage InternedData.merge (m.internedData.getD ⟨[],[],[]⟩) b)}
  | (13,.number n) => some {m with sequenceFlags := some (.ofNat n)}
  | (59,.bytes b) => do
    some {m with
      tracePacketDefaults := some (← readMessage TracePacketDefaults.merge (m.tracePacketDefaults.getD ⟨none⟩) b)}
  | (60,.bytes b) => do
    some {m with data := some (.trackDescriptor (← readMessage TrackDescriptor.merge (Data.track m.data) b))}
  | (8,_) | (10,_) | (11,_) | (12,_) | (13,_) | (59,_) | (60,_) => none
  | _ => some m

def decode (b : List UInt8) : Option TracePacket := readMessage TracePacket.merge .empty b

def uint64 (n : UInt64) : Value := .number n.toNat
def uint32 (n : UInt32) : Value := .number n.toNat
def int32 (n : Int32) : Value := .number n.toInt64.toUInt64.toNat
def text (s : String) : Value := .bytes s.toByteArray.data.toList
def message (fields : M → List Field) (m : M) : Value := .bytes (writeFields (fields m))

theorem text_roundtrip (s : String) : readText s.toByteArray.data.toList = some s := by
  rw [readText,Array.toArray_toList]
  exact dif_pos s.isValidUTF8

theorem int32_roundtrip (n : Int32) : (UInt32.ofNat n.toInt64.toUInt64.toNat).toInt32 = n := by
  rw [UInt32.ofNat_uInt64ToNat]
  apply Int32.toBitVec_inj.mp
  show (n.toBitVec.signExtend 64).setWidth 32 = n.toBitVec
  ext i inside
  rw [BitVec.getElem_setWidth,BitVec.getLsbD_signExtend]
  simp [inside,show i < 64 by omega]

def EventName.fields (m : EventName) : List Field := optional 1 uint64 m.iid ++ optional 2 text m.name

theorem EventName.roundtrip (m : EventName) : readMessage merge ⟨none,none⟩ (writeFields m.fields) = some m := by
  rw [readMessage_write]
  refine foldlM_split (optional_read (EventName.mk · none) rfl ?_ m.iid) (optional_read (EventName.mk m.iid ·) rfl ?_ _)
  · intro iid
    simp [merge,uint64]
  · intro name
    simp [merge,text,text_roundtrip]

def EventCategory.fields (m : EventCategory) : List Field := optional 1 uint64 m.iid ++ optional 2 text m.name

theorem EventCategory.roundtrip (m : EventCategory) :
    readMessage merge ⟨none,none⟩ (writeFields m.fields) = some m := by
  rw [readMessage_write]
  refine foldlM_split (optional_read (EventCategory.mk · none) rfl ?_ m.iid)
    (optional_read (EventCategory.mk m.iid ·) rfl ?_ _)
  · intro iid
    simp [merge,uint64]
  · intro name
    simp [merge,text,text_roundtrip]

def SourceLocation.fields (m : SourceLocation) : List Field :=
  optional 1 uint64 m.iid ++ (optional 2 text m.fileName ++ optional 4 uint32 m.lineNumber)

theorem SourceLocation.roundtrip (m : SourceLocation) :
    readMessage merge ⟨none,none,none⟩ (writeFields m.fields) = some m := by
  rw [readMessage_write]
  refine foldlM_split (optional_read (SourceLocation.mk · none none) rfl ?_ m.iid) (foldlM_split
    (optional_read (SourceLocation.mk m.iid · none) rfl ?_ m.fileName)
    (optional_read (SourceLocation.mk m.iid m.fileName ·) rfl ?_ _))
  · intro iid
    simp [merge,uint64]
  · intro name
    simp [merge,text,text_roundtrip]
  · intro line
    simp [merge,uint32]

def InternedData.fields (m : InternedData) : List Field :=
  repeated 1 (message EventCategory.fields) m.eventCategories ++
    (repeated 2 (message EventName.fields) m.eventNames ++
      repeated 4 (message SourceLocation.fields) m.sourceLocations)

theorem InternedData.roundtrip (m : InternedData) :
    readMessage merge ⟨[],[],[]⟩ (writeFields m.fields) = some m := by
  rw [readMessage_write]
  refine foldlM_split (repeated_read (InternedData.mk · [] []) rfl ?_ m.eventCategories) (foldlM_split
    (repeated_read (InternedData.mk m.eventCategories · []) rfl ?_ m.eventNames)
    (repeated_read (InternedData.mk m.eventCategories m.eventNames ·) rfl ?_ _))
  · intro had category
    simp [merge,message,EventCategory.roundtrip]
  · intro had name
    simp [merge,message,EventName.roundtrip]
  · intro had location
    simp [merge,message,SourceLocation.roundtrip]

def ProcessDescriptor.fields (m : ProcessDescriptor) : List Field :=
  optional 1 int32 m.pid ++ optional 6 text m.processName

theorem ProcessDescriptor.roundtrip (m : ProcessDescriptor) :
    readMessage merge ⟨none,none⟩ (writeFields m.fields) = some m := by
  rw [readMessage_write]
  refine foldlM_split (optional_read (ProcessDescriptor.mk · none) rfl ?_ m.pid)
    (optional_read (ProcessDescriptor.mk m.pid ·) rfl ?_ _)
  · intro pid
    simp only [merge,int32,int32_roundtrip]
  · intro name
    simp [merge,text,text_roundtrip]

def ThreadDescriptor.fields (m : ThreadDescriptor) : List Field :=
  optional 1 int32 m.pid ++ (optional 2 int32 m.tid ++ optional 5 text m.threadName)

theorem ThreadDescriptor.roundtrip (m : ThreadDescriptor) :
    readMessage merge ⟨none,none,none⟩ (writeFields m.fields) = some m := by
  rw [readMessage_write]
  refine foldlM_split (optional_read (ThreadDescriptor.mk · none none) rfl ?_ m.pid) (foldlM_split
    (optional_read (ThreadDescriptor.mk m.pid · none) rfl ?_ m.tid)
    (optional_read (ThreadDescriptor.mk m.pid m.tid ·) rfl ?_ _))
  · intro pid
    simp only [merge,int32,int32_roundtrip]
  · intro tid
    simp only [merge,int32,int32_roundtrip]
  · intro name
    simp [merge,text,text_roundtrip]

def TrackDescriptor.fields (m : TrackDescriptor) : List Field :=
  optional 1 uint64 m.uuid ++ (optional 2 text m.name ++ (optional 3 (message ProcessDescriptor.fields) m.process ++
    (optional 4 (message ThreadDescriptor.fields) m.thread ++ optional 5 uint64 m.parentUuid)))

theorem TrackDescriptor.roundtrip (m : TrackDescriptor) :
    readMessage merge ⟨none,none,none,none,none⟩ (writeFields m.fields) = some m := by
  rw [readMessage_write]
  refine foldlM_split (optional_read (TrackDescriptor.mk · none none none none) rfl ?_ m.uuid) (foldlM_split
    (optional_read (TrackDescriptor.mk m.uuid none · none none) rfl ?_ m.name) (foldlM_split
    (optional_read (TrackDescriptor.mk m.uuid none m.name · none) rfl ?_ m.process) (foldlM_split
    (optional_read (TrackDescriptor.mk m.uuid none m.name m.process ·) rfl ?_ m.thread)
    (optional_read (TrackDescriptor.mk m.uuid · m.name m.process m.thread) rfl ?_ _))))
  · intro uuid
    simp [merge,uint64]
  · intro name
    simp [merge,text,text_roundtrip]
  · intro process
    simp [merge,message,ProcessDescriptor.roundtrip]
  · intro thread
    simp [merge,message,ThreadDescriptor.roundtrip]
  · intro parent
    simp [merge,uint64]

def TrackEventDefaults.fields (m : TrackEventDefaults) : List Field := optional 11 uint64 m.trackUuid

theorem TrackEventDefaults.roundtrip (m : TrackEventDefaults) :
    readMessage merge ⟨none⟩ (writeFields m.fields) = some m := by
  rw [readMessage_write]
  apply optional_read TrackEventDefaults.mk rfl
  intro track
  simp [merge,uint64]

def TracePacketDefaults.fields (m : TracePacketDefaults) : List Field :=
  optional 11 (message TrackEventDefaults.fields) m.trackEventDefaults

theorem TracePacketDefaults.roundtrip (m : TracePacketDefaults) :
    readMessage merge ⟨none⟩ (writeFields m.fields) = some m := by
  rw [readMessage_write]
  apply optional_read TracePacketDefaults.mk rfl
  intro defaults
  simp [merge,message,TrackEventDefaults.roundtrip]

def eventType (t : TrackEventType) : Value := .number t.toU8.toNat

theorem eventType_roundtrip (t : TrackEventType) : TrackEventType.read t.toU8.toNat = some t := by
  cases t <;> rfl

def TrackEvent.fields (m : TrackEvent) : List Field :=
  repeated 3 uint64 m.categoryIids ++ (optional 9 eventType m.type ++ (optional 10 uint64 m.nameIid ++
    (optional 11 uint64 m.trackUuid ++ (repeated 22 text m.categories ++ (optional 23 text m.name ++
      optional 34 uint64 m.sourceLocationIid)))))

theorem TrackEvent.roundtrip (m : TrackEvent) : readMessage merge .empty (writeFields m.fields) = some m := by
  rw [readMessage_write]
  refine foldlM_split (repeated_read (TrackEvent.mk none none · none none [] none) rfl ?_ m.categoryIids) (foldlM_split
    (optional_read (TrackEvent.mk · none m.categoryIids none none [] none) rfl ?_ m.type) (foldlM_split
    (optional_read (TrackEvent.mk m.type none m.categoryIids · none [] none) rfl ?_ m.nameIid) (foldlM_split
    (optional_read (TrackEvent.mk m.type · m.categoryIids m.nameIid none [] none) rfl ?_ m.trackUuid) (foldlM_split
    (repeated_read (TrackEvent.mk m.type m.trackUuid m.categoryIids m.nameIid none · none) rfl ?_ m.categories)
    (foldlM_split
    (optional_read (TrackEvent.mk m.type m.trackUuid m.categoryIids m.nameIid · m.categories none) rfl ?_ m.name)
    (optional_read (TrackEvent.mk m.type m.trackUuid m.categoryIids m.nameIid m.name m.categories ·) rfl ?_ _))))))
  · intro had iid
    simp [merge,uint64]
  · intro type
    simp [merge,eventType,eventType_roundtrip]
  · intro iid
    simp [merge,uint64]
  · intro track
    simp [merge,uint64]
  · intro had category
    simp [merge,text,text_roundtrip]
  · intro name
    simp [merge,text,text_roundtrip]
  · intro iid
    simp [merge,uint64]

def dataFields : Option Data → List Field
  | none => []
  | some (.trackEvent event) => [(11,message TrackEvent.fields event)]
  | some (.trackDescriptor track) => [(60,message TrackDescriptor.fields track)]

def TracePacket.fields (m : TracePacket) : List Field :=
  optional 8 uint64 m.timestamp ++ (optional 10 uint32 m.trustedPacketSequenceId ++ (dataFields m.data ++
    (optional 12 (message InternedData.fields) m.internedData ++ (optional 13 uint32 m.sequenceFlags ++
      optional 59 (message TracePacketDefaults.fields) m.tracePacketDefaults))))

def encode (m : TracePacket) : List UInt8 := writeFields m.fields

theorem decode_encode (m : TracePacket) : decode (encode m) = some m := by
  rw [decode,encode,readMessage_write]
  have data : (dataFields m.data).foldlM TracePacket.merge
      ⟨m.timestamp,m.trustedPacketSequenceId,none,none,none,none⟩ =
        some ⟨m.timestamp,m.trustedPacketSequenceId,none,none,none,m.data⟩ := by
    match m.data with
    | none => rfl
    | some (.trackEvent event) =>
      simp [dataFields,message,TracePacket.merge,Data.event,TrackEvent.roundtrip]
    | some (.trackDescriptor track) =>
      simp [dataFields,message,TracePacket.merge,Data.track,TrackDescriptor.roundtrip]
  refine foldlM_split (optional_read (TracePacket.mk · none none none none none) rfl ?_ m.timestamp) (foldlM_split
    (optional_read (TracePacket.mk m.timestamp · none none none none) rfl ?_ m.trustedPacketSequenceId) (foldlM_split
    data (foldlM_split
    (optional_read (TracePacket.mk m.timestamp m.trustedPacketSequenceId · none none m.data) rfl ?_ m.internedData)
    (foldlM_split
    (optional_read (TracePacket.mk m.timestamp m.trustedPacketSequenceId m.internedData · none m.data) rfl ?_
      m.sequenceFlags)
    (optional_read (TracePacket.mk m.timestamp m.trustedPacketSequenceId m.internedData m.sequenceFlags · m.data)
      rfl ?_ _)))))
  · intro ts
    simp [TracePacket.merge,uint64]
  · intro id
    simp [TracePacket.merge,uint32]
  · intro data
    simp [TracePacket.merge,message,InternedData.roundtrip]
  · intro flags
    simp [TracePacket.merge,uint32]
  · intro defaults
    simp [TracePacket.merge,message,TracePacketDefaults.roundtrip]

theorem continued_toNat (v : UInt64) : v.toUInt8 ||| 0x80 = UInt8.ofNat (v.toNat % 128 + 128) := by
  apply UInt8.toNat_inj.mp
  have low : (v.toUInt8 ||| 0x80).toNat = v.toNat % 256 ||| 128 := by
    rw [UInt8.toNat_or,UInt64.toNat_toUInt8]
    rfl
  have size : (UInt8.ofNat (v.toNat % 128 + 128)).toNat = v.toNat % 128 + 128 :=
    UInt8.toNat_ofNat_of_lt' (by simp [UInt8.size]; omega)
  rw [low,size]
  have split : v.toNat % 256 = v.toNat % 128 ∨ v.toNat % 256 = v.toNat % 128 + 128 := by omega
  have high := Nat.two_pow_add_eq_or_of_lt (i := 7) (Nat.mod_lt v.toNat (by decide : 0 < 2 ^ 7)) 1
  have bit : v.toNat % 128 ||| 128 = v.toNat % 128 + 128 := by
    rw [Nat.or_comm]
    exact high.symm.trans (Nat.add_comm _ _)
  rcases split with below | above
  · rw [below,bit]
  · rw [above,← bit,Nat.or_assoc]
    rfl

theorem varintLoop_eq (n : Nat) (v : UInt64) (fits : v.toNat < 128 ^ (n+1)) :
    varintLoop n v = Wire.varint v.toNat := by
  induction n generalizing v with
  | zero =>
    rw [varintLoop,Wire.varint_small (by simpa using fits)]
    congr 1
  | succ n ih =>
    rw [varintLoop]
    by_cases large : 0x80 ≤ v
    · have big : 128 ≤ v.toNat := UInt64.le_iff_toNat_le.mp large
      have shifted : (v >>> 7).toNat = v.toNat / 128 := by
        rw [UInt64.toNat_shiftRight,Nat.shiftRight_eq_div_pow]
        rfl
      have less : (v >>> 7).toNat < 128 ^ (n+1) := by
        rw [shifted]
        apply Nat.div_lt_of_lt_mul
        rw [pow_succ] at fits
        omega
      rw [if_pos large,Wire.varint_large big,ih _ less,shifted,continued_toNat]
    · have small : v.toNat < 128 := not_le.mp fun reach => large (UInt64.le_iff_toNat_le.mpr reach)
      rw [if_neg large,Wire.varint_small small]
      congr 1

theorem varint_eq (v : UInt64) : varint v = Wire.varint v.toNat := by
  apply varintLoop_eq
  have bound := v.toNat_lt
  omega

theorem varint_length (fits : n < 2 ^ 64) : varint (.ofNat n) = Wire.varint n := by
  rw [varint_eq,UInt64.toNat_ofNat_of_lt' fits]

theorem framed_eq {body : List UInt8} (fits : body.length < 2 ^ 64) : framed body = writeField (1,.bytes body) := by
  have tag : Wire.varint (8 * 1 + 2) = [packetTag] := Wire.varint_small (by decide)
  rw [framed,varint_length fits,writeField,tag]
  rfl

def eventWire : Option (UInt64 × Bool) → List Field
  | none => [(9,.number 2)]
  | some (iid,hasLocation) =>
    [(9,.number 1),(3,.number 1),(10,.number iid.toNat)] ++ if hasLocation then [(34,.number iid.toNat)] else []

theorem eventFields_eq (opened : Option (UInt64 × Bool)) :
    ProtoExporter.eventFields opened = writeFields (eventWire opened) := by
  have type : Wire.varint (8 * 9) = [Tag.type] := Wire.varint_small (by decide)
  have categories : Wire.varint (8 * 3) = [Tag.categoryIids] := Wire.varint_small (by decide)
  have name : Wire.varint (8 * 10) = [Tag.nameIid] := Wire.varint_small (by decide)
  have place : Wire.varint (8 * 34) = Tag.sourceLocationIid := by
    rw [Wire.varint_large (by decide),Wire.varint_small (by decide)]
    rfl
  have one : Wire.varint 1 = [1] := Wire.varint_small (by decide)
  have two : Wire.varint 2 = [2] := Wire.varint_small (by decide)
  have category : varint categoryIid = [1] := by
    rw [varint_eq]
    exact one
  match opened with
  | none => simp [ProtoExporter.eventFields,eventWire,writeField,type,two,TrackEventType.toU8]
  | some (iid,false) =>
    simp [ProtoExporter.eventFields,eventWire,writeField,type,categories,name,one,category,varint_eq,
      TrackEventType.toU8]
  | some (iid,true) =>
    simp [ProtoExporter.eventFields,eventWire,writeField,type,categories,name,place,one,category,varint_eq,
      TrackEventType.toU8]

def templateBody (header event : List UInt8) : List UInt8 :=
  header ++ [Tag.trackEvent] ++ varint (.ofNat event.length) ++ event

def sequenceHeader (id : UInt32) : List UInt8 := Tag.sequenceId :: (varint id.toUInt64 ++ needsStateField)

def packetWire (id : UInt32) (tsNs : UInt64) (opened : Option (UInt64 × Bool)) : List Field :=
  [(8,.number tsNs.toNat),(10,.number id.toNat),(13,.number 2),(11,.bytes (writeFields (eventWire opened)))]

theorem varintLoop_length (n : Nat) (v : UInt64) : (varintLoop n v).length ≤ n + 1 := by
  induction n generalizing v with
  | zero => exact le_rfl
  | succ n ih =>
    rw [varintLoop]
    split
    · exact Nat.succ_le_succ (ih _)
    · exact Nat.succ_le_succ (Nat.zero_le _)

theorem eventFields_short (opened : Option (UInt64 × Bool)) : (ProtoExporter.eventFields opened).length ≤ 38 := by
  have digits : ∀ v : UInt64, (varint v).length ≤ 10 := varintLoop_length 9
  match opened with
  | none => exact (by decide : 2 ≤ 38)
  | some (iid,hasLocation) =>
    have first := digits categoryIid
    have second := digits iid
    cases hasLocation <;> simp [ProtoExporter.eventFields,Tag.sourceLocationIid] <;> omega

theorem packet_eq (id : UInt32) (tsNs : UInt64) (opened : Option (UInt64 × Bool)) :
    Tag.timestamp :: (varint tsNs ++ templateBody (sequenceHeader id) (ProtoExporter.eventFields opened)) =
      writeFields (packetWire id tsNs opened) := by
  have stamp : Wire.varint (8 * 8) = [Tag.timestamp] := Wire.varint_small (by decide)
  have sequence : Wire.varint (8 * 10) = [Tag.sequenceId] := Wire.varint_small (by decide)
  have flags : Wire.varint (8 * 13) = [Tag.sequenceFlags] := Wire.varint_small (by decide)
  have event : Wire.varint (8 * 11 + 2) = [Tag.trackEvent] := Wire.varint_small (by decide)
  have two : Wire.varint 2 = [seqNeedsIncrementalState.toUInt8] := Wire.varint_small (by decide)
  have size := varint_length (lt_of_le_of_lt (eventFields_short opened) (by decide : 38 < 2 ^ 64))
  have wide : id.toUInt64.toNat = id.toNat := UInt32.toNat_toUInt64 id
  rw [eventFields_eq] at size ⊢
  simp [templateBody,sequenceHeader,needsStateField,packetWire,writeField,stamp,sequence,flags,event,two,size,
    varint_eq tsNs,varint_eq id.toUInt64,wide]

def trackEvent (opened : Option (UInt64 × Bool)) : TrackEvent where
  type := some (if opened.isSome then .sliceBegin else .sliceEnd)
  trackUuid := none
  categoryIids := if opened.isSome then [categoryIid] else []
  nameIid := opened.map (·.1)
  name := none
  categories := []
  sourceLocationIid := opened.bind fun o => if o.2 then some o.1 else none

def eventPacket (id : UInt32) (tsNs : UInt64) (opened : Option (UInt64 × Bool)) : TracePacket where
  timestamp := some tsNs
  trustedPacketSequenceId := some id
  internedData := none
  sequenceFlags := some seqNeedsIncrementalState
  tracePacketDefaults := none
  data := some (.trackEvent (trackEvent opened))

theorem decode_event (id : UInt32) (tsNs : UInt64) (opened : Option (UInt64 × Bool)) :
    decode (writeFields (packetWire id tsNs opened)) = some (eventPacket id tsNs opened) := by
  have inner : readMessage TrackEvent.merge .empty (writeFields (eventWire opened)) = some (trackEvent opened) := by
    rw [readMessage_write]
    match opened with
    | none => rfl
    | some (iid,false) => simp [eventWire,TrackEvent.merge,TrackEvent.empty,TrackEventType.read,categoryIid,trackEvent]
    | some (iid,true) => simp [eventWire,TrackEvent.merge,TrackEvent.empty,TrackEventType.read,categoryIid,trackEvent]
  rw [decode,readMessage_write]
  simp [packetWire,TracePacket.merge,TracePacket.empty,Data.event,inner,eventPacket,seqNeedsIncrementalState]

end Proto
end Trace0
