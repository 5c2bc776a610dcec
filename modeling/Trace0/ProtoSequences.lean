import Trace0.Lib.Assoc
import Trace0.Proto

namespace Trace0
namespace Proto

namespace ProtoExporter

variable (encode : TracePacket → List UInt8)

theorem ensureProcess_cases (ex : ProtoExporter) :
    (ex.processEmitted = true ∧ ex.ensureProcess encode = ex) ∨
      (ex.processEmitted = false ∧
        ex.ensureProcess encode = {ex with processEmitted := true}.writePacket encode ex.processPacket) := by
  unfold ensureProcess
  cases emitted : ex.processEmitted <;> simp

theorem ensureSequence_cases (ex : ProtoExporter) (tid : UInt32) (threads : ThreadNames) :
    (tid ∈ ex.sequences.map (·.1) ∧ ex.ensureSequence encode tid threads = ex) ∨
      (tid ∉ ex.sequences.map (·.1) ∧
        ex.ensureSequence encode tid threads = {ex.writePacket encode (ex.threadPacket tid threads) with
          sequences := ex.sequences ++
            [(tid,⟨ex.nextId,Tag.sequenceId :: (varint ex.nextId.toUInt64 ++ needsStateField),[]⟩)]}) := by
  unfold ensureSequence
  by_cases known : tid ∈ ex.sequences.map (·.1)
  · exact .inl ⟨known,if_pos (Assoc.lookup_isSome.mpr known)⟩
  · exact .inr ⟨known,if_neg (mt Assoc.lookup_isSome.mp known)⟩

theorem codeIid_cases {ex : ProtoExporter} {seq : Sequence} (codeId : UInt32) (codes : CodeLookup)
    (known : ex.sequences.lookup tid = some seq) :
    (∃ entry, seq.codeIids.lookup codeId = some entry ∧ ex.codeIid encode tid codeId codes = some (ex,entry)) ∨
      (∃ iid : UInt64, seq.codeIids.lookup codeId = none ∧ iid = .ofNat seq.codeIids.length + 1 ∧
        ex.codeIid encode tid codeId codes = some
          ((ex.writePacket encode (namePacket seq.id iid (codes codeId))).insertCode tid codeId
            (iid,(codes codeId).isSome),iid,(codes codeId).isSome)) := by
  unfold codeIid
  rw [known]
  cases cached : seq.codeIids.lookup codeId with
  | some entry => exact .inl ⟨entry,rfl,by simp [cached]⟩
  | none => exact .inr ⟨_,rfl,rfl,by simp [cached]⟩

theorem insertCode_sequences (ex : ProtoExporter) (tid codeId : UInt32) (entry : UInt64 × Bool) :
    (ex.insertCode tid codeId entry).sequences =
      Assoc.alter tid (·.insert codeId entry) ex.sequences := rfl

theorem insertCode_lookup (ex : ProtoExporter) (tid codeId : UInt32) (entry : UInt64 × Bool) (other : UInt32) :
    (ex.insertCode tid codeId entry).sequences.lookup other = (ex.sequences.lookup other).map fun seq =>
      if other = tid then seq.insert codeId entry else seq := by
  rw [insertCode_sequences,Assoc.alter_lookup]

theorem codeIid_lookup {ex next : ProtoExporter} {seq : Sequence} (known : ex.sequences.lookup tid = some seq)
    (interned : ex.codeIid encode tid codeId codes = some (next,entry)) :
    ∃ seq', next.sequences.lookup tid = some seq' ∧ seq'.id = seq.id ∧ seq'.header = seq.header ∧
      seq'.codeIids.lookup codeId = some entry := by
  rcases codeIid_cases encode codeId codes known with ⟨_,cached,same⟩ | ⟨iid,fresh,-,added⟩
  · rw [same] at interned
    cases interned
    exact ⟨seq,known,rfl,rfl,cached⟩
  · rw [added] at interned
    cases interned
    refine ⟨seq.insert codeId (iid,(codes codeId).isSome),?_,rfl,rfl,?_⟩
    · rw [insertCode_lookup]
      simp only [writePacket,known,Option.map_some,if_pos]
    · rw [Sequence.insert,Assoc.lookup_snoc,fresh]
      simp

theorem codeIid_templates {ex next : ProtoExporter} {seq : Sequence} (known : ex.sequences.lookup tid = some seq)
    (interned : ex.codeIid encode tid codeId codes = some (next,entry)) : next.templates = ex.templates := by
  rcases codeIid_cases encode codeId codes known with ⟨_,-,same⟩ | ⟨_,-,-,added⟩
  · rw [same] at interned
    cases interned
    rfl
  · rw [added] at interned
    cases interned
    rfl

theorem template_cases {ex : ProtoExporter} {seq : Sequence} (codeId : UInt32) (opening : Bool) (codes : CodeLookup)
    (known : ex.sequences.lookup tid = some seq) :
    (∃ range, ex.templates.lookup (templateKey tid codeId opening) = some range ∧
        ex.template encode tid codeId opening codes = some (ex,range)) ∨
      (ex.templates.lookup (templateKey tid codeId opening) = none ∧ opening = false ∧
        ex.template encode tid codeId opening codes =
          some (ex.addTemplate (templateKey tid codeId opening) seq.header (eventFields none))) ∨
      (∃ made entry, ex.templates.lookup (templateKey tid codeId opening) = none ∧ opening = true ∧
        ex.codeIid encode tid codeId codes = some (made,entry) ∧
        ex.template encode tid codeId opening codes =
          some (made.addTemplate (templateKey tid codeId opening) seq.header (eventFields (some entry)))) := by
  unfold template
  cases cached : ex.templates.lookup (templateKey tid codeId opening) with
  | some range => exact .inl ⟨range,rfl,by simp only [cached]⟩
  | none =>
    apply Or.inr
    cases opening with
    | false => exact .inl ⟨rfl,rfl,by simp [openedCode,known,cached]⟩
    | true =>
      obtain ⟨made,entry,interned⟩ : ∃ made entry, ex.codeIid encode tid codeId codes = some (made,entry) := by
        rcases codeIid_cases encode codeId codes known with ⟨_,-,same⟩ | ⟨_,-,-,added⟩
        · exact ⟨_,_,same⟩
        · exact ⟨_,_,added⟩
      obtain ⟨seq',found,-,header,-⟩ := codeIid_lookup encode known interned
      exact .inr ⟨made,entry,rfl,rfl,interned,by simp [openedCode,interned,found,header,cached]⟩

theorem ensureSequence_known (ex : ProtoExporter) (tid : UInt32) (threads : ThreadNames) :
    ∃ seq, (ex.ensureSequence encode tid threads).sequences.lookup tid = some seq := by
  apply Option.isSome_iff_exists.mp
  rw [Assoc.lookup_isSome]
  rcases ensureSequence_cases encode ex tid threads with ⟨known,same⟩ | ⟨-,added⟩
  · rw [same]
    exact known
  · rw [added]
    simp

theorem writeEvent_cases {ex next : ProtoExporter} (wrote : ex.writeEvent encode ev codes threads = some next) :
    ∃ made range seq, (ex.ensureSequence encode ev.tid threads).template encode ev.tid ev.codeId ev.kind.opensSlice
        codes = some (made,range) ∧ made.sequences.lookup ev.tid = some seq ∧ next = made.pushEvent seq.id ev.tsNs range := by
  simp only [writeEvent,Option.bind_eq_bind,Option.bind_eq_some_iff,Option.some.injEq] at wrote
  obtain ⟨⟨made,range⟩,templated,seq,found,pushed⟩ := wrote
  exact ⟨made,range,seq,templated,found,pushed.symm⟩

end ProtoExporter

def exported (encode : TracePacket → List UInt8) (ex : ProtoExporter) (codes : CodeLookup) (threads : ThreadNames)
    (batches : List (List Event)) (dropped : UInt64) : Option ProtoExporter :=
  (batches.foldlM (fun ex events => ProtoExporter.writeBatch encode ex events codes threads) ex).map
    (ProtoExporter.finish encode · dropped)

def threadSequenceId (slot : UInt32) (k : Nat) : UInt32 :=
  slot * sequencesPerSlot + processSequenceId + 1 + .ofNat k

namespace ProtoExporter

variable (encode : TracePacket → List UInt8) {slot : UInt32} {seen : List UInt32} {ex next : ProtoExporter}

def threadIds (ex : ProtoExporter) : List UInt32 := ex.sequences.map (·.2.id)
def tids (ex : ProtoExporter) : List UInt32 := ex.sequences.map (·.1)

-- What is written carries the id of the process or of a thread that has one, and each of
-- these has been written once it is given.
structure Numbered (slot : UInt32) (seen : List UInt32) (ex : ProtoExporter) : Prop where
  ownSlot : ex.slot = slot
  numbered : ex.threadIds = (List.range ex.sequences.length).map (threadSequenceId slot)
  distinct : ex.tids.Nodup
  known : ∀ tid, tid ∈ ex.tids ↔ tid ∈ seen
  emitted : ex.sequences ≠ [] → ex.processEmitted = true
  stamped : ∀ id, id ∈ ex.ids ↔ ex.processEmitted = true ∧ id = ex.processSequenceId ∨ id ∈ ex.threadIds

structure Quiet (ex next : ProtoExporter) : Prop where
  slot : next.slot = ex.slot
  processEmitted : next.processEmitted = ex.processEmitted
  threadIds : next.threadIds = ex.threadIds
  tids : next.tids = ex.tids
  grows : ∀ id ∈ ex.ids, id ∈ next.ids
  given : ∀ id ∈ next.ids, id ∈ ex.ids ∨ id ∈ ex.threadIds

theorem Quiet.refl (ex : ProtoExporter) : Quiet ex ex :=
  ⟨rfl,rfl,rfl,rfl,fun _ mem => mem,fun _ mem => .inl mem⟩

theorem Quiet.trans {last : ProtoExporter} (first : Quiet ex next) (second : Quiet next last) : Quiet ex last where
  slot := second.slot.trans first.slot
  processEmitted := second.processEmitted.trans first.processEmitted
  threadIds := second.threadIds.trans first.threadIds
  tids := second.tids.trans first.tids
  grows id mem := second.grows id (first.grows id mem)
  given id mem := by
    rcases second.given id mem with old | own
    · exact first.given id old
    · exact .inr (first.threadIds ▸ own)

theorem Numbered.quiet (had : Numbered slot seen ex) (moved : Quiet ex next) : Numbered slot seen next := by
  have count : next.sequences.length = ex.sequences.length := by
    simpa [tids] using congrArg List.length moved.tids
  refine ⟨moved.slot.trans had.ownSlot,?_,?_,?_,?_,?_⟩
  · rw [moved.threadIds,count,had.numbered]
  · rw [moved.tids]
    exact had.distinct
  · rw [moved.tids]
    exact had.known
  · intro some
    rw [moved.processEmitted]
    apply had.emitted
    intro none
    apply some
    rw [← List.length_eq_zero_iff,count,none,List.length_nil]
  · intro id
    have own : next.processSequenceId = ex.processSequenceId := by
      unfold processSequenceId
      rw [moved.slot]
    rw [moved.processEmitted,moved.threadIds,own]
    constructor
    · intro mem
      rcases moved.given id mem with old | own
      · exact (had.stamped id).mp old
      · exact .inr own
    · intro given
      exact moved.grows id ((had.stamped id).mpr given)

theorem sequence_own (found : ex.sequences.lookup tid = some seq) : seq.id ∈ ex.threadIds :=
  List.mem_map_of_mem (f := (·.2.id)) (Assoc.mem_of_lookup found)

theorem insertCode_quiet (ex : ProtoExporter) (tid codeId : UInt32) (entry : UInt64 × Bool) :
    Quiet ex (ex.insertCode tid codeId entry) where
  slot := rfl
  processEmitted := rfl
  threadIds := by
    unfold threadIds
    rw [insertCode_sequences]
    apply Assoc.alter_map
    intro _ _ _
    rfl
  tids := by
    unfold tids
    rw [insertCode_sequences]
    apply Assoc.alter_keys
  grows _ mem := mem
  given _ mem := .inl mem

theorem writePacket_quiet {id : UInt32} (packet : TracePacket) (own : packet.trustedPacketSequenceId = some id)
    (given : id ∈ ex.threadIds) : Quiet ex (ex.writePacket encode packet) where
  slot := rfl
  processEmitted := rfl
  threadIds := rfl
  tids := rfl
  grows _ mem := List.mem_append_left _ mem
  given other mem := by
    rcases List.mem_append.mp mem with old | new
    · exact .inl old
    · rw [own,Option.toList_some,List.mem_singleton] at new
      exact .inr (new ▸ given)

theorem codeIid_quiet (codeId : UInt32) (codes : CodeLookup) (known : ex.sequences.lookup tid = some seq) :
    ∃ next entry, ex.codeIid encode tid codeId codes = some (next,entry) ∧ Quiet ex next := by
  rcases codeIid_cases encode codeId codes known with ⟨entry,-,same⟩ | ⟨iid,-,-,fresh⟩
  · exact ⟨_,_,same,.refl _⟩
  · exact ⟨_,_,fresh,(writePacket_quiet encode _ rfl (sequence_own known)).trans (insertCode_quiet ..)⟩

theorem addTemplate_quiet (ex : ProtoExporter) (key : UInt64) (header event : List UInt8) :
    Quiet ex (ex.addTemplate key header event).1 :=
  ⟨rfl,rfl,rfl,rfl,fun _ mem => mem,fun _ mem => .inl mem⟩

theorem template_quiet (codeId : UInt32) (opening : Bool) (codes : CodeLookup)
    (known : ex.sequences.lookup tid = some seq) :
    ∃ next range, ex.template encode tid codeId opening codes = some (next,range) ∧ Quiet ex next := by
  rcases template_cases encode codeId opening codes known with
    ⟨range,-,found⟩ | ⟨-,-,added⟩ | ⟨made,entry,-,-,interned,added⟩
  · exact ⟨_,_,found,.refl ex⟩
  · exact ⟨_,_,added,addTemplate_quiet ..⟩
  · obtain ⟨_,_,again,quiet⟩ := codeIid_quiet encode codeId codes known
    rw [interned] at again
    cases again
    exact ⟨_,_,added,quiet.trans (addTemplate_quiet ..)⟩

theorem pushEvent_quiet {id : UInt32} (ex : ProtoExporter) (tsNs : UInt64) (range : UInt32 × UInt32)
    (given : id ∈ ex.threadIds) :
    Quiet ex (ex.pushEvent id tsNs range) where
  slot := rfl
  processEmitted := rfl
  threadIds := rfl
  tids := rfl
  grows _ mem := List.mem_append_left _ mem
  given other mem := by
    rcases List.mem_append.mp mem with old | new
    · exact .inl old
    · rw [List.mem_singleton] at new
      exact .inr (new ▸ given)

theorem ensureProcess_numbered (had : Numbered slot seen ex) :
    Numbered slot seen (ex.ensureProcess encode) ∧ (ex.ensureProcess encode).processEmitted = true := by
  rcases ensureProcess_cases encode ex with ⟨already,same⟩ | ⟨first,announced⟩
  · rw [same]
    exact ⟨had,already⟩
  · rw [announced]
    refine ⟨⟨had.ownSlot,had.numbered,had.distinct,had.known,fun _ => rfl,?_⟩,rfl⟩
    intro id
    have before := had.stamped id
    rw [first] at before
    simp only [writePacket,List.mem_append,before]
    simp [processPacket,processSequenceId,threadIds,or_comm]

theorem ensureSequence_numbered (had : Numbered slot seen ex) (emitted : ex.processEmitted = true) (tid : UInt32)
    (threads : ThreadNames) : Numbered slot (seen ++ [tid]) (ex.ensureSequence encode tid threads) ∧
      (ex.ensureSequence encode tid threads).processEmitted = true ∧
      tid ∈ (ex.ensureSequence encode tid threads).tids := by
  rcases ensureSequence_cases encode ex tid threads with ⟨known,same⟩ | ⟨unknown,added⟩
  · rw [same]
    refine ⟨{had with known := ?_},emitted,known⟩
    intro other
    rw [List.mem_append,List.mem_singleton,← had.known]
    constructor
    · exact .inl
    · rintro (old | rfl)
      · exact old
      · exact known
  · rw [added]
    refine ⟨⟨had.ownSlot,?_,?_,?_,fun _ => emitted,?_⟩,emitted,?_⟩
    · have before := had.numbered
      unfold threadIds at before ⊢
      rw [List.map_append,before,List.length_append,List.length_singleton,List.range_succ,List.map_append]
      simp [nextId,threadSequenceId,had.ownSlot]
    · unfold tids
      rw [List.map_append]
      apply List.nodup_append.mpr
      refine ⟨had.distinct,List.nodup_singleton _,?_⟩
      intro other mem new one same
      obtain rfl := List.mem_singleton.mp one
      exact unknown (same ▸ mem)
    · intro other
      have before := had.known other
      unfold tids at before ⊢
      simp [← before]
    · intro id
      have before := had.stamped id
      simp only [writePacket,List.mem_append,before]
      simp [threadPacket,processSequenceId,threadIds,or_assoc]
    · unfold tids
      simp

theorem writeEvent_numbered (had : Numbered slot seen ex) (emitted : ex.processEmitted = true) (ev : Event)
    (codes : CodeLookup) (threads : ThreadNames) :
    ∃ next, ex.writeEvent encode ev codes threads = some next ∧ Numbered slot (seen ++ [ev.tid]) next ∧
      next.processEmitted = true := by
  obtain ⟨seated,stays,present⟩ := ensureSequence_numbered encode had emitted ev.tid threads
  obtain ⟨seq,found⟩ := Option.isSome_iff_exists.mp (Assoc.lookup_isSome.mpr present)
  obtain ⟨made,range,cached,quiet⟩ := template_quiet encode ev.codeId ev.kind.opensSlice codes found
  have still : ev.tid ∈ made.tids := quiet.tids ▸ present
  obtain ⟨own,again⟩ := Option.isSome_iff_exists.mp (Assoc.lookup_isSome.mpr still)
  have pushed := quiet.trans (pushEvent_quiet made ev.tsNs range (sequence_own again))
  refine ⟨made.pushEvent own.id ev.tsNs range,?_,seated.quiet pushed,pushed.processEmitted.trans stays⟩
  simp [writeEvent,cached,again]

theorem new_numbered (pid : Int32) (slot : UInt32) : Numbered slot [] (new pid slot) :=
  ⟨rfl,rfl,List.nodup_nil,fun _ => Iff.rfl,fun some => absurd rfl some,fun _ => by simp [new,threadIds]⟩

theorem events_numbered (had : Numbered slot seen ex) (emitted : ex.processEmitted = true) (events : List Event)
    (codes : CodeLookup) (threads : ThreadNames) :
    ∃ next, events.foldlM (fun ex ev => ex.writeEvent encode ev codes threads) ex = some next ∧
      Numbered slot (seen ++ events.map (·.tid)) next ∧ next.processEmitted = true := by
  induction events generalizing seen ex with
  | nil => exact ⟨ex,rfl,by simpa using had,emitted⟩
  | cons ev rest ih =>
    obtain ⟨mid,first,there,still⟩ := writeEvent_numbered encode had emitted ev codes threads
    obtain ⟨next,run,there,still⟩ := ih there still
    exact ⟨next,by simp [first,run],by simpa using there,still⟩

theorem writeBatch_numbered (had : Numbered slot seen ex) (events : List Event) (codes : CodeLookup)
    (threads : ThreadNames) : ∃ next, ex.writeBatch encode events codes threads = some next ∧
      Numbered slot (seen ++ events.map (·.tid)) next ∧ next.processEmitted = true := by
  obtain ⟨announced,emitted⟩ := ensureProcess_numbered encode had
  have cleared : Numbered slot seen {ex.ensureProcess encode with buf := []} :=
    announced.quiet ⟨rfl,rfl,rfl,rfl,fun _ mem => mem,fun _ mem => .inl mem⟩
  obtain ⟨next,run,there,still⟩ := events_numbered encode cleared emitted events codes threads
  refine ⟨{next with out := next.out ++ [.write next.buf,.flush]},by simp [writeBatch,run],?_,still⟩
  exact there.quiet ⟨rfl,rfl,rfl,rfl,fun _ mem => mem,fun _ mem => .inl mem⟩

theorem batches_numbered (had : Numbered slot seen ex) (batches : List (List Event)) (codes : CodeLookup)
    (threads : ThreadNames) :
    ∃ next, batches.foldlM (fun ex events => writeBatch encode ex events codes threads) ex = some next ∧
      Numbered slot (seen ++ batches.flatten.map (·.tid)) next ∧
      (next.processEmitted = true ↔ ex.processEmitted = true ∨ batches ≠ []) := by
  induction batches generalizing seen ex with
  | nil => exact ⟨ex,rfl,by simpa using had,by simp⟩
  | cons events rest ih =>
    obtain ⟨mid,first,there,emitted⟩ := writeBatch_numbered encode had events codes threads
    obtain ⟨next,run,there,still⟩ := ih there
    refine ⟨next,by simp [first,run],by simpa using there,?_⟩
    rw [still]
    simp [emitted]

theorem finish_numbered (had : Numbered slot seen ex) (dropped : UInt64) :
    Numbered slot seen (ex.finish encode dropped) ∧
      ((ex.finish encode dropped).processEmitted = true ↔ ex.processEmitted = true ∨ 0 < dropped) := by
  unfold finish
  by_cases lost : 0 < dropped
  · obtain ⟨announced,emitted⟩ := ensureProcess_numbered encode had
    have same := announced.stamped (ex.ensureProcess encode).processSequenceId
    simp only [if_pos lost]
    refine ⟨⟨announced.ownSlot,announced.numbered,announced.distinct,announced.known,announced.emitted,?_⟩,?_⟩
    · intro id
      have before := announced.stamped id
      simp only [writePacket,List.mem_append,before]
      simp [droppedPacket,processSequenceId,threadIds,emitted]
      tauto
    · simp [writePacket,emitted,lost]
  · simp only [if_neg lost]
    exact ⟨had.quiet ⟨rfl,rfl,rfl,rfl,fun _ mem => mem,fun _ mem => .inl mem⟩,by simp [lost]⟩

end ProtoExporter

open ProtoExporter

def threadCount (batches : List (List Event)) : Nat := (batches.flatten.map (·.tid)).dedup.length

def Wrote (batches : List (List Event)) (dropped : UInt64) : Prop := batches ≠ [] ∨ 0 < dropped

variable (encode : TracePacket → List UInt8)

theorem exported_numbered (pid : Int32) (slot : UInt32) (codes : CodeLookup) (threads : ThreadNames)
    (batches : List (List Event)) (dropped : UInt64) :
    ∃ done, exported encode (.new pid slot) codes threads batches dropped = some done ∧
      Numbered slot (batches.flatten.map (·.tid)) done ∧ (done.processEmitted = true ↔ Wrote batches dropped) := by
  obtain ⟨last,run,there,emitted⟩ := batches_numbered encode (new_numbered pid slot) batches codes threads
  obtain ⟨ended,closing⟩ := finish_numbered encode there dropped
  refine ⟨last.finish encode dropped,by simp [exported,run],by simpa using ended,?_⟩
  rw [closing,emitted]
  simp [Wrote,new]

theorem ProtoExporter.Numbered.count {slot : UInt32} {seen : List UInt32} {done : ProtoExporter} (there : Numbered slot seen done) :
    done.sequences.length = seen.dedup.length := by
  have same : done.tids.Perm seen.dedup := by
    apply (List.perm_ext_iff_of_nodup there.distinct seen.nodup_dedup).mpr
    intro tid
    rw [List.mem_dedup,there.known]
  simpa [tids] using same.length_eq

def slotId (slot : UInt32) (k : Nat) : UInt32 := slot * sequencesPerSlot + processSequenceId + .ofNat k

theorem slotId_toNat (slot : UInt32) (k : Nat) : (slotId slot k).toNat = (128 * slot.toNat + 1 + k) % 2 ^ 32 := by
  have per : sequencesPerSlot.toNat = 128 := rfl
  have first : processSequenceId.toNat = 1 := rfl
  simp only [slotId,UInt32.toNat_add,UInt32.toNat_mul,UInt32.toNat_ofNat',per,first]
  omega

theorem slotId_thread (slot : UInt32) (k : Nat) : threadSequenceId slot k = slotId slot (k+1) := by
  apply UInt32.toNat_inj.mp
  have per : sequencesPerSlot.toNat = 128 := rfl
  have first : processSequenceId.toNat = 1 := rfl
  simp only [slotId_toNat,threadSequenceId,UInt32.toNat_add,UInt32.toNat_mul,UInt32.toNat_ofNat',UInt32.toNat_one,
    per,first]
  omega

theorem ProtoExporter.Numbered.all_ids {slot : UInt32} {seen : List UInt32} {done : ProtoExporter} (there : Numbered slot seen done) :
    done.processSequenceId :: done.threadIds = (List.range (seen.dedup.length + 1)).map (slotId slot) := by
  rw [List.range_succ_eq_map,List.map_cons,List.map_map,there.numbered,there.count]
  congr 1
  · unfold processSequenceId slotId
    rw [there.ownSlot]
    exact (UInt32.add_zero _).symm
  · apply List.map_congr_left
    intro k _
    exact slotId_thread slot k

theorem ProtoExporter.Numbered.mem_ids {slot : UInt32} {seen : List UInt32} {done : ProtoExporter} (there : Numbered slot seen done)
    (id : UInt32) : id ∈ done.ids ↔ done.processEmitted = true ∧ ∃ k ≤ seen.dedup.length, slotId slot k = id := by
  have all : (∃ k ≤ seen.dedup.length, slotId slot k = id) ↔ id = done.processSequenceId ∨ id ∈ done.threadIds := by
    rw [← List.mem_cons,there.all_ids,List.mem_map]
    simp only [List.mem_range,Nat.lt_succ_iff]
  rw [there.stamped,all]
  constructor
  · rintro (⟨emitted,own⟩ | mem)
    · exact ⟨emitted,.inl own⟩
    · refine ⟨there.emitted ?_,.inr mem⟩
      intro none
      unfold threadIds at mem
      rw [none] at mem
      cases mem
  · rintro ⟨emitted,own | mem⟩
    · exact .inl ⟨emitted,own⟩
    · exact .inr mem

def slotsUp (a b : UInt32) : Nat := (b.toNat + 2 ^ 25 - a.toNat) % 2 ^ 25

theorem runs_meet {a b : UInt32} (smallA : a.toNat < 2 ^ 25) (smallB : b.toNat < 2 ^ 25) (differ : a ≠ b) (m n : Nat) :
    (∃ j ≤ m, ∃ k ≤ n, slotId a j = slotId b k) ↔ 128 * slotsUp a b ≤ m ∨ 128 * slotsUp b a ≤ n := by
  have apart : a.toNat ≠ b.toNat := fun same => differ (UInt32.toNat_inj.mp same)
  simp only [← UInt32.toNat_inj,slotId_toNat,slotsUp]
  constructor
  · rintro ⟨j,jm,k,kn,meet⟩
    omega
  · rintro (reach | reach)
    · exact ⟨_,reach,0,Nat.zero_le _,by omega⟩
    · exact ⟨0,Nat.zero_le _,_,reach,by omega⟩

theorem run_distinct (slot : UInt32) (n : Nat) : ((List.range (n + 1)).map (slotId slot)).Nodup ↔ n < 2 ^ 32 := by
  constructor
  · intro distinct
    by_contra many
    have around : slotId slot 0 = slotId slot (2 ^ 32) := by
      apply UInt32.toNat_inj.mp
      rw [slotId_toNat,slotId_toNat]
      omega
    have same := List.inj_on_of_nodup_map distinct (List.mem_range.mpr (by omega)) (List.mem_range.mpr (by omega)) around
    omega
  · intro few
    apply List.Nodup.map_on _ List.nodup_range
    intro j jn k kn same
    rw [List.mem_range] at jn kn
    have value := UInt32.toNat_inj.mpr same
    rw [slotId_toNat,slotId_toNat] at value
    omega

theorem sequences_apart (pidA pidB : Int32) {slotA slotB : UInt32} (codesA codesB : CodeLookup)
    (threadsA threadsB : ThreadNames) (batchesA batchesB : List (List Event)) (droppedA droppedB : UInt64)
    (smallA : slotA.toNat < 2 ^ 25) (smallB : slotB.toNat < 2 ^ 25) (differ : slotA ≠ slotB) :
    ∃ a b, exported encode (.new pidA slotA) codesA threadsA batchesA droppedA = some a ∧
      exported encode (.new pidB slotB) codesB threadsB batchesB droppedB = some b ∧
      ((∀ id ∈ a.ids, id ∉ b.ids) ∧ (a.processSequenceId :: a.threadIds).Nodup ∧
          (b.processSequenceId :: b.threadIds).Nodup ↔
        (Wrote batchesA droppedA → Wrote batchesB droppedB →
          threadCount batchesA < 128 * slotsUp slotA slotB ∧ threadCount batchesB < 128 * slotsUp slotB slotA) ∧
        threadCount batchesA < 2 ^ 32 ∧ threadCount batchesB < 2 ^ 32) := by
  obtain ⟨a,runA,thereA,wroteA⟩ := exported_numbered encode pidA slotA codesA threadsA batchesA droppedA
  obtain ⟨b,runB,thereB,wroteB⟩ := exported_numbered encode pidB slotB codesB threadsB batchesB droppedB
  refine ⟨a,b,runA,runB,?_⟩
  have apart : (∀ id ∈ a.ids, id ∉ b.ids) ↔ (Wrote batchesA droppedA → Wrote batchesB droppedB →
      threadCount batchesA < 128 * slotsUp slotA slotB ∧ threadCount batchesB < 128 * slotsUp slotB slotA) := by
    have meet := runs_meet smallA smallB differ (threadCount batchesA) (threadCount batchesB)
    simp only [thereA.mem_ids,thereB.mem_ids,wroteA,wroteB]
    constructor
    · intro none wA wB
      by_contra reach
      rw [not_and_or,not_lt,not_lt] at reach
      obtain ⟨j,jm,k,kn,same⟩ := meet.mpr reach
      exact none _ ⟨wA,j,jm,rfl⟩ ⟨wB,k,kn,same.symm⟩
    · rintro short id ⟨wA,j,jm,rfl⟩ ⟨wB,k,kn,same⟩
      obtain ⟨up,down⟩ := short wA wB
      rcases meet.mp ⟨j,jm,k,kn,same.symm⟩ with reach | reach
      · exact absurd reach (not_le.mpr up)
      · exact absurd reach (not_le.mpr down)
  rw [apart,thereA.all_ids,thereB.all_ids,run_distinct,run_distinct]
  rfl

def threadEvents (n : Nat) : List Event := (List.range n).map fun k => ⟨0,.ofNat k,packCodeKind 0 .Begin⟩

theorem neighbours_apart :
    ∃ a b, exported (fun _ => []) (.new 7 4242) (fun _ => none) (fun _ => none) [threadEvents 2] 0 = some a ∧
      exported (fun _ => []) (.new 8 4243) (fun _ => none) (fun _ => none) [threadEvents 2] 0 = some b ∧
      ∀ id ∈ a.ids, id ∉ b.ids := by
  obtain ⟨a,b,runA,runB,iff⟩ := sequences_apart (fun _ => []) 7 8 (fun _ => none) (fun _ => none) (fun _ => none)
    (fun _ => none) [threadEvents 2] [threadEvents 2] 0 0 (by decide : (4242 : UInt32).toNat < 2 ^ 25)
    (by decide : (4243 : UInt32).toNat < 2 ^ 25) (by decide)
  have fits : threadCount [threadEvents 2] = 2 := by decide
  have up : slotsUp 4242 4243 = 1 ∧ slotsUp 4243 4242 = 2 ^ 25 - 1 := by decide
  rw [fits,up.1,up.2] at iff
  exact ⟨a,b,runA,runB,(iff.mpr ⟨fun _ _ => by omega,by omega,by omega⟩).1⟩

-- The last of 128 threads takes the id of the next slot's process.
theorem neighbours_collide :
    ∃ a b, exported (fun _ => []) (.new 7 0) (fun _ => none) (fun _ => none) [threadEvents 128] 0 = some a ∧
      exported (fun _ => []) (.new 8 1) (fun _ => none) (fun _ => none) [[]] 0 = some b ∧
      129 ∈ a.ids ∧ 129 ∈ b.ids := by
  obtain ⟨a,runA,thereA,wroteA⟩ := exported_numbered (fun _ => []) 7 0 (fun _ => none) (fun _ => none) [threadEvents 128] 0
  obtain ⟨b,runB,thereB,wroteB⟩ := exported_numbered (fun _ => []) 8 1 (fun _ => none) (fun _ => none) [[]] 0
  refine ⟨a,b,runA,runB,(thereA.mem_ids 129).mpr ⟨wroteA.mpr ?_,128,?_,rfl⟩,
    (thereB.mem_ids 129).mpr ⟨wroteB.mpr ?_,0,Nat.zero_le _,rfl⟩⟩
  · exact .inl (List.cons_ne_nil _ _)
  · decide +kernel
  · exact .inl (List.cons_ne_nil _ _)

end Proto
end Trace0
