import Trace0.ProtoSync

namespace Trace0
namespace Proto

section Carrying

open Wire

def Carries (bytes : List UInt8) (packets : List TracePacket) : Prop :=
  ∃ bodies : List (List UInt8), bytes = writeFields (bodies.map fun b => (1,.bytes b)) ∧
    List.Forall₂ (fun b p => decode b = some p) bodies packets

theorem Carries.nil : Carries [] [] := ⟨[],rfl,.nil⟩

theorem Carries.append (left : Carries bytes packets) (right : Carries more others) :
    Carries (bytes ++ more) (packets ++ others) := by
  obtain ⟨bodies,rfl,decoded⟩ := left
  obtain ⟨rest,rfl,decoded'⟩ := right
  exact ⟨bodies ++ rest,by rw [List.map_append,writeFields_append],List.rel_append decoded decoded'⟩

theorem Carries.frame {body : List UInt8} (fits : body.length < 2 ^ 64) (decoded : decode body = some p) :
    Carries (framed body) [p] := by
  refine ⟨[body],?_,.cons decoded .nil⟩
  rw [framed_eq fits]
  simp

theorem mapM_of_forall₂ {f : A → Option B} (each : List.Forall₂ (fun a b => f a = some b) as bs) :
    as.mapM f = some bs := by
  induction each with
  | nil => rfl
  | cons head _ ih => simp [List.mapM_cons,head,ih]

theorem Carries.read {bytes : List UInt8} (carried : Carries bytes packets)
    (read : Tables.readPackets ⟨[],[]⟩ packets = some (t,slices)) : readTrace bytes = some slices := by
  obtain ⟨bodies,rfl,decoded⟩ := carried
  have frames : (bodies.map fun b => ((1,.bytes b) : Field)).mapM readFrame = some bodies := by
    apply mapM_of_forall₂
    rw [List.forall₂_map_left_iff]
    exact List.forall₂_same.mpr fun _ _ => rfl
  rw [readTrace,fields_roundtrip,Option.bind_eq_bind,Option.bind_some,frames,Option.bind_eq_bind,Option.bind_some,
    mapM_of_forall₂ decoded,Option.bind_eq_bind,Option.bind_some,read]
  rfl

theorem readPackets_append {t mid last : Tables} (first : t.readPackets packets = some (mid,slices))
    (second : mid.readPackets others = some (last,more)) :
    t.readPackets (packets ++ others) = some (last,slices ++ more) := by
  induction packets generalizing t slices with
  | nil =>
    cases first
    exact second
  | cons p rest ih =>
    simp only [Tables.readPackets,Option.bind_eq_bind,Option.bind_eq_some_iff,Option.some.injEq,Prod.mk.injEq] at first
    obtain ⟨⟨t',own⟩,here,⟨_,later⟩,there,rfl,rfl⟩ := first
    simp [Tables.readPackets,here,ih there]

theorem readPackets_one {t t' : Tables} (read : t.readPacket p = some (t',slices)) :
    t.readPackets [p] = some (t',slices) := by
  simp [Tables.readPackets,read]

-- A piece of the template bytes, by its range.
def Holds (bytes : List UInt8) (range : UInt32 × UInt32) (body : List UInt8) : Prop :=
  ∃ before after, bytes = before ++ body ++ after ∧ range.1.toNat = before.length ∧ range.2.toNat = body.length

theorem Holds.more (held : Holds bytes range body) (more : List UInt8) : Holds (bytes ++ more) range body := by
  obtain ⟨before,after,rfl,start,size⟩ := held
  exact ⟨before,after ++ more,List.append_assoc _ _ _,start,size⟩

theorem Holds.slice {bytes : List UInt8} (held : Holds bytes (a,len) body) (fits : bytes.length < 2 ^ 32) :
    (bytes.take (a + len).toNat).drop a.toNat = body ∧ a.toNat ≤ (a + len).toNat ∧ (a + len).toNat ≤ bytes.length := by
  obtain ⟨before,after,rfl,start,size⟩ := held
  simp only at start size
  rw [List.length_append,List.length_append] at fits
  have stop : (a + len).toNat = before.length + body.length := by
    rw [UInt32.toNat_add,start,size]
    omega
  refine ⟨?_,by omega,by simp [stop]⟩
  rw [stop,start,List.append_assoc,← List.length_append,← List.append_assoc,List.take_left,List.drop_left]

end Carrying

namespace ProtoExporter

-- The parts of a key lie beside each other, so the `or` is a sum.
theorem templateKey_toNat (tid : UInt32) (opening : Bool) (small : codeId.toNat < 2 ^ 24) :
    (templateKey tid codeId opening).toNat =
      tid.toNat * 2 ^ 32 + (if opening then codeId.toNat else 0) * 2 + opening.toNat := by
  have wide := tid.toNat_lt
  have high : (tid.toUInt64 <<< 32).toNat = tid.toNat <<< 32 := by
    rw [UInt64.toNat_shiftLeft,UInt32.toNat_toUInt64]
    have shift : (32 : UInt64).toNat % 64 = 32 := rfl
    rw [shift,Nat.shiftLeft_eq]
    exact Nat.mod_eq_of_lt (by omega)
  have code : (if opening then codeId else 0).toNat = if opening then codeId.toNat else 0 := by
    cases opening <;> rfl
  have short : (if opening then codeId.toNat else 0) < 2 ^ 24 := by
    cases opening
    · exact Nat.two_pow_pos 24
    · exact small
  have middle : ((if opening then codeId else 0).toUInt64 <<< 1).toNat = (if opening then codeId.toNat else 0) <<< 1 := by
    rw [UInt64.toNat_shiftLeft,UInt32.toNat_toUInt64,code]
    have shift : (1 : UInt64).toNat % 64 = 1 := rfl
    rw [shift,Nat.shiftLeft_eq]
    exact Nat.mod_eq_of_lt (by omega)
  have low : opening.toUInt64.toNat = opening.toNat := by cases opening <;> rfl
  have bit : opening.toNat < 2 ^ 1 := by cases opening <;> decide
  have inner : (if opening then codeId.toNat else 0) <<< 1 ||| opening.toNat =
      (if opening then codeId.toNat else 0) * 2 + opening.toNat := by
    rw [← Nat.shiftLeft_add_eq_or_of_lt bit,Nat.shiftLeft_eq]
  rw [templateKey,UInt64.toNat_or,UInt64.toNat_or,high,middle,low,Nat.or_assoc,inner,
    ← Nat.shiftLeft_add_eq_or_of_lt (by omega),Nat.shiftLeft_eq]
  omega

theorem templateKey_apart {tid tid' codeId codeId' : UInt32} {opening opening' : Bool} (small : codeId.toNat < 2 ^ 24)
    (small' : codeId'.toNat < 2 ^ 24) (same : templateKey tid codeId opening = templateKey tid' codeId' opening') :
    tid = tid' ∧ opening = opening' ∧ (opening = true → codeId = codeId') := by
  have value := UInt64.toNat_inj.mpr same
  rw [templateKey_toNat tid opening small,templateKey_toNat tid' opening' small'] at value
  have bit : opening.toNat = opening'.toNat := by
    have := Bool.toNat_lt opening
    have := Bool.toNat_lt opening'
    omega
  have kind : opening = opening' := by
    cases opening <;> cases opening' <;> simp at bit ⊢
  subst kind
  refine ⟨?_,rfl,?_⟩
  · apply UInt32.toNat_inj.mp
    cases opening <;> simp at value <;> omega
  · rintro rfl
    apply UInt32.toNat_inj.mp
    simp at value
    omega

def Templated (ex : ProtoExporter) : Prop :=
  ∀ (tid codeId : UInt32) (opening : Bool) (range : UInt32 × UInt32), codeId.toNat < 2 ^ 24 →
    ex.templates.lookup (templateKey tid codeId opening) = some range →
      ∃ seq o, ex.sequences.lookup tid = some seq ∧ Opened seq codeId opening o ∧
        Holds ex.templateBytes range (templateBody (sequenceHeader seq.id) (eventFields o))

def Seated (ex : ProtoExporter) (ev : Event) (packet : TracePacket) : Prop :=
  ∃ seq o, ex.sequences.lookup ev.tid = some seq ∧ Opened seq ev.codeId ev.kind.opensSlice o ∧
    packet = eventPacket seq.id ev.tsNs o

def Shows (codes : CodeLookup) (threads : ThreadNames) (ex : ProtoExporter) (ev : Event) (slice : Slice) : Prop :=
  ∃ seq, ex.sequences.lookup ev.tid = some seq ∧ slice = ex.sliceOf codes threads seq.id ev

theorem Opened.keeps {seq seq' : Sequence}
    (kept : ∀ code entry, seq.codeIids.lookup code = some entry → seq'.codeIids.lookup code = some entry)
    (opened : Opened seq codeId opening o) : Opened seq' codeId opening o := by
  cases opening with
  | false => exact opened
  | true =>
    obtain ⟨entry,own,known⟩ := opened
    exact ⟨entry,own,kept codeId entry known⟩

variable {ex next : ProtoExporter}

theorem Keeps.seat (kept : Keeps ex next) (seated : Seated ex ev packet) : Seated next ev packet := by
  obtain ⟨seq,o,found,opened,rfl⟩ := seated
  obtain ⟨seq',found',own,codes⟩ := kept.seated ev.tid seq found
  exact ⟨seq',o,found',opened.keeps codes,by rw [own]⟩

theorem Keeps.shows {codes : CodeLookup} {threads : ThreadNames} (kept : Keeps ex next) (shown : Shows codes threads ex ev slice) :
    Shows codes threads next ev slice := by
  obtain ⟨seq,found,rfl⟩ := shown
  obtain ⟨seq',found',own,-⟩ := kept.seated ev.tid seq found
  refine ⟨seq',found',?_⟩
  rw [sliceOf,sliceOf,trackOf,trackOf,threadDescriptor,threadDescriptor,processSequenceId,processSequenceId,kept.slot,
    kept.uuid,kept.pid,own]

theorem Keeps.templated (kept : Keeps ex next) (templates : next.templates = ex.templates)
    (bytes : next.templateBytes = ex.templateBytes) (had : Templated ex) : Templated next := by
  intro tid codeId opening range small found
  rw [templates] at found
  obtain ⟨seq,o,there,opened,held⟩ := had tid codeId opening range small found
  obtain ⟨seq',there',own,codes⟩ := kept.seated tid seq there
  exact ⟨seq',o,there',opened.keeps codes,by rw [bytes,own]; exact held⟩

-- Where an exporter stands that has written `shown` and holds `pending` in its buffer.
structure Told (codes : CodeLookup) (threads : ThreadNames) (seen : List UInt32) (shown pending : List Event)
    (ex : ProtoExporter) : Prop where
  numbered : Numbered ex.slot seen ex
  coded : ∀ s ∈ ex.sequences, s.2.header = sequenceHeader s.2.id ∧ Coded codes s.2
  templated : Templated ex
  file : ∃ packets slices, Carries (written ex.out) packets ∧
    Tables.readPackets ⟨[],[]⟩ packets = some (ex.tables codes threads,slices) ∧
    List.Forall₂ (Shows codes threads ex) shown slices
  buffer : ∃ packets, Carries ex.buf packets ∧ List.Forall₂ (Seated ex) pending packets
  intact : ex.panicked = false

variable {codes : CodeLookup} {threads : ThreadNames} {seen : List UInt32} {shown pending : List Event}
variable {encode : TracePacket → List UInt8} (prost : ∀ packet, decode (encode packet) = some packet)

theorem new_told (codes : CodeLookup) (threads : ThreadNames) (pid : Int32) (slot : UInt32) :
    Told codes threads [] [] [] (new pid slot) where
  numbered := new_numbered pid slot
  coded _ mem := by cases mem
  templated tid codeId opening range _ found := by cases found
  file := ⟨[],[],.nil,rfl,.nil⟩
  buffer := ⟨[],.nil,.nil⟩
  intact := rfl

include prost in
theorem Told.packet {packet : TracePacket} (had : Told codes threads seen shown pending ex) (fits : Fits next) (kept : Keeps ex next)
    (numbered : Numbered next.slot seen' next)
    (coded : ∀ s ∈ next.sequences, s.2.header = sequenceHeader s.2.id ∧ Coded codes s.2)
    (out : next.out = (ex.writePacket encode packet).out)
    (read : (ex.tables codes threads).readPacket packet = some (next.tables codes threads,[]))
    (rest : next.templates = ex.templates ∧ next.templateBytes = ex.templateBytes ∧ next.buf = ex.buf ∧
      next.panicked = ex.panicked) :
    Told codes threads seen' shown pending next where
  numbered := numbered
  coded := coded
  templated := kept.templated rest.1 rest.2.1 had.templated
  file := by
    obtain ⟨packets,slices,carried,reading,shows⟩ := had.file
    have bytes : written next.out = written ex.out ++ framed (encode packet) := by
      rw [out]
      simp [writePacket,OutCall.bytes,framed]
    have short : (encode packet).length < 2 ^ 64 := by
      apply fits.slices (.write (encode packet))
      rw [out]
      simp [writePacket]
    refine ⟨packets ++ [packet],slices,?_,?_,shows.imp fun _ _ => kept.shows⟩
    · rw [bytes]
      exact carried.append (.frame short (prost packet))
    · simpa using readPackets_append reading (readPackets_one read)
  buffer := by
    obtain ⟨packets,carried,seated⟩ := had.buffer
    exact ⟨packets,rest.2.2.1 ▸ carried,seated.imp fun _ _ => kept.seat⟩
  intact := rest.2.2.2.trans had.intact

include prost in
theorem ensureProcess_told (had : Told codes threads seen shown pending ex) (fits : Fits (ex.ensureProcess encode)) :
    Told codes threads seen shown pending (ex.ensureProcess encode) := by
  have numbered := (ensureProcess_numbered encode had.numbered).1
  have kept := ensureProcess_keeps encode ex
  rcases ensureProcess_cases encode ex with ⟨-,same⟩ | ⟨first,announced⟩
  · rw [same]
    exact had
  · rw [announced] at fits kept numbered ⊢
    exact had.packet prost fits kept numbered had.coded rfl (read_process had.numbered first) ⟨rfl,rfl,rfl,rfl⟩

include prost in
theorem ensureSequence_told (had : Told codes threads seen shown pending ex) (emitted : ex.processEmitted = true)
    (tid : UInt32) (fits : Fits (ex.ensureSequence encode tid threads)) :
    Told codes threads (seen ++ [tid]) shown pending (ex.ensureSequence encode tid threads) := by
  have numbered := (ensureSequence_numbered encode had.numbered emitted tid threads).1
  have kept := ensureSequence_keeps encode ex tid threads
  rcases ensureSequence_cases encode ex tid threads with ⟨-,same⟩ | ⟨-,added⟩
  · rw [same] at numbered ⊢
    exact {had with numbered := numbered}
  · rw [added] at fits kept numbered ⊢
    have few : ex.sequences.length + 1 < 2 ^ 32 := by
      simpa using fits.threads
    apply had.packet prost fits kept numbered _ rfl
      (read_thread had.numbered emitted few ⟨rfl,rfl,rfl,rfl⟩ rfl) ⟨rfl,rfl,rfl,rfl⟩
    intro s mem
    rcases List.mem_append.mp mem with old | new
    · exact had.coded s old
    · obtain rfl := List.mem_singleton.mp new
      exact ⟨rfl,rfl,List.nodup_nil,fun _ none => by cases none⟩

include prost in
theorem codeIid_told (had : Told codes threads seen shown pending ex) {seq : Sequence}
    (known : ex.sequences.lookup tid = some seq) (interned : ex.codeIid encode tid codeId codes = some (next,entry))
    (fits : Fits next) : Told codes threads seen shown pending next := by
  have kept := codeIid_keeps encode known interned
  have mem := Assoc.mem_of_lookup known
  have quiet : Quiet ex next := by
    obtain ⟨_,_,again,quiet⟩ := codeIid_quiet encode codeId codes known
    rw [interned] at again
    cases again
    exact quiet
  rcases codeIid_cases encode codeId codes known with ⟨_,-,same⟩ | ⟨iid,fresh,rfl,added⟩
  · rw [same] at interned
    cases interned
    exact had
  · rw [added] at interned
    cases interned
    have few := (kept.fits fits).threads
    apply had.packet prost fits kept (had.numbered.quiet quiet) _ rfl
      (read_name had.numbered few mem (had.coded _ mem).2 ⟨rfl,rfl,rfl,rfl⟩ rfl) ⟨rfl,rfl,rfl,rfl⟩
    intro s there
    rw [insertCode_sequences] at there
    obtain ⟨e,eMem,rfl⟩ := List.mem_map.mp there
    by_cases own : e.1 = tid
    · have whole := List.inj_on_of_nodup_map had.numbered.distinct eMem mem own
      subst whole
      rw [if_pos rfl]
      exact ⟨(had.coded _ mem).1,(had.coded _ mem).2.snoc fresh⟩
    · rw [if_neg own]
      exact had.coded e eMem

theorem addTemplate_told (had : Told codes threads seen shown pending ex) {seq : Sequence}
    (known : ex.sequences.lookup tid = some seq) (opened : Opened seq codeId opening o) (small : codeId.toNat < 2 ^ 24)
    (fits : Fits (ex.addTemplate (templateKey tid codeId opening) seq.header (eventFields o)).1) :
    Told codes threads seen shown pending (ex.addTemplate (templateKey tid codeId opening) seq.header (eventFields o)).1
    where
  numbered := had.numbered.quiet (addTemplate_quiet ..)
  coded := had.coded
  templated := by
    intro tid' codeId' opening' range small' found
    have header := (had.coded _ (Assoc.mem_of_lookup known)).1
    have bytes : (ex.addTemplate (templateKey tid codeId opening) seq.header (eventFields o)).1.templateBytes =
        ex.templateBytes ++ templateBody (sequenceHeader seq.id) (eventFields o) := by
      rw [← header]
      simp [addTemplate,templateBody]
    have whole := fits.text
    rw [bytes] at whole ⊢
    have lengths := whole
    rw [List.length_append] at lengths
    simp only [addTemplate,Assoc.lookup_snoc] at found
    cases old : ex.templates.lookup (templateKey tid' codeId' opening') with
    | some range' =>
      rw [old] at found
      cases found
      obtain ⟨seq',o',there,opened',held⟩ := had.templated tid' codeId' opening' _ small' old
      exact ⟨seq',o',there,opened',held.more _⟩
    | none =>
      rw [old,Option.none_or] at found
      split at found
      · rename_i same
        obtain ⟨rfl,rfl,code⟩ := templateKey_apart small' small (eq_of_beq same)
        cases found
        refine ⟨seq,o,known,?_,ex.templateBytes,[],(List.append_nil _).symm,?_,?_⟩
        · cases opening' with
          | false => exact opened
          | true =>
            rw [code rfl]
            exact opened
        · exact UInt32.toNat_ofNat_of_lt' (by rw [UInt32.size]; omega)
        · have size : (UInt32.ofNat (ex.templateBytes ++ templateBody (sequenceHeader seq.id) (eventFields o)).length -
              .ofNat ex.templateBytes.length).toNat = (templateBody (sequenceHeader seq.id) (eventFields o)).length := by
            rw [UInt32.toNat_sub_of_le,UInt32.toNat_ofNat_of_lt' whole,UInt32.toNat_ofNat_of_lt' (by rw [UInt32.size]; omega),
              List.length_append]
            · omega
            · apply UInt32.le_iff_toNat_le.mpr
              rw [UInt32.toNat_ofNat_of_lt' whole,UInt32.toNat_ofNat_of_lt' (by rw [UInt32.size]; omega),
                List.length_append]
              omega
          rw [← bytes] at size
          exact size
      · cases found
  file := had.file
  buffer := had.buffer
  intact := had.intact

include prost in
theorem template_told (had : Told codes threads seen shown pending ex) {seq : Sequence} (small : codeId.toNat < 2 ^ 24)
    (known : ex.sequences.lookup tid = some seq)
    (made : ex.template encode tid codeId opening codes = some (next,range)) (fits : Fits next) :
    Told codes threads seen shown pending next ∧ ∃ seq' o, next.sequences.lookup tid = some seq' ∧
      Opened seq' codeId opening o ∧
      Holds next.templateBytes range (templateBody (sequenceHeader seq'.id) (eventFields o)) := by
  have found : Told codes threads seen shown pending next →
      next.templates.lookup (templateKey tid codeId opening) = some range →
        Told codes threads seen shown pending next ∧ ∃ seq' o, next.sequences.lookup tid = some seq' ∧
          Opened seq' codeId opening o ∧
          Holds next.templateBytes range (templateBody (sequenceHeader seq'.id) (eventFields o)) :=
    fun told there => ⟨told,told.templated tid codeId opening range small there⟩
  rcases template_cases encode codeId opening codes known with
    ⟨_,cached,same⟩ | ⟨missing,rfl,added⟩ | ⟨mid,entry,missing,rfl,interned,added⟩
  · rw [same] at made
    cases made
    exact found had cached
  · rw [added] at made
    cases made
    apply found (addTemplate_told had known rfl small fits)
    simp only [Assoc.lookup_snoc,missing,Option.none_or,beq_self_eq_true,if_pos]
  · rw [added] at made
    cases made
    obtain ⟨seq',there,-,header,code⟩ := codeIid_lookup encode known interned
    rw [← header] at fits found ⊢
    have told := codeIid_told prost had known interned ((addTemplate_keeps mid ..).fits fits)
    have unknown : mid.templates.lookup (templateKey tid codeId true) = none := by
      rw [codeIid_templates encode known interned]
      exact missing
    apply found (addTemplate_told told there ⟨entry,rfl,code⟩ small fits)
    simp only [Assoc.lookup_snoc,unknown,Option.none_or,beq_self_eq_true,if_pos]

theorem pushEvent_held {ex : ProtoExporter} (held : Holds ex.templateBytes range body)
    (fits : ex.templateBytes.length < 2 ^ 32) (id : UInt32) (tsNs : UInt64) :
    (ex.pushEvent id tsNs range).buf = ex.buf ++ framed (Tag.timestamp :: (varint tsNs ++ body)) ∧
      (ex.pushEvent id tsNs range).panicked = ex.panicked := by
  obtain ⟨start,len⟩ := range
  obtain ⟨piece,order,inside⟩ := held.slice fits
  obtain ⟨-,-,-,-,size⟩ := held
  have length : (Tag.timestamp :: (varint tsNs ++ body)).length = 1 + (varint tsNs).length + len.toNat := by
    rw [List.length_cons,List.length_append,size]
    omega
  constructor
  · unfold pushEvent framed
    rw [length]
    simp only [piece]
  · have fine : decide (start.toNat ≤ (start + len).toNat ∧ (start + len).toNat ≤ ex.templateBytes.length) = true :=
      decide_eq_true ⟨order,inside⟩
    unfold pushEvent
    simp only [fine,Bool.not_true,Bool.or_false]

theorem pushEvent_told (had : Told codes threads seen shown pending ex) {seq : Sequence}
    (known : ex.sequences.lookup ev.tid = some seq) (opened : Opened seq ev.codeId ev.kind.opensSlice o)
    (held : Holds ex.templateBytes range (templateBody (sequenceHeader seq.id) (eventFields o))) (fits : Fits ex) :
    Told codes threads seen shown (pending ++ [ev]) (ex.pushEvent seq.id ev.tsNs range) where
  numbered := had.numbered.quiet (pushEvent_quiet ex ev.tsNs range (sequence_own known))
  coded := had.coded
  templated := had.templated
  file := had.file
  buffer := by
    obtain ⟨packets,carried,seated⟩ := had.buffer
    have short : (Wire.writeFields (packetWire seq.id ev.tsNs o)).length < 2 ^ 64 := by
      obtain ⟨before,after,whole,-,-⟩ := held
      have digits : (varint ev.tsNs).length ≤ 10 := varintLoop_length 9 ev.tsNs
      have text := fits.text
      rw [whole,List.length_append,List.length_append] at text
      rw [← packet_eq,List.length_cons,List.length_append]
      omega
    refine ⟨packets ++ [eventPacket seq.id ev.tsNs o],?_,
      List.rel_append seated (.cons ⟨seq,o,known,opened,rfl⟩ .nil)⟩
    rw [(pushEvent_held held fits.text seq.id ev.tsNs).1,packet_eq]
    exact carried.append (.frame short (decode_event seq.id ev.tsNs o))
  intact := by
    rw [(pushEvent_held held fits.text seq.id ev.tsNs).2]
    exact had.intact

include prost in
theorem writeEvent_told (had : Told codes threads seen shown pending ex) (emitted : ex.processEmitted = true)
    (wrote : ex.writeEvent encode ev codes threads = some next) (fits : Fits next) :
    Told codes threads (seen ++ [ev.tid]) shown (pending ++ [ev]) next ∧ next.processEmitted = true := by
  obtain ⟨made,range,seq,templated,found,rfl⟩ := writeEvent_cases encode wrote
  obtain ⟨seq₀,known⟩ := ensureSequence_known encode ex ev.tid threads
  have later := (pushEvent_keeps made seq.id ev.tsNs range).fits fits
  have earlier := (template_keeps encode known templated).fits later
  have small : ev.codeId.toNat < 2 ^ 24 := by
    rw [Event.codeId,codeIdOf,mask_toNat]
    exact Nat.mod_lt _ (by decide)
  have seated := ensureSequence_told prost had emitted ev.tid earlier
  obtain ⟨told,seq',o,there,opened,held⟩ := template_told prost seated small known templated later
  rw [found] at there
  cases there
  have pushed := pushEvent_told told found opened held later
  exact ⟨pushed,pushed.numbered.emitted (List.ne_nil_of_mem (Assoc.mem_of_lookup found))⟩

include prost in
theorem events_told (had : Told codes threads seen shown pending ex) (emitted : ex.processEmitted = true)
    {events : List Event} (wrote : events.foldlM (fun ex ev => ex.writeEvent encode ev codes threads) ex = some next)
    (fits : Fits next) : Told codes threads (seen ++ events.map (·.tid)) shown (pending ++ events) next := by
  induction events generalizing ex seen pending with
  | nil =>
    cases wrote
    simpa using had
  | cons ev rest ih =>
    rw [List.foldlM_cons] at wrote
    obtain ⟨mid,first,later⟩ := Option.bind_eq_some_iff.mp wrote
    obtain ⟨told,still⟩ := writeEvent_told prost had emitted first ((events_keeps encode later).fits fits)
    simpa using ih told still later

theorem read_seated (numbered : Numbered ex.slot seen ex) (few : ex.sequences.length < 2 ^ 32)
    (coded : ∀ s ∈ ex.sequences, s.2.header = sequenceHeader s.2.id ∧ Coded codes s.2)
    (seated : List.Forall₂ (Seated ex) events packets) : ∃ slices, (ex.tables codes threads).readPackets packets =
      some (ex.tables codes threads,slices) ∧ List.Forall₂ (Shows codes threads ex) events slices := by
  induction seated with
  | nil => exact ⟨[],rfl,.nil⟩
  | cons here _ ih =>
    obtain ⟨seq,o,found,opened,rfl⟩ := here
    obtain ⟨slices,reading,matching⟩ := ih
    have mem := Assoc.mem_of_lookup found
    have one : (ex.tables codes threads).readPacket _ = _ := read_event numbered few _ mem (coded _ mem).2 opened
    exact ⟨_,readPackets_append (readPackets_one one) reading,.cons ⟨seq,found,rfl⟩ matching⟩

theorem flush_told (had : Told codes threads seen shown pending ex)
    (fits : Fits {ex with out := ex.out ++ [.write ex.buf,.flush]}) :
    Told codes threads seen (shown ++ pending) pending {ex with out := ex.out ++ [.write ex.buf,.flush]} where
  numbered := had.numbered.quiet ⟨rfl,rfl,rfl,rfl,fun _ mem => mem,fun _ mem => .inl mem⟩
  coded := had.coded
  templated := had.templated
  file := by
    obtain ⟨packets,slices,carried,read,shows⟩ := had.file
    obtain ⟨more,buffered,seated⟩ := had.buffer
    have bytes : written (ex.out ++ [.write ex.buf,.flush]) = written ex.out ++ ex.buf := by
      simp [OutCall.bytes]
    obtain ⟨others,reading,matching⟩ := read_seated had.numbered fits.threads had.coded seated
    refine ⟨packets ++ more,slices ++ others,?_,readPackets_append read reading,List.rel_append shows matching⟩
    rw [bytes]
    exact carried.append buffered
  buffer := had.buffer
  intact := had.intact

end ProtoExporter

end Proto
end Trace0
