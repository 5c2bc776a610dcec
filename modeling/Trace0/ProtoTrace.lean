import Trace0.Lib.Merge
import Trace0.ProtoMessages
import Trace0.ProtoTold

namespace Trace0
namespace Proto

section Telling

namespace ProtoExporter

variable {ex next : ProtoExporter} {codes : CodeLookup} {threads : ThreadNames} {seen : List UInt32}
  {shown pending : List Event}

theorem Told.clear (had : Told codes threads seen shown pending ex) :
    Told codes threads seen shown [] {ex with buf := []} where
  numbered := had.numbered.quiet ⟨rfl,rfl,rfl,rfl,fun _ mem => mem,fun _ mem => .inl mem⟩
  coded := had.coded
  templated := had.templated
  file := had.file
  buffer := ⟨[],.nil,.nil⟩
  intact := had.intact

variable {encode : TracePacket → List UInt8} (prost : ∀ packet, decode (encode packet) = some packet)

include prost in
theorem writeBatch_told (had : Told codes threads seen shown pending ex)
    (wrote : ex.writeBatch encode events codes threads = some next) (fits : Fits next) :
    Told codes threads (seen ++ events.map (·.tid)) (shown ++ events) events next := by
  obtain ⟨last,run,flushed⟩ := Option.bind_eq_some_iff.mp wrote
  cases flushed
  have sent : Keeps last {last with out := last.out ++ [.write last.buf,.flush]} :=
    .of_same rfl rfl rfl rfl le_rfl (by simp)
  have cleared : Keeps (ex.ensureProcess encode) {ex.ensureProcess encode with buf := []} :=
    .of_same rfl rfl rfl rfl le_rfl (List.prefix_refl _)
  have earlier := cleared.fits ((events_keeps encode run).fits (sent.fits fits))
  have emitted := (ensureProcess_numbered encode had.numbered).2
  have announced := (ensureProcess_told prost had earlier).clear
  have told := events_told prost announced emitted run (sent.fits fits)
  rw [List.nil_append] at told
  exact flush_told told fits

include prost in
theorem batches_told (had : Told codes threads seen shown pending ex) {batches : List (List Event)}
    (wrote : batches.foldlM (fun ex events => writeBatch encode ex events codes threads) ex = some next)
    (fits : Fits next) :
    ∃ last, Told codes threads (seen ++ batches.flatten.map (·.tid)) (shown ++ batches.flatten) last next := by
  induction batches generalizing ex seen shown pending with
  | nil =>
    cases wrote
    exact ⟨pending,by simpa using had⟩
  | cons events rest ih =>
    rw [List.foldlM_cons] at wrote
    obtain ⟨mid,first,later⟩ := Option.bind_eq_some_iff.mp wrote
    have told := writeBatch_told prost had first ((batches_keeps encode later).fits fits)
    simpa using ih told later

theorem finish_keeps (encode : TracePacket → List UInt8) (ex : ProtoExporter) (dropped : UInt64) :
    Keeps ex (ex.finish encode dropped) := by
  unfold finish
  by_cases lost : 0 < dropped
  · simp only [if_pos lost]
    have announced := ensureProcess_keeps encode ex
    have sent := writePacket_keeps encode (ex.ensureProcess encode) ((ex.ensureProcess encode).droppedPacket dropped)
    exact (announced.trans sent).trans (.of_same rfl rfl rfl rfl le_rfl (by simp))
  · simp only [if_neg lost]
    exact .of_same rfl rfl rfl rfl le_rfl (by simp)

theorem flushed_told (had : Told codes threads seen shown pending ex) :
    Told codes threads seen shown pending {ex with out := ex.out ++ [.flush]} where
  numbered := had.numbered.quiet ⟨rfl,rfl,rfl,rfl,fun _ mem => mem,fun _ mem => .inl mem⟩
  coded := had.coded
  templated := had.templated
  file := by
    obtain ⟨packets,slices,carried,read,shows⟩ := had.file
    refine ⟨packets,slices,?_,read,shows⟩
    simpa [OutCall.bytes] using carried
  buffer := had.buffer
  intact := had.intact

include prost in
theorem finish_told (had : Told codes threads seen shown pending ex) (dropped : UInt64)
    (fits : Fits (ex.finish encode dropped)) : Told codes threads seen shown pending (ex.finish encode dropped) := by
  have numbered := (finish_numbered encode had.numbered dropped).1
  unfold finish at fits numbered ⊢
  by_cases lost : 0 < dropped
  · simp only [if_pos lost] at fits numbered ⊢
    have sent : Keeps ((ex.ensureProcess encode).writePacket encode ((ex.ensureProcess encode).droppedPacket dropped))
        {(ex.ensureProcess encode).writePacket encode ((ex.ensureProcess encode).droppedPacket dropped) with
          out := ((ex.ensureProcess encode).writePacket encode
            ((ex.ensureProcess encode).droppedPacket dropped)).out ++ [.flush]} :=
      .of_same rfl rfl rfl rfl le_rfl (by simp)
    have later := sent.fits fits
    have kept := writePacket_keeps encode (ex.ensureProcess encode) ((ex.ensureProcess encode).droppedPacket dropped)
    have announced := ensureProcess_told prost had (kept.fits later)
    have emitted := (ensureProcess_numbered encode had.numbered).2
    apply flushed_told
    apply announced.packet prost later kept _ announced.coded rfl
      (read_dropped announced.numbered (kept.fits later).threads emitted dropped) ⟨rfl,rfl,rfl,rfl⟩
    have same : Numbered ex.slot seen
        ((ex.ensureProcess encode).writePacket encode ((ex.ensureProcess encode).droppedPacket dropped)) :=
      numbered.quiet ⟨rfl,rfl,rfl,rfl,fun _ mem => mem,fun _ mem => .inl mem⟩
    rw [same.ownSlot]
    exact same
  · simp only [if_neg lost]
    exact flushed_told had

end ProtoExporter

open ProtoExporter

def shownAs (pid : Int32) (codes : CodeLookup) (threads : ThreadNames) (trackOf : UInt32 → UInt64) (ev : Event) :
    Slice where
  tsNs := ev.tsNs
  opens := ev.kind.opensSlice
  track := trackOf ev.tid
  thread := ⟨some pid,some ev.tid.toInt32,threads ev.tid⟩
  categories := if ev.kind.opensSlice then ["py"] else []
  name := if ev.kind.opensSlice then some (((codes ev.codeId).map (·.qualname)).getD "<unknown>") else none
  location := if ev.kind.opensSlice then (codes ev.codeId).map fun i => (i.filename,i.firstlineno) else none

def trackOfThread (ex : ProtoExporter) (tid : UInt32) : UInt64 :=
  ((ex.sequences.lookup tid).map fun seq => ex.trackOf seq.id).getD 0

theorem trackOfThread_apart {ex : ProtoExporter} {slot : UInt32} {seen : List UInt32} (there : Numbered slot seen ex)
    (few : ex.sequences.length < 2 ^ 32) : Set.InjOn (trackOfThread ex) {tid | tid ∈ seen} := by
  intro left leftMem right rightMem same
  have seat : ∀ tid ∈ seen, ∃ seq, ex.sequences.lookup tid = some seq := by
    intro tid mem
    apply Option.isSome_iff_exists.mp
    rw [Assoc.lookup_isSome]
    exact (there.known tid).mpr mem
  obtain ⟨seq,found⟩ := seat left leftMem
  obtain ⟨seq',found'⟩ := seat right rightMem
  rw [trackOfThread,trackOfThread,found,found'] at same
  have own : seq.id = seq'.id := trackOf_apart ex same
  have ids := (List.nodup_cons.mp (ids_distinct there few)).2
  exact congrArg (·.1) (List.inj_on_of_nodup_map ids (Assoc.mem_of_lookup found) (Assoc.mem_of_lookup found') own)

theorem map_of_forall₂ {R : A → B → Prop} {f : A → B} (each : List.Forall₂ R as bs) (image : ∀ a b, R a b → b = f a) :
    bs = as.map f := by
  induction each with
  | nil => rfl
  | cons head _ ih => rw [List.map_cons,← ih,image _ _ head]

theorem trace_decodes {encode : TracePacket → List UInt8} (prost : ∀ packet, decode (encode packet) = some packet)
    (pid : Int32) (slot : UInt32) (codes : CodeLookup) (threads : ThreadNames) (batches : List (List Event))
    (dropped : UInt64) (room : slot.toNat * 128 + 2 + threadCount batches < 2 ^ 32) :
    ∃ done, exported encode (.new pid slot) codes threads batches dropped = some done ∧
      (done.templateBytes.length < 2 ^ 32 → (∀ call ∈ done.out, call.bytes.length < 2 ^ 64) →
        done.panicked = false ∧ ∃ trackOf : UInt32 → UInt64, Set.InjOn trackOf {tid | tid ∈ batches.flatten.map (·.tid)} ∧
          readTrace (written done.out) = some (batches.flatten.map (shownAs pid codes threads trackOf))) := by
  obtain ⟨done,run,numbered,-⟩ := exported_numbered encode pid slot codes threads batches dropped
  refine ⟨done,run,?_⟩
  intro text slices
  have fits : Fits done := by
    refine ⟨?_,text,slices⟩
    have count : done.sequences.length = threadCount batches := numbered.count
    omega
  obtain ⟨last,batched,rfl⟩ := Option.map_eq_some_iff.mp run
  obtain ⟨pending,told⟩ := batches_told prost (new_told codes threads pid slot) batched
    ((finish_keeps encode last dropped).fits fits)
  have ended := finish_told prost told dropped fits
  obtain ⟨packets,shown,carried,read,shows⟩ := ended.file
  have pids : (last.finish encode dropped).pid = pid :=
    (finish_keeps encode last dropped).pid.trans (batches_keeps encode batched).pid
  refine ⟨ended.intact,trackOfThread (last.finish encode dropped),trackOfThread_apart numbered fits.threads,?_⟩
  rw [carried.read read,Option.some.injEq]
  apply map_of_forall₂ shows
  rintro ev slice ⟨seq,found,rfl⟩
  rw [sliceOf,shownAs,threadDescriptor,trackOfThread,found,pids]
  rfl

def forkedEvents : List (List Event) :=
  [[⟨5,10,packCodeKind 0 .Begin⟩],[⟨300,11,packCodeKind 1 .Resume⟩,⟨900,10,packCodeKind 0 .End⟩]]

def mainOnly : CodeLookup := fun codeId => if codeId = 0 then some ⟨"main","app.py",3⟩ else none

theorem trace_decodes_forked : ∃ done trackOf,
    exported encode (.new 7 3) mainOnly (fun _ => none) forkedEvents 1 = some done ∧
      readTrace (written done.out) = some (forkedEvents.flatten.map (shownAs 7 mainOnly (fun _ => none) trackOf)) := by
  obtain ⟨done,run,decodes⟩ := trace_decodes decode_encode 7 3 mainOnly (fun _ => none) forkedEvents 1 (by decide)
  have sizes : (exported encode (.new 7 3) mainOnly (fun _ => none) forkedEvents 1).all (fun done =>
      decide (done.templateBytes.length < 2 ^ 32 ∧ ∀ call ∈ done.out, call.bytes.length < 2 ^ 64)) = true := by
    decide +kernel
  rw [run,Option.all_some] at sizes
  obtain ⟨text,slices⟩ := of_decide_eq_true sizes
  obtain ⟨-,trackOf,-,read⟩ := decodes text slices
  exact ⟨done,trackOf,run,read⟩

end Telling

open ProtoExporter

theorem readPacket_cases {t t' : Tables} {p : TracePacket} {out : List Slice} (read : t.readPacket p = some (t',out)) :
    ∃ id s s', p.trustedPacketSequenceId = some id ∧ t.sequence id p = some s ∧
      s.learn (p.internedData.getD ⟨[],[],[]⟩) = some s' ∧
        ((∃ track u, p.data = some (.trackDescriptor track) ∧ track.uuid = some u ∧
            t' = {t.put id s' with tracks := (t.put id s').tracks ++ [(u,track)]} ∧ out = []) ∨
          ((∀ track, p.data ≠ some (.trackDescriptor track)) ∧ t' = t.put id s' ∧
            (out = [] ∨ ∃ ev opening slice, p.data = some (.trackEvent ev) ∧
              ev.type = some (if opening then .sliceBegin else .sliceEnd) ∧
              (t.put id s').slice s' p ev opening = some slice ∧ out = [slice]))) := by
  simp only [Tables.readPacket,Option.bind_eq_bind,Option.bind_eq_some_iff] at read
  obtain ⟨id,own,s,state,s',learnt,shown⟩ := read
  refine ⟨id,s,s',own,state,learnt,?_⟩
  cases data : p.data with
  | none =>
    simp only [data,Option.some.injEq,Prod.mk.injEq] at shown
    exact .inr ⟨by simp,shown.1.symm,.inl shown.2.symm⟩
  | some d =>
    cases d with
    | trackDescriptor track =>
      simp only [data,Option.bind_eq_some_iff,Option.some.injEq,Prod.mk.injEq] at shown
      obtain ⟨u,uuid,rfl,rfl⟩ := shown
      exact .inl ⟨track,u,rfl,uuid,rfl,rfl⟩
    | trackEvent ev =>
      apply Or.inr
      refine ⟨by simp,?_⟩
      simp only [data] at shown
      split at shown
      · rename_i type
        simp only [Option.bind_eq_some_iff,Option.some.injEq,Prod.mk.injEq] at shown
        obtain ⟨slice,seen,rfl,rfl⟩ := shown
        exact ⟨rfl,.inr ⟨ev,true,slice,rfl,by rw [type]; rfl,seen,rfl⟩⟩
      · rename_i type
        simp only [Option.bind_eq_some_iff,Option.some.injEq,Prod.mk.injEq] at shown
        obtain ⟨slice,seen,rfl,rfl⟩ := shown
        exact ⟨rfl,.inr ⟨ev,false,slice,rfl,by rw [type]; rfl,seen,rfl⟩⟩
      · simp only [Option.some.injEq,Prod.mk.injEq] at shown
        exact ⟨shown.1.symm,.inl shown.2.symm⟩

theorem put_lookup (t : Tables) (id other : UInt32) (s : Interned) :
    (t.put id s).sequences.lookup other = if other = id then some s else t.sequences.lookup other := by
  cases known : t.sequences.lookup id with
  | some old =>
    rw [put_old known,Assoc.alter_lookup]
    by_cases same : other = id
    · simp [same,known]
    · rw [if_neg same]
      cases t.sequences.lookup other <;> simp [same]
  | none =>
    rw [put_new known,Assoc.lookup_snoc]
    by_cases same : other = id
    · simp [same,known]
    · simp [same]

theorem put_tracks (t : Tables) (id : UInt32) (s : Interned) : (t.put id s).tracks = t.tracks := by
  unfold Tables.put
  split <;> rfl

theorem slice_on {t u : Tables} {s : Interned} {p : TracePacket} {ev : TrackEvent} {opening : Bool} {slice : Slice}
    (same : ∀ track, (t.tracks.lookup track).isSome → u.tracks.lookup track = t.tracks.lookup track)
    (seen : t.slice s p ev opening = some slice) : u.slice s p ev opening = some slice := by
  simp only [Tables.slice,Option.bind_eq_bind,Option.bind_eq_some_iff] at seen ⊢
  obtain ⟨a,needs,tsNs,stamp,track,default,described,found,rest⟩ := seen
  refine ⟨a,needs,tsNs,stamp,track,default,described,?_,rest⟩
  rw [same track (by rw [found]; rfl)]
  exact found

section merged

variable {κ : Type} {ids : κ → Set UInt32} {tracks : κ → Set UInt64}

-- A packet on one of its owner's sequences that describes none but its owner's tracks.
structure Owns (ids : κ → Set UInt32) (tracks : κ → Set UInt64) (k : κ) (p : TracePacket) : Prop where
  sequence : ∀ id, p.trustedPacketSequenceId = some id → id ∈ ids k
  track : ∀ d u, p.data = some (.trackDescriptor d) → d.uuid = some u → u ∈ tracks k

structure Agrees (ids : κ → Set UInt32) (tracks : κ → Set UInt64) (k : κ) (t s : Tables) : Prop where
  sequences : ∀ id ∈ ids k, t.sequences.lookup id = s.sequences.lookup id
  described : ∀ u ∈ tracks k, t.tracks.lookup u = s.tracks.lookup u
  inside : ∀ u, (s.tracks.lookup u).isSome → u ∈ tracks k

theorem Agrees.follows {k : κ} {t s s' : Tables} {p : TracePacket} {out : List Slice} (own : Owns ids tracks k p)
    (agree : Agrees ids tracks k t s) (read : s.readPacket p = some (s',out)) :
    ∃ t', t.readPacket p = some (t',out) ∧ Agrees ids tracks k t' s' := by
  obtain ⟨id,i,i',stamped,state,learnt,shown⟩ := readPacket_cases read
  have mine := own.sequence id stamped
  have state' : t.sequence id p = some i := by
    rw [← state]
    unfold Tables.sequence
    rw [agree.sequences id mine]
  have sequences : ∀ other ∈ ids k, (t.put id i').sequences.lookup other = (s.put id i').sequences.lookup other := by
    intro other mem
    rw [put_lookup,put_lookup,agree.sequences other mem]
  have put : Agrees ids tracks k (t.put id i') (s.put id i') := by
    refine ⟨sequences,?_,?_⟩
    · rw [put_tracks,put_tracks]
      exact agree.described
    · rw [put_tracks]
      exact agree.inside
  rcases shown with ⟨track,u,data,uuid,rfl,rfl⟩ | ⟨other,rfl,rfl | ⟨ev,opening,slice,data,type,seen,rfl⟩⟩
  · refine ⟨_,read_descriptor stamped state' learnt data uuid,put.sequences,?_,?_⟩
    · intro v mem
      simp only [Assoc.lookup_snoc,put.described v mem]
    · intro v there
      simp only [Assoc.lookup_snoc,Option.isSome_or,Bool.or_eq_true] at there
      rcases there with old | new
      · exact put.inside v old
      · split at new
        · rename_i same
          rw [eq_of_beq same]
          exact own.track track u data uuid
        · cases new
  · refine ⟨t.put id i',?_,put⟩
    cases data : p.data with
    | none => exact read_interned stamped state' learnt data
    | some d =>
      cases d with
      | trackDescriptor track => exact absurd data (other track)
      | trackEvent ev =>
        simp only [Tables.readPacket,stamped,state,state',learnt,data,Option.bind_eq_bind,Option.bind_some] at read ⊢
        split at read
        · obtain ⟨_,-,same⟩ := Option.bind_eq_some_iff.mp read
          cases same
        · obtain ⟨_,-,same⟩ := Option.bind_eq_some_iff.mp read
          cases same
        · rfl
  · refine ⟨t.put id i',?_,put⟩
    have mirrored : (t.put id i').slice i' p ev opening = some slice := by
      refine slice_on ?_ seen
      intro v there
      exact put.described v (put.inside v there)
    rw [read_slice opening stamped state' learnt data type,mirrored]
    rfl

theorem Agrees.frame {j k : κ} {t t' s : Tables} {p : TracePacket} {out : List Slice}
    (apart : ∀ id ∈ ids j, id ∉ ids k) (aside : ∀ u ∈ tracks j, u ∉ tracks k) (own : Owns ids tracks k p)
    (read : t.readPacket p = some (t',out)) (agree : Agrees ids tracks j t s) : Agrees ids tracks j t' s := by
  obtain ⟨id,i,i',stamped,-,-,shown⟩ := readPacket_cases read
  have mine := own.sequence id stamped
  have put : Agrees ids tracks j (t.put id i') s := by
    refine ⟨?_,?_,agree.inside⟩
    · intro other mem
      rw [put_lookup,if_neg,agree.sequences other mem]
      rintro rfl
      exact apart _ mem mine
    · rw [put_tracks]
      exact agree.described
  rcases shown with ⟨track,u,data,uuid,rfl,rfl⟩ | ⟨-,rfl,-⟩
  · refine ⟨put.sequences,?_,put.inside⟩
    intro v mem
    have other : (v == u) = false := by
      apply beq_eq_false_iff_ne.mpr
      rintro rfl
      exact aside _ mem (own.track track v data uuid)
    simp only [Assoc.lookup_snoc,other,Bool.false_eq_true,if_false,Option.or_none]
    exact put.described v mem
  · exact put

theorem packets_apart (apart : Pairwise fun j k => ∀ id ∈ ids j, id ∉ ids k)
    (aside : Pairwise fun j k => ∀ u ∈ tracks j, u ∉ tracks k) :
    Merge.Apart Tables.readPacket Tables.readPacket (Owns ids tracks) (Agrees ids tracks) where
  follows own agree read := agree.follows own read
  frame own other read agree := agree.frame (apart other) (aside other) own read

end merged

theorem readPackets_all (t : Tables) (packets : List TracePacket) :
    t.readPackets packets = Merge.readAll Tables.readPacket t packets := by
  induction packets generalizing t with
  | nil => rfl
  | cons p rest ih =>
    simp only [Tables.readPackets,Merge.readAll,ih]

structure Grown (t t' : Tables) : Prop where
  sequences : ∀ id, id ∈ t.sequences.map (·.1) → id ∈ t'.sequences.map (·.1)
  tracks : ∀ u, u ∈ t.tracks.map (·.1) → u ∈ t'.tracks.map (·.1)

theorem Grown.trans {t mid t' : Tables} (first : Grown t mid) (second : Grown mid t') : Grown t t' :=
  ⟨fun id mem => second.sequences id (first.sequences id mem),fun u mem => second.tracks u (first.tracks u mem)⟩

theorem put_keys (t : Tables) (id other : UInt32) (s : Interned) :
    other ∈ (t.put id s).sequences.map (·.1) ↔ other = id ∨ other ∈ t.sequences.map (·.1) := by
  rw [← Assoc.lookup_isSome,put_lookup,← Assoc.lookup_isSome]
  by_cases same : other = id <;> simp [same]

theorem readPacket_grown {t t' : Tables} {p : TracePacket} {out : List Slice} (read : t.readPacket p = some (t',out)) :
    Grown t t' ∧ (∀ id, p.trustedPacketSequenceId = some id → id ∈ t'.sequences.map (·.1)) ∧
      ∀ d u, p.data = some (.trackDescriptor d) → d.uuid = some u → u ∈ t'.tracks.map (·.1) := by
  obtain ⟨id,i,i',stamped,-,-,shown⟩ := readPacket_cases read
  have grown : Grown t (t.put id i') :=
    ⟨fun other mem => (put_keys t id other i').mpr (.inr mem),fun u mem => by rw [put_tracks]; exact mem⟩
  have here : id ∈ (t.put id i').sequences.map (·.1) := (put_keys t id id i').mpr (.inl rfl)
  rcases shown with ⟨track,u,data,uuid,rfl,rfl⟩ | ⟨other,rfl,-⟩
  · refine ⟨⟨grown.sequences,?_⟩,?_,?_⟩
    · intro v mem
      rw [List.map_append]
      exact List.mem_append_left _ (grown.tracks v mem)
    · intro other own
      rw [stamped] at own
      cases own
      exact here
    · intro d v own uuid'
      rw [data] at own
      cases own
      rw [uuid] at uuid'
      cases uuid'
      simp
  · refine ⟨grown,?_,?_⟩
    · intro other own
      rw [stamped] at own
      cases own
      exact here
    · intro d v own
      exact absurd own (other d)

theorem readPackets_owns {t last : Tables} {packets : List TracePacket} {slices : List Slice}
    (read : t.readPackets packets = some (last,slices)) : Grown t last ∧ ∀ p ∈ packets,
      (∀ id, p.trustedPacketSequenceId = some id → id ∈ last.sequences.map (·.1)) ∧
        ∀ d u, p.data = some (.trackDescriptor d) → d.uuid = some u → u ∈ last.tracks.map (·.1) := by
  induction packets generalizing t slices with
  | nil =>
    cases read
    exact ⟨⟨fun _ mem => mem,fun _ mem => mem⟩,fun p mem => absurd mem List.not_mem_nil⟩
  | cons p rest ih =>
    simp only [Tables.readPackets,Option.bind_eq_bind,Option.bind_eq_some_iff,Option.some.injEq,Prod.mk.injEq] at read
    obtain ⟨⟨mid,first⟩,next,⟨_,later⟩,remaining,rfl,-⟩ := read
    obtain ⟨grown,sequence,track⟩ := readPacket_grown next
    obtain ⟨onward,others⟩ := ih remaining
    refine ⟨grown.trans onward,?_⟩
    intro q mem
    rcases List.mem_cons.mp mem with rfl | behind
    · exact ⟨fun id own => onward.sequences id (sequence id own),fun d u own uuid => onward.tracks u (track d u own uuid)⟩
    · exact others q behind

end Proto
end Trace0
