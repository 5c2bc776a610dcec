import Trace0.ProtoTrace
import Trace0.SharedOutput

namespace Trace0

namespace Json

open JsonText JsonExporter SharedFile

-- One process of a traced tree: who it is, and all that its exporter is given.
structure Share where
  pid : UInt32
  codes : CodeLookup
  batches : List (List Event)
  threads : List (UInt32 × String)
  dropped : UInt64

def pidOf : Value → Option ℚ
  | .object members => (members.lookup "pid").bind fun
    | .number n => some n
    | _ => none
  | _ => none

namespace Share

variable (serde : Metadata → List (List UInt8)) (share : Share)

def calls : List OutCall :=
  ((share.batches.foldl (fun ex events => ex.writeBatch events share.codes) (JsonExporter.new share.pid)).finish serde share.threads
    share.dropped).out

def metadata : List Metadata := Json.metadata share.pid share.threads share.dropped

def entries (values : Metadata → Value) : List Value :=
  share.batches.flatten.map (entryOf share.pid share.codes) ++ share.metadata.map values

def listed (entries : List Value) : List Value := entries.filter fun entry => pidOf entry = some (share.pid.toNat : ℚ)

def groups : List (List (List UInt8)) :=
  share.batches.map (fun events => events.map fun ev => eventText share.pid share.codes ev ++ utf8 ",") ++
    [share.metadata.map fun entry => (serde entry).flatten ++ utf8 ","]

end Share

theorem batches_flushed (pid : UInt32) (codes : CodeLookup) (batches : List (List Event)) :
    Flushed (batches.flatMap (batchCalls pid codes))
      (batches.map fun events => events.map fun ev => eventText pid codes ev ++ utf8 ",") := by
  induction batches with
  | nil => exact .nil
  | cons events rest ih =>
    have writes : ∀ call ∈ [OutCall.write (events.flatMap fun ev => eventText pid codes ev ++ utf8 ",")],
        ∃ bytes, call = .write bytes := fun call mem => ⟨_,List.mem_singleton.mp mem⟩
    exact .cons writes (by simp [OutCall.bytes,List.flatMap_def]) ih

theorem calls_flushed (serde : Metadata → List (List UInt8)) (share : Share) :
    Flushed (share.calls serde) (share.groups serde) := by
  have nothing : Known share.codes (JsonExporter.new share.pid) := fun _ _ found => by cases found
  obtain ⟨same,onward⟩ := batches_out nothing share.batches
  obtain ⟨writes,whole⟩ := entries_calls serde (metadata share.pid share.threads share.dropped)
  rw [Share.calls,(finish_out serde _ share.threads share.dropped).2,same,onward]
  exact (batches_flushed share.pid share.codes share.batches).append (.one writes (whole.trans List.flatMap_def))

def Lists (record : List UInt8) (v : Value) : Prop := ∃ text, record = text ++ utf8 "," ∧ Reads text v

theorem groups_list {serde : Metadata → List (List UInt8)} {values : Metadata → Value}
    (well : ∀ entry, parse (serde entry).flatten = some (values entry)) (share : Share) :
    List.Forall₂ Lists (share.groups serde).flatten (share.entries values) := by
  unfold Share.groups Share.entries
  rw [List.flatten_append,List.flatten_singleton,← List.map_flatten]
  apply List.rel_append
  · rw [List.forall₂_map_left_iff,List.forall₂_map_right_iff,List.forall₂_same]
    exact fun ev _ => ⟨_,rfl,eventEntry_reads share.pid share.codes ev⟩
  · rw [List.forall₂_map_left_iff,List.forall₂_map_right_iff,List.forall₂_same]
    exact fun entry _ => ⟨_,rfl,reads_of_parse (well entry)⟩

theorem lists_parse {records : List (List UInt8)} {entries : List Value} (each : List.Forall₂ Lists records entries) :
    parse (utf8 "[" ++ records.flatten.dropLast ++ utf8 "]") = some (.array entries) := by
  obtain ⟨texts,own,reads⟩ : ∃ texts : List (List UInt8), records = texts.map (· ++ [0x2c]) ∧
      List.Forall₂ Reads texts entries := by
    induction each with
    | nil => exact ⟨[],rfl,.nil⟩
    | cons here _ ih =>
      obtain ⟨text,rfl,reads⟩ := here
      obtain ⟨texts,rfl,others⟩ := ih
      exact ⟨text :: texts,rfl,.cons reads others⟩
  have whole := (reads_array reads).parse
  rw [← joined_of_commas] at whole
  rw [own,← List.flatMap_def]
  exact whole

theorem entryOf_pid (pid : UInt32) (codes : CodeLookup) (ev : Event) :
    pidOf (entryOf pid codes ev) = some (pid.toNat : ℚ) := rfl

theorem entries_pid {values : Metadata → Value} (share : Share)
    (named : ∀ entry ∈ share.metadata, pidOf (values entry) = some (share.pid.toNat : ℚ)) :
    ∀ v ∈ share.entries values, pidOf v = some (share.pid.toNat : ℚ) := by
  intro v mem
  rcases List.mem_append.mp mem with event | last
  · obtain ⟨ev,-,rfl⟩ := List.mem_map.mp event
    exact entryOf_pid share.pid share.codes ev
  · obtain ⟨entry,inside,rfl⟩ := List.mem_map.mp last
    exact named entry inside

variable {ι : Type} [DecidableEq ι]

theorem shared_json_decodes (serde : Metadata → List (List UInt8)) (values : Metadata → Value)
    (well : ∀ entry, parse (serde entry).flatten = some (values entry)) (share : ι → Share)
    (named : ∀ i, ∀ entry ∈ (share i).metadata, pidOf (values entry) = some ((share i).pid.toNat : ℚ))
    (pids : Function.Injective fun i => (share i).pid)
    (path : Machine.Runs step Machine.anything (shared (create opening).1 fun i => (share i).calls serde) acts s)
    (free : s.lock = none) :
    ∃ body entries, s.file = utf8 "[" ++ body ∧ parse (utf8 "[" ++ body.dropLast ++ utf8 "]") = some (.array entries) ∧
      (∀ entry ∈ entries, ∃ i, pidOf entry = some ((share i).pid.toNat : ℚ)) ∧
      ∀ i, (share i).listed entries <+: (share i).entries values ∧
        ((s.writers i).phase = .dropped → (share i).listed entries = (share i).entries values) := by
  obtain ⟨log,file,parts⟩ := dropped_records (fun i => (calls_flushed serde (share i)).writes) path free
  have matched := fun i => groups_list well (share i)
  obtain ⟨tagged,lists,owned⟩ := Keyed.deal_matched (fun i => (parts i).1) matched
  have inside : ∀ i, Keyed.ownedBy i tagged <+: (share i).entries values := by
    intro i
    rw [owned]
    exact List.take_prefix _ _
  have own : ∀ x ∈ tagged, pidOf x.2 = some ((share x.1).pid.toNat : ℚ) := by
    rintro ⟨i,v⟩ mem
    exact entries_pid (share i) (named i) v ((inside i).subset (Keyed.mem_ownedBy.mpr mem))
  have listed : ∀ i, (share i).listed (tagged.map (·.2)) = Keyed.ownedBy i tagged := by
    intro i
    apply Keyed.ownedBy_filter
    intro x mem
    rw [own x mem]
    simp only [Option.some.injEq,Nat.cast_inj,UInt32.toNat_inj]
    exact decide_eq_decide.mpr pids.eq_iff
  refine ⟨(log.map (·.2)).flatten,tagged.map (·.2),by rw [file]; rfl,lists_parse lists,?_,?_⟩
  · intro v mem
    obtain ⟨x,there,rfl⟩ := List.mem_map.mp mem
    exact ⟨x.1,own x there⟩
  · intro i
    rw [listed]
    refine ⟨inside i,?_⟩
    intro dropped
    rw [owned,(parts i).2 dropped,(matched i).length_eq,List.take_length]

theorem compact_pid (pid : UInt32) (threads : List (UInt32 × String)) (dropped : UInt64) :
    ∀ entry ∈ metadata pid threads dropped, pidOf (compactValue entry) = some (pid.toNat : ℚ) := by
  intro entry mem
  rcases List.mem_append.mp mem with name | lost
  · obtain ⟨thread,-,rfl⟩ := List.mem_map.mp name
    rfl
  · split at lost
    · obtain rfl := List.mem_singleton.mp lost
      rfl
    · cases lost

-- A process and the child it forks, which commits while its parent still has events to write.
def forkedShare (child : Bool) : Share :=
  ⟨if child then 8 else 7,fun _ => none,[[.new 5 10 1 .Begin],[.new 9 10 1 .End]],[(10,"Main")],0⟩

-- The parent is still in its first batch when the child is done.
def forkedMoves : List (Bool × Move) :=
  [(false,.extend),(true,.extend),(true,.acquire),(true,.append 30),(true,.append 82),(true,.clear),(true,.release),
    (false,.acquire),(true,.extend),(false,.append 112),(false,.clear),(false,.release),(true,.acquire),
    (true,.append 113),(true,.clear),(true,.release),(true,.extend),(true,.extend),(true,.acquire),(true,.append 72),
    (true,.clear),(true,.release),(true,.drop)]

theorem shared_json_decodes_forked : ∃ (s : System Bool) (body : List UInt8) (entries : List Value),
    (s.writers true).phase = .dropped ∧ (s.writers false).phase = .idle ∧ s.file = utf8 "[" ++ body ∧
      parse (utf8 "[" ++ body.dropLast ++ utf8 "]") = some (.array entries) ∧
      (forkedShare true).listed entries = (forkedShare true).entries compactValue := by
  have ran : (Machine.run step (shared (create opening).1 fun child => (forkedShare child).calls compact)
      forkedMoves).map (fun s => (s.lock,(s.writers true).phase,(s.writers false).phase)) =
        some (none,.dropped,.idle) := by decide +kernel
  obtain ⟨s,path,facts⟩ := Option.map_eq_some_iff.mp ran
  simp only [Prod.mk.injEq] at facts
  obtain ⟨free,child,parent⟩ := facts
  obtain ⟨body,entries,file,read,-,each⟩ := shared_json_decodes compact compactValue compact_parses forkedShare
    (fun child => compact_pid _ _ _) (by rintro (_ | _) (_ | _) same <;> simp_all [forkedShare])
    (Machine.runs_of_run path) free
  exact ⟨s,body,entries,child,parent,file,read,(each true).2 child⟩

end Json

namespace Proto

open ProtoExporter SharedFile

structure Share where
  pid : Int32
  slot : UInt32
  codes : CodeLookup
  threads : ThreadNames
  batches : List (List Event)
  dropped : UInt64

namespace Share

def exported (encode : TracePacket → List UInt8) (share : Share) : Option ProtoExporter :=
  Proto.exported encode (.new share.pid share.slot) share.codes share.threads share.batches share.dropped

def events (share : Share) : List Event := share.batches.flatten

def shown (share : Share) (trackOf : UInt32 → UInt64) : List Slice :=
  share.events.map (shownAs share.pid share.codes share.threads trackOf)

def sliced (share : Share) (slices : List Slice) : List Slice :=
  slices.filter fun slice => slice.thread.pid = some share.pid

def Small (share : Share) : Prop := share.slot.toNat < 2 ^ 25 ∧ threadCount share.batches < 128

end Share

def Sized (ex : ProtoExporter) : Prop := ex.templateBytes.length < 2 ^ 32 ∧ (written ex.out).length < 2 ^ 64

theorem Sized.fits {ex : ProtoExporter} (sized : Sized ex) (few : ex.sequences.length < 2 ^ 32) : Fits ex := by
  refine ⟨few,sized.1,?_⟩
  intro call mem
  obtain ⟨before,after,split⟩ := List.append_of_mem mem
  have whole := sized.2
  rw [split] at whole
  simp only [written_append,written_cons,List.length_append] at whole
  omega

variable {encode : TracePacket → List UInt8} {codes : CodeLookup} {threads : ThreadNames}

theorem exported_served (encode : TracePacket → List UInt8) (share : Share) :
    share.exported encode = (share.batches.map (Request.writeBatch · share.codes ⟨share.threads,[]⟩) ++
      [Request.finish share.codes ⟨share.threads,[]⟩ share.dropped]).foldlM (serve encode) (.new share.pid share.slot) := by
  rw [List.foldlM_append,List.foldlM_map,Share.exported,Proto.exported,Option.map_eq_bind]
  rfl

theorem exported_whole {share : Share} {done : ProtoExporter} (run : share.exported encode = some done)
    (fine : done.panicked = false) : Whole done.out := by
  rw [exported_served] at run
  exact (serve_framing encode (new_framing share.pid share.slot) run fine).1

theorem exported_told (prost : ∀ packet, decode (encode packet) = some packet) {share : Share} {done : ProtoExporter}
    (run : share.exported encode = some done) (fits : Fits done) :
    done.pid = share.pid ∧ ∃ pending,
      Told share.codes share.threads (share.events.map (·.tid)) share.events pending done := by
  obtain ⟨last,batched,rfl⟩ := Option.map_eq_some_iff.mp run
  have finished := finish_keeps encode last share.dropped
  obtain ⟨pending,told⟩ := batches_told prost (new_told share.codes share.threads share.pid share.slot) batched
    (finished.fits fits)
  refine ⟨finished.pid.trans (batches_keeps encode batched).pid,pending,?_⟩
  exact finish_told prost told share.dropped fits

theorem exported_uuid {share : Share} {done : ProtoExporter} (run : share.exported encode = some done) :
    done.processUuid = processUuidOf share.pid := by
  obtain ⟨last,batched,rfl⟩ := Option.map_eq_some_iff.mp run
  exact (finish_keeps encode last share.dropped).uuid.trans (batches_keeps encode batched).uuid

def packetOf (record : List UInt8) : Option TracePacket := do
  match ← Wire.readFields record with
  | [field] => decode (← readFrame field)
  | _ => none

theorem packetOf_framed {body : List UInt8} (fits : body.length < 2 ^ 64) : packetOf (framed body) = decode body := by
  have whole := Wire.fields_roundtrip [(1,.bytes body)]
  rw [Wire.writeFields_cons,Wire.writeFields_nil,List.append_nil,← framed_eq fits] at whole
  rw [packetOf,whole]
  rfl

theorem records_framed {records : List (List UInt8)} (each : ∀ r ∈ records, Record r) :
    ∃ bodies : List (List UInt8), records = bodies.map framed := by
  induction records with
  | nil => exact ⟨[],rfl⟩
  | cons r rest ih =>
    obtain ⟨body,rfl⟩ := each r List.mem_cons_self
    obtain ⟨bodies,rfl⟩ := ih fun r mem => each r (List.mem_cons_of_mem _ mem)
    exact ⟨body :: bodies,rfl⟩

theorem framed_longer (body : List UInt8) : body.length ≤ (framed body).length := by
  unfold framed
  rw [List.length_cons,List.length_append]
  omega

theorem framed_fields {bodies : List (List UInt8)} (short : (bodies.map framed).flatten.length < 2 ^ 64) :
    (∀ body ∈ bodies, body.length < 2 ^ 64) ∧
      (bodies.map framed).flatten = Wire.writeFields (bodies.map fun b => (1,.bytes b)) := by
  induction bodies with
  | nil => exact ⟨fun b mem => absurd mem List.not_mem_nil,rfl⟩
  | cons body rest ih =>
    rw [List.map_cons,List.flatten_cons,List.length_append] at short
    have first : body.length < 2 ^ 64 := lt_of_le_of_lt (framed_longer body) (by omega)
    obtain ⟨later,same⟩ := ih (by omega)
    refine ⟨?_,?_⟩
    · intro b mem
      rcases List.mem_cons.mp mem with rfl | behind
      · exact first
      · exact later b behind
    · rw [List.map_cons,List.flatten_cons,same,framed_eq first]
      rfl

theorem records_carried {records : List (List UInt8)} {packets : List TracePacket} (each : ∀ r ∈ records, Record r)
    (short : records.flatten.length < 2 ^ 64) (carried : Carries records.flatten packets) :
    (∀ r ∈ records, ∃ body p, r = framed body ∧ body.length < 2 ^ 64 ∧ decode body = some p ∧ packetOf r = some p) ∧
      records.filterMap packetOf = packets := by
  obtain ⟨bodies,rfl⟩ := records_framed each
  obtain ⟨fit,fields⟩ := framed_fields short
  obtain ⟨others,same,decoded⟩ := carried
  rw [fields] at same
  have read := congrArg Wire.readFields same
  rw [Wire.fields_roundtrip,Wire.fields_roundtrip,Option.some.injEq] at read
  have own : bodies = others := by
    apply List.map_injective_iff.mpr _ read
    intro a b equal
    simpa using equal
  subst own
  clear same read each short fields
  induction decoded with
  | nil => exact ⟨fun r mem => absurd mem List.not_mem_nil,rfl⟩
  | @cons body p rest packets here _ ih =>
    have first := fit body List.mem_cons_self
    have seen : packetOf (framed body) = some p := (packetOf_framed first).trans here
    obtain ⟨later,onward⟩ := ih fun b mem => fit b (List.mem_cons_of_mem _ mem)
    refine ⟨?_,?_⟩
    · intro r mem
      rw [List.map_cons] at mem
      rcases List.mem_cons.mp mem with rfl | behind
      · exact ⟨body,p,rfl,first,here,seen⟩
      · exact later r behind
    · rw [List.map_cons,List.filterMap_cons_some seen,onward]

theorem trackOf_toNat (ex : ProtoExporter) {pid : Int32} (uuid : ex.processUuid = processUuidOf pid) {id : UInt32}
    (near : (id - ex.processSequenceId).toNat + 1 < 2 ^ 32) :
    (ex.trackOf id).toNat = pid.toUInt32.toNat * 2 ^ 32 + 1 + (id - ex.processSequenceId).toNat := by
  have wide := pid.toUInt32.toNat_lt
  have high : (pid.toUInt32.toUInt64 <<< 32).toNat = pid.toUInt32.toNat * 2 ^ 32 := by
    rw [UInt64.toNat_shiftLeft,UInt32.toNat_toUInt64]
    have shift : (32 : UInt64).toNat % 64 = 32 := rfl
    rw [shift,Nat.shiftLeft_eq]
    exact Nat.mod_eq_of_lt (by omega)
  have own : (processUuidOf pid).toNat = pid.toUInt32.toNat * 2 ^ 32 + 1 := by
    rw [processUuidOf,UInt64.toNat_or,high,UInt64.toNat_one,← Nat.shiftLeft_eq,
      ← Nat.shiftLeft_add_eq_or_of_lt (by decide)]
  unfold trackOf
  rw [uuid,UInt64.toNat_add,own,UInt32.toNat_toUInt64]
  omega

def slotIds (slot : UInt32) : Set UInt32 := {id | ∃ k ≤ 127, slotId slot k = id}
def pidTracks (pid : Int32) : Set UInt64 := {u | u.toNat / 2 ^ 32 = pid.toUInt32.toNat}

theorem slotIds_apart {a b : UInt32} (smallA : a.toNat < 2 ^ 25) (smallB : b.toNat < 2 ^ 25) (differ : a ≠ b) :
    ∀ id ∈ slotIds a, id ∉ slotIds b := by
  rintro id ⟨j,jm,rfl⟩ ⟨k,kn,same⟩
  have meet := (runs_meet smallA smallB differ 127 127).mp ⟨j,jm,k,kn,same.symm⟩
  have other : a.toNat ≠ b.toNat := fun equal => differ (UInt32.toNat_inj.mp equal)
  unfold slotsUp at meet
  omega

theorem pidTracks_apart {a b : Int32} (differ : a ≠ b) : ∀ u ∈ pidTracks a, u ∉ pidTracks b := by
  intro u inA inB
  apply differ
  have same : a.toUInt32 = b.toUInt32 := UInt32.toNat_inj.mp ((show _ = _ from inA).symm.trans inB)
  have back := congrArg UInt32.toInt32 same
  simpa using back

section exporter

variable {ex : ProtoExporter} {slot : UInt32} {seen : List UInt32} {pid : Int32} (there : Numbered slot seen ex)
  (few : seen.dedup.length < 128) (uuid : ex.processUuid = processUuidOf pid)

include there few in
theorem own_ids {id : UInt32} (mem : id ∈ ex.processSequenceId :: ex.threadIds) :
    id ∈ slotIds slot ∧ (id - ex.processSequenceId).toNat ≤ 127 := by
  rw [there.all_ids,List.mem_map] at mem
  obtain ⟨k,inside,rfl⟩ := mem
  rw [List.mem_range] at inside
  refine ⟨⟨k,by omega,rfl⟩,?_⟩
  have step : slotId slot k - ex.processSequenceId = .ofNat k := by
    unfold slotId ProtoExporter.processSequenceId
    rw [there.ownSlot]
    grind
  rw [step,UInt32.toNat_ofNat']
  omega

include there few uuid in
theorem own_tracks {id : UInt32} (mem : id ∈ ex.processSequenceId :: ex.threadIds) : ex.trackOf id ∈ pidTracks pid := by
  have near := (own_ids there few mem).2
  change (ex.trackOf id).toNat / 2 ^ 32 = pid.toUInt32.toNat
  rw [trackOf_toNat ex uuid (by omega)]
  omega

include there few uuid in
theorem tables_own (codes : CodeLookup) (threads : ThreadNames) :
    (∀ id ∈ (ex.tables codes threads).sequences.map (·.1), id ∈ slotIds slot) ∧
      ∀ u ∈ (ex.tables codes threads).tracks.map (·.1), u ∈ pidTracks pid := by
  by_cases emitted : ex.processEmitted = true
  · refine ⟨?_,?_⟩
    · intro id mem
      rw [tables_keys ex emitted] at mem
      exact (own_ids there few mem).1
    · intro u mem
      rw [Alike.tables ⟨rfl,rfl,rfl,rfl⟩ emitted,List.map_cons,List.map_map] at mem
      rcases List.mem_cons.mp mem with rfl | later
      · simp only
        rw [← trackOf_process ex]
        exact own_tracks there few uuid List.mem_cons_self
      · obtain ⟨s,inside,rfl⟩ := List.mem_map.mp later
        exact own_tracks there few uuid (List.mem_cons_of_mem _ (List.mem_map_of_mem (f := (·.2.id)) inside))
  · have none : ex.tables codes threads = ⟨[],[]⟩ := if_neg emitted
    rw [none]
    exact ⟨fun id mem => absurd mem List.not_mem_nil,fun u mem => absurd mem List.not_mem_nil⟩

include there few uuid in
theorem trackOfThread_pid {tid : UInt32} (mem : tid ∈ seen) : trackOfThread ex tid ∈ pidTracks pid := by
  obtain ⟨seq,found⟩ := Option.isSome_iff_exists.mp (Assoc.lookup_isSome.mpr ((there.known tid).mpr mem))
  rw [trackOfThread,found]
  exact own_tracks there few uuid (List.mem_cons_of_mem _ (sequence_own found))

end exporter

-- Where one exporter of a shared file stands at its end, as a reader needs it.
structure Finished (share : Share) (done : ProtoExporter) (slices : List Slice) where
  packets : List TracePacket
  groups : List (List (List UInt8))
  flushed : Flushed done.out groups
  whole : ∀ r ∈ groups.flatten, ∃ body p, r = framed body ∧ body.length < 2 ^ 64 ∧ decode body = some p ∧
    packetOf r = some p
  told : groups.flatten.filterMap packetOf = packets
  read : ∃ last, Tables.readPackets ⟨[],[]⟩ packets = some (last,slices)
  owned : ∀ p ∈ packets, Owns (fun share : Share => slotIds share.slot) (fun share : Share => pidTracks share.pid) share p
  shown : slices = share.shown (trackOfThread done)

theorem exported_finished (prost : ∀ packet, decode (encode packet) = some packet) {share : Share} (small : share.Small)
    {done : ProtoExporter} (run : share.exported encode = some done) (sized : Sized done) :
    ∃ slices, Nonempty (Finished share done slices) := by
  obtain ⟨again,run',numbered,-⟩ := exported_numbered encode share.pid share.slot share.codes share.threads
    share.batches share.dropped
  obtain rfl : done = again := Option.some.inj (run.symm.trans run')
  have count : done.sequences.length = threadCount share.batches := numbered.count
  have fits := sized.fits (by have few := small.2; omega)
  obtain ⟨pids,pending,told⟩ := exported_told prost run fits
  obtain ⟨packets,slices,carried,read,shows⟩ := told.file
  obtain ⟨groups,flushed,records⟩ := exported_whole run told.intact
  have same : written done.out = groups.flatten.flatten := flushed.written
  rw [same] at carried
  have short : groups.flatten.flatten.length < 2 ^ 64 := same ▸ sized.2
  obtain ⟨whole,packed⟩ := records_carried records short carried
  obtain ⟨ids,tracks⟩ := tables_own numbered small.2 (exported_uuid run) share.codes share.threads
  obtain ⟨-,inside⟩ := readPackets_owns read
  refine ⟨slices,⟨packets,groups,flushed,whole,packed,⟨_,read⟩,?_,?_⟩⟩
  · intro p mem
    obtain ⟨sequence,track⟩ := inside p mem
    exact ⟨fun id own => ids id (sequence id own),fun d u own uuid => tracks u (track d u own uuid)⟩
  · apply map_of_forall₂ shows
    rintro ev slice ⟨seq,found,rfl⟩
    rw [sliceOf,shownAs,threadDescriptor,trackOfThread,found,pids]
    rfl

variable {ι : Type} [DecidableEq ι]

theorem log_reads {share : ι → Share} (pids : Function.Injective fun i => (share i).pid)
    (slots : Function.Injective fun i => (share i).slot) (small : ∀ i, (share i).Small) {done : ι → ProtoExporter}
    {slices : ι → List Slice} (finished : ∀ i, Finished (share i) (done i) (slices i)) {log : List (ι × List UInt8)}
    (parts : ∀ i, Keyed.ownedBy i log <+: (finished i).groups.flatten) :
    ∃ tagged : List (ι × Slice), readTrace (log.map (·.2)).flatten = some (tagged.map (·.2)) ∧
      ∀ i, Keyed.ownedBy i tagged <+: slices i ∧
        (Keyed.ownedBy i log = (finished i).groups.flatten → Keyed.ownedBy i tagged = slices i) := by
  have each : ∀ x ∈ log, ∃ body p, x.2 = framed body ∧ body.length < 2 ^ 64 ∧ decode body = some p ∧
      packetOf x.2 = some p := by
    intro x mem
    exact (finished x.1).whole x.2 ((parts x.1).subset (Keyed.mem_ownedBy.mpr mem))
  have packed := fun i => Keyed.ownedBy_filterMap packetOf i log
  have carried : Carries (log.map (·.2)).flatten
      ((log.filterMap fun x => (packetOf x.2).map (x.1,·)).map (·.2)) := by
    clear parts packed
    induction log with
    | nil => exact .nil
    | cons x rest ih =>
      obtain ⟨body,p,own,short,decoded,seen⟩ := each x List.mem_cons_self
      rw [List.filterMap_cons_some (by rw [seen]; rfl)]
      rw [List.map_cons,List.flatten_cons,own]
      exact (Carries.frame short decoded).append (ih fun y mem => each y (List.mem_cons_of_mem _ mem))
  have inside : ∀ i, Keyed.ownedBy i (log.filterMap fun x => (packetOf x.2).map (x.1,·)) <+: (finished i).packets := by
    intro i
    rw [packed,← (finished i).told]
    exact (parts i).filterMap packetOf
  have readable : ∀ i, ∃ last, Merge.readAll Tables.readPacket ⟨[],[]⟩ (finished i).packets = some (last,slices i) := by
    intro i
    obtain ⟨last,read⟩ := (finished i).read
    exact ⟨last,by rw [← readPackets_all]; exact read⟩
  have apart : Merge.Apart Tables.readPacket Tables.readPacket
      (Owns (fun i => slotIds (share i).slot) (fun i => pidTracks (share i).pid))
      (Agrees (fun i => slotIds (share i).slot) (fun i => pidTracks (share i).pid)) := packets_apart
    (fun i j other => slotIds_apart (small i).1 (small j).1 (slots.ne other))
    (fun i j other => pidTracks_apart (pids.ne other))
  have owned : ∀ x ∈ log.filterMap fun x => (packetOf x.2).map (x.1,·),
      Owns (fun i => slotIds (share i).slot) (fun i => pidTracks (share i).pid) x.1 x.2 := by
    rintro ⟨i,p⟩ mem
    have own := (finished i).owned p ((inside i).subset (Keyed.mem_ownedBy.mpr mem))
    exact ⟨own.sequence,own.track⟩
  have agree : ∀ i, Agrees (fun i => slotIds (share i).slot) (fun i => pidTracks (share i).pid) i ⟨[],[]⟩ ⟨[],[]⟩ :=
    fun i => ⟨fun _ _ => rfl,fun _ _ => rfl,fun u none => by cases none⟩
  obtain ⟨last,tagged,read,alone⟩ := Merge.read_merged apart owned agree
    (fun i => by
      obtain ⟨last,whole⟩ := readable i
      obtain ⟨mid,early,part,-⟩ := Merge.readAll_prefix (inside i) whole
      exact ⟨mid,early,part⟩)
  refine ⟨tagged,?_,?_⟩
  · rw [← readPackets_all] at read
    exact carried.read read
  · intro i
    obtain ⟨own,here⟩ := alone i
    obtain ⟨end_,whole⟩ := readable i
    obtain ⟨mid,early,part,prior⟩ := Merge.readAll_prefix (inside i) whole
    rw [here,Option.some.injEq,Prod.mk.injEq] at part
    obtain ⟨-,rfl⟩ := part
    refine ⟨prior,?_⟩
    intro all
    rw [packed,all,(finished i).told,whole,Option.some.injEq,Prod.mk.injEq] at here
    exact here.2.symm

theorem shared_trace_decodes {encode : TracePacket → List UInt8} (prost : ∀ packet, decode (encode packet) = some packet)
    (share : ι → Share) (small : ∀ i, (share i).Small) (pids : Function.Injective fun i => (share i).pid)
    (slots : Function.Injective fun i => (share i).slot) :
    ∃ done : ι → ProtoExporter, (∀ i, (share i).exported encode = some (done i)) ∧ ((∀ i, Sized (done i)) →
      ∃ trackOf : ι → UInt32 → UInt64,
        Set.InjOn (fun x : ι × UInt32 => trackOf x.1 x.2) {x | x.2 ∈ (share x.1).events.map (·.tid)} ∧
        ∀ acts s, Machine.Runs step Machine.anything (shared (create []).1 fun i => (done i).out) acts s → s.lock = none →
          ∃ slices, readTrace s.file = some slices ∧
            (∀ slice ∈ slices, ∃ i, slice.thread.pid = some (share i).pid) ∧
            ∀ i, (share i).sliced slices <+: (share i).shown (trackOf i) ∧
              ((s.writers i).phase = .dropped → (share i).sliced slices = (share i).shown (trackOf i))) := by
  have runs := fun i => exported_numbered encode (share i).pid (share i).slot (share i).codes (share i).threads
    (share i).batches (share i).dropped
  choose done run numbered wrote using runs
  refine ⟨done,run,?_⟩
  intro sized
  choose slices ended using fun i => exported_finished prost (small i) (run i) (sized i)
  have finished : ∀ i, Finished (share i) (done i) (slices i) := fun i => (ended i).some
  have uuids := fun i => exported_uuid (run i)
  refine ⟨fun i => trackOfThread (done i),?_,?_⟩
  · rintro ⟨i,tid⟩ mem ⟨j,tid'⟩ mem' same
    have own := trackOfThread_pid (numbered i) (small i).2 (uuids i) mem
    have own' := trackOfThread_pid (numbered j) (small j).2 (uuids j) mem'
    rcases eq_or_ne i j with rfl | other
    · have few : (done i).sequences.length < 2 ^ 32 := by
        have count := (numbered i).count
        have fewer := (small i).2
        unfold threadCount at fewer
        omega
      have equal : tid = tid' := trackOfThread_apart (numbered i) few mem mem' same
      rw [equal]
    · change trackOfThread (done i) tid = trackOfThread (done j) tid' at same
      rw [same] at own
      exact absurd own' (pidTracks_apart (pids.ne other) _ own)
  · intro acts s path free
    obtain ⟨log,file,parts⟩ := dropped_records (fun i => (finished i).flushed.writes) path free
    obtain ⟨tagged,read,each⟩ := log_reads pids slots small finished fun i => (parts i).1
    have tells : ∀ x ∈ tagged, x.2.thread.pid = some (share x.1).pid := by
      rintro ⟨i,slice⟩ mem
      have inside := (each i).1.subset (Keyed.mem_ownedBy.mpr mem)
      rw [(finished i).shown,Share.shown,List.mem_map] at inside
      obtain ⟨ev,-,rfl⟩ := inside
      rfl
    have sliced : ∀ i, (share i).sliced (tagged.map (·.2)) = Keyed.ownedBy i tagged := by
      intro i
      apply Keyed.ownedBy_filter
      intro x mem
      rw [tells x mem]
      simp [pids.eq_iff]
    refine ⟨tagged.map (·.2),?_,?_,?_⟩
    · rw [file]
      exact read
    · intro slice mem
      obtain ⟨x,inside,rfl⟩ := List.mem_map.mp mem
      exact ⟨x.1,tells x inside⟩
    · intro i
      rw [sliced,← (finished i).shown]
      refine ⟨(each i).1,?_⟩
      intro dropped
      exact (each i).2 ((parts i).2 dropped)

-- A process and the child it forks, each with the same thread id and the same code.
def forkedShare (child : Bool) : Share :=
  ⟨if child then 8 else 7,if child then 8 else 0,mainOnly,fun _ => none,[[⟨5,10,packCodeKind 0 .Begin⟩]],0⟩

def forkedProgram (child : Bool) : List OutCall := (((forkedShare child).exported Proto.encode).map (·.out)).getD []

-- The child commits while its parent has the same still in its buffer.
def forkedMoves : List (Bool × Move) :=
  List.replicate 7 (false,.extend) ++ List.replicate 7 (true,.extend) ++
    [(true,.acquire),(true,.append 100),(true,.append 50),(true,.clear),(true,.release),(true,.pass),(true,.drop),
      (false,.acquire),(false,.append 142),(false,.clear),(false,.release),(false,.pass),(false,.drop)]

theorem shared_trace_decodes_forked : ∃ (s : System Bool) (slices : List Slice) (trackOf : Bool → UInt32 → UInt64),
    (s.writers true).phase = .dropped ∧ (s.writers false).phase = .dropped ∧ readTrace s.file = some slices ∧
      (forkedShare true).sliced slices = (forkedShare true).shown (trackOf true) ∧
      (forkedShare false).sliced slices = (forkedShare false).shown (trackOf false) := by
  obtain ⟨done,exported,decodes⟩ := shared_trace_decodes decode_encode forkedShare
    (by rintro (_ | _) <;> exact ⟨by decide,by decide⟩) (by rintro (_ | _) (_ | _) same <;> simp_all [forkedShare])
    (by rintro (_ | _) (_ | _) same <;> simp_all [forkedShare])
  have sized : ∀ i, Sized (done i) := by
    intro i
    have small : ((forkedShare i).exported Proto.encode).all (fun done =>
        decide (done.templateBytes.length < 2 ^ 32 ∧ (written done.out).length < 2 ^ 64)) = true := by
      cases i <;> decide +kernel
    rw [exported i,Option.all_some] at small
    simpa [Sized] using small
  obtain ⟨trackOf,-,reads⟩ := decodes sized
  have same : (fun i => (done i).out) = forkedProgram := by
    funext i
    rw [forkedProgram,exported i]
    rfl
  have ran : (Machine.run step (shared (create []).1 forkedProgram) forkedMoves).map (fun s =>
      (s.lock,(s.writers true).phase,(s.writers false).phase)) = some (none,.dropped,.dropped) := by decide +kernel
  obtain ⟨s,path,facts⟩ := Option.map_eq_some_iff.mp ran
  simp only [Prod.mk.injEq] at facts
  obtain ⟨free,child,parent⟩ := facts
  rw [← same] at path
  obtain ⟨slices,read,-,each⟩ := reads forkedMoves s (Machine.runs_of_run path) free
  exact ⟨s,slices,trackOf,child,parent,read,(each true).2 child,(each false).2 parent⟩

end Proto

end Trace0
