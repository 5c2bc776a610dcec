import Trace0.Json
import Trace0.Lib.Assoc
import Trace0.Lib.JsonText

namespace Trace0
namespace Json
open JsonText

theorem digit_toNat (v : UInt64) : (0x30 + (v % 10).toUInt8 - 0x30).toNat = v.toNat % 10 := by
  have same : 0x30 + (v % 10).toUInt8 - 0x30 = (v % 10).toUInt8 := by grind
  have ten : (10 : UInt64).toNat = 10 := rfl
  rw [same,UInt64.toNat_toUInt8,UInt64.toNat_mod,ten]
  omega

theorem digit_isDigit (v : UInt64) : isDigit (0x30 + (v % 10).toUInt8) = true := by
  have all : ∀ n : Fin 10, isDigit (0x30 + UInt8.ofNat n.val) = true := by decide
  have bound : (v % 10).toUInt8.toNat < 10 := by
    have ten : (10 : UInt64).toNat = 10 := rfl
    rw [UInt64.toNat_toUInt8,UInt64.toNat_mod,ten]
    omega
  have found := all ⟨_,bound⟩
  rw [UInt8.ofNat_toNat] at found
  exact found

theorem natOf_snoc (ds : List UInt8) (d : UInt8) : natOf (ds ++ [d]) = 10 * natOf ds + (d - 0x30).toNat := by
  rw [natOf,List.foldl_append]
  rfl

theorem natOf_three (ds : List UInt8) (a b c : UInt64) :
    natOf (ds ++ [0x30 + (a % 10).toUInt8,0x30 + (b % 10).toUInt8,0x30 + (c % 10).toUInt8]) =
      10 * (10 * (10 * natOf ds + a.toNat % 10) + b.toNat % 10) + c.toNat % 10 := by
  rw [← digit_toNat a,← digit_toNat b,← digit_toNat c,← natOf_snoc,← natOf_snoc,← natOf_snoc]
  simp only [List.append_assoc,List.cons_append,List.nil_append]

theorem digits_value (n : Nat) (v : UInt64) (bound : v.toNat < 10 ^ (n + 1)) :
    natOf (digits n v).reverse = v.toNat := by
  induction n generalizing v with
  | zero =>
    have single := natOf_snoc [] (0x30 + (v % 10).toUInt8)
    have none : natOf [] = 0 := rfl
    rw [List.nil_append,digit_toNat,none] at single
    rw [digits,List.reverse_singleton,single]
    omega
  | succ n ih =>
    have ten : (10 : UInt64).toNat = 10 := rfl
    have quotient : (v / 10).toNat = v.toNat / 10 := by rw [UInt64.toNat_div,ten]
    rw [digits,List.reverse_cons,natOf_snoc,digit_toNat]
    split
    · next last =>
      rw [last] at quotient
      have zero : (0 : UInt64).toNat = 0 := rfl
      have none : natOf ([] : List UInt8).reverse = 0 := rfl
      rw [none]
      omega
    · rw [ih (v / 10) (by rw [quotient]; omega),quotient]
      omega

theorem digits_all (n : Nat) (v : UInt64) : ∀ d ∈ digits n v, isDigit d = true := by
  induction n generalizing v with
  | zero => exact fun d mem => List.mem_singleton.mp mem ▸ digit_isDigit v
  | succ n ih =>
    intro d mem
    rcases List.mem_cons.mp mem with rfl | mem
    · exact digit_isDigit v
    · split at mem
      · cases mem
      · exact ih _ d mem

theorem digits_ne (n : Nat) (v : UInt64) : digits n v ≠ [] := by
  cases n <;> exact List.cons_ne_nil _ _

-- A zero in front is the only digit, since what is left when a digit is taken is never zero.
theorem digits_first (n : Nat) (v : UInt64) (bound : v.toNat < 10 ^ (n + 1))
    (zero : (digits n v).getLast? = some 0x30) : digits n v = [0x30] := by
  induction n generalizing v with
  | zero => exact congrArg (fun d => [d]) (Option.some.inj zero)
  | succ n ih =>
    rw [digits] at zero ⊢
    split at zero
    · next last =>
      rw [if_pos last]
      exact congrArg (fun d => [d]) (Option.some.inj zero)
    · next more =>
      have ten : (10 : UInt64).toNat = 10 := rfl
      have quotient : (v / 10).toNat = v.toNat / 10 := by rw [UInt64.toNat_div,ten]
      have small : (v / 10).toNat < 10 ^ (n + 1) := by rw [quotient]; omega
      rw [List.getLast?_cons_of_ne_nil (digits_ne n _)] at zero
      have value := digits_value n _ small
      rw [ih _ small zero] at value
      exact absurd (UInt64.toNat_inj.mp value.symm) more

theorem pushU64_value (v : UInt64) : natOf (pushU64 v) = v.toNat := by
  apply digits_value 19 v
  have := v.toNat_lt
  omega

theorem pushU64_plain (v : UInt64) : Plain (pushU64 v) where
  all := fun d mem => digits_all 19 v d (List.mem_reverse.mp mem)
  filled := fun none => digits_ne 19 v (List.reverse_eq_nil_iff.mp none)
  first := by
    intro zero
    rw [pushU64,List.head?_reverse] at zero
    have bound := v.toNat_lt
    rw [pushU64,digits_first 19 v (by omega) zero]
    rfl

theorem pushU64_reads (v : UInt64) : Reads (pushU64 v) (.number v.toNat) := by
  have reads := reads_integer (pushU64_plain v)
  rw [pushU64_value] at reads
  exact reads

theorem pushMicros_reads (tsNs : UInt64) : Reads (pushMicros tsNs) (.number (tsNs.toNat / 1000)) := by
  have thousand : (1000 : UInt64).toNat = 1000 := rfl
  have hundred : (100 : UInt64).toNat = 100 := rfl
  have ten : (10 : UInt64).toNat = 10 := rfl
  -- The first of the three digits is below ten, so one more `% 10` does not change it.
  have first : tsNs % 1000 / 100 = tsNs % 1000 / 100 % 10 := by
    rw [← UInt64.toNat_inj,UInt64.toNat_mod,UInt64.toNat_div,UInt64.toNat_mod,thousand,hundred,ten]
    omega
  have reads := reads_decimal (pushU64_plain (tsNs / 1000)) [0x30 + (tsNs % 1000 / 100 % 10).toUInt8,
    0x30 + (tsNs % 1000 / 10 % 10).toUInt8,0x30 + (tsNs % 1000 % 10).toUInt8] (by
      intro d mem
      simp only [List.mem_cons,List.not_mem_nil,or_false] at mem
      rcases mem with rfl | rfl | rfl <;> exact digit_isDigit _) (List.cons_ne_nil _ _)
  have whole : 10 * (10 * (10 * (tsNs / 1000).toNat + (tsNs % 1000 / 100).toNat % 10) +
      (tsNs % 1000 / 10).toNat % 10) + (tsNs % 1000).toNat % 10 = tsNs.toNat := by
    simp only [UInt64.toNat_div,UInt64.toNat_mod,thousand,hundred,ten]
    omega
  rw [natOf_three,pushU64_value,whole] at reads
  have power : (10 : ℚ) ^ [0x30 + (tsNs % 1000 / 100 % 10).toUInt8,0x30 + (tsNs % 1000 / 10 % 10).toUInt8,
      0x30 + (tsNs % 1000 % 10).toUInt8].length = 1000 := by norm_num
  rw [power,← first] at reads
  exact reads

theorem hexValue_hex (b : UInt8) (small : b < 16) : hexValue (hex b) = some b.toNat := by
  have all : ∀ n : Fin 16, hexValue (hex (UInt8.ofNat n.val)) = some n.val := by decide
  have found := all ⟨b.toNat,UInt8.lt_iff_toNat_lt.mp small⟩
  rw [UInt8.ofNat_toNat] at found
  exact found

theorem encodeChar_ascii (b : UInt8) (small : b < 128) : encodeChar b.toNat = [b] := by
  have all : ∀ n : Fin 128, encodeChar n.val = [UInt8.ofNat n.val] := by decide +kernel
  have found := all ⟨b.toNat,UInt8.lt_iff_toNat_lt.mp small⟩
  rw [UInt8.ofNat_toNat] at found
  exact found

theorem readUnicode_control (b : UInt8) (control : b ≤ 0x1f) (rest : List UInt8) :
    readUnicode (0x30 :: 0x30 :: hex (b >>> 4) :: hex (b &&& 0x0f) :: rest) = some ([b],rest) := by
  have all : ∀ n : Fin 32, UInt8.ofNat n.val >>> 4 < 16 ∧ UInt8.ofNat n.val &&& 0x0f < 16 ∧
      (UInt8.ofNat n.val >>> 4).toNat * 16 + (UInt8.ofNat n.val &&& 0x0f).toNat = n.val := by decide
  have bound : b.toNat < 32 := Nat.lt_succ_of_le (UInt8.le_iff_toNat_le.mp control)
  obtain ⟨high,low,sum⟩ := all ⟨b.toNat,bound⟩
  rw [UInt8.ofNat_toNat] at high low sum
  have zero : hexValue 0x30 = some 0 := rfl
  have below : b.toNat < 0xd800 ∨ 0xe000 ≤ b.toNat := .inl (by omega)
  simp only [readUnicode,readHex,zero,hexValue_hex _ high,hexValue_hex _ low,Option.bind_eq_bind,Option.bind_some,
    Nat.zero_mul,Nat.zero_add,sum,below,if_true,encodeChar_ascii b (UInt8.lt_iff_toNat_lt.mpr (Nat.lt_trans bound (by decide)))]

theorem readChars_escaped (code : List UInt8) (b : UInt8) (rest : List UInt8)
    (read : readEscape (code ++ rest) = some ([b],rest)) (fuel : Nat) :
    readChars (fuel + 1) (0x5c :: code ++ rest) = (readChars fuel rest).map fun (cs,rest) => (b :: cs,rest) := by
  have quote : (0x5c : UInt8) ≠ 0x22 := by decide
  simp only [List.cons_append,readChars,quote,if_false,if_true,read,Option.bind_eq_bind,Option.bind_some]
  cases readChars fuel rest <;> rfl

theorem readChars_escape (fuel : Nat) (b : UInt8) (rest : List UInt8) :
    readChars (fuel + 1) (escape b ++ rest) = (readChars fuel rest).map fun (cs,rest) => (b :: cs,rest) := by
  unfold escape
  split
  · next same => exact same ▸ readChars_escaped [0x22] _ rest rfl fuel
  split
  · next same => exact same ▸ readChars_escaped [0x5c] _ rest rfl fuel
  split
  · next same => exact same ▸ readChars_escaped [0x62] _ rest rfl fuel
  split
  · next same => exact same ▸ readChars_escaped [0x74] _ rest rfl fuel
  split
  · next same => exact same ▸ readChars_escaped [0x6e] _ rest rfl fuel
  split
  · next same => exact same ▸ readChars_escaped [0x66] _ rest rfl fuel
  split
  · next same => exact same ▸ readChars_escaped [0x72] _ rest rfl fuel
  split
  · next control =>
    exact readChars_escaped (0x75 :: 0x30 :: 0x30 :: hex (b >>> 4) :: [hex (b &&& 0x0f)]) b rest
      (readUnicode_control b control rest) fuel
  · next quote slash _ _ _ _ _ control =>
    have plain : ¬b < 0x20 := fun less =>
      control (UInt8.le_iff_toNat_le.mpr (Nat.le_of_lt_succ (UInt8.lt_iff_toNat_lt.mp less)))
    rw [List.singleton_append,readChars,if_neg quote,if_neg slash,if_neg plain]

theorem readChars_escapes (bytes rest : List UInt8) (fuel : Nat) (enough : bytes.length < fuel) :
    readChars fuel (bytes.flatMap escape ++ 0x22 :: rest) = some (bytes,rest) := by
  induction bytes generalizing fuel with
  | nil =>
    obtain ⟨fuel,rfl⟩ : ∃ less, fuel = less + 1 := ⟨fuel - 1,by omega⟩
    rw [List.flatMap_nil,List.nil_append,readChars,if_pos rfl]
  | cons b bytes ih =>
    obtain ⟨fuel,rfl⟩ : ∃ less, fuel = less + 1 := ⟨fuel - 1,by omega⟩
    rw [List.length_cons] at enough
    rw [List.flatMap_cons,List.append_assoc,readChars_escape,ih fuel (by omega)]
    rfl

theorem escape_ne (b : UInt8) : escape b ≠ [] := by
  unfold escape
  split_ifs <;> exact List.cons_ne_nil _ _

theorem escape_length (bytes : List UInt8) : bytes.length ≤ (bytes.flatMap escape).length := by
  induction bytes with
  | nil => exact Nat.le_refl _
  | cons b bytes ih =>
    have one := List.length_pos_of_ne_nil (escape_ne b)
    rw [List.flatMap_cons,List.length_append,List.length_cons]
    omega

theorem fromUTF8_utf8 (s : String) : String.fromUTF8? ⟨(utf8 s).toArray⟩ = some s := by
  have bytes : (⟨(utf8 s).toArray⟩ : ByteArray) = s.toByteArray := by rw [utf8,Array.toArray_toList]
  rw [bytes,String.fromUTF8?,dif_pos s.isValidUTF8]
  rfl

theorem pushString_key (s : String) : ReadsKey (pushString s) s := by
  refine ⟨_,rfl,?_⟩
  intro rest
  have enough := escape_length (utf8 s)
  rw [readString,List.append_assoc,List.singleton_append,readChars_escapes _ _ _ (by
    rw [List.length_append]
    omega)]
  simp only [Option.bind_eq_bind,Option.bind_some,fromUTF8_utf8]

theorem pushString_member (key : String) (reads : Reads text v) :
    ReadsMember (pushString key ++ 0x3a :: text) (key,v) :=
  ⟨_,_,rfl,pushString_key key,reads⟩

def infoOf (codes : CodeLookup) (id : UInt32) : CodeInfo := (codes id).getD ⟨"","",0⟩

def entryOf (pid : UInt32) (codes : CodeLookup) (ev : Event) : Value :=
  let info := infoOf codes ev.codeId
  .object [("name",.string (if info.qualname = "" then "<unknown>" else info.qualname)),("cat",.string "py"),
    ("ph",.string (if ev.kind.opensSlice then "B" else "E")),("ts",.number (ev.tsNs.toNat / 1000)),
    ("pid",.number pid.toNat),("tid",.number ev.tid.toNat),
    ("args",.object [("file",.string info.filename),("line",.number info.firstlineno.toNat),
      ("kind",.string (asStr ev.kind))])]

theorem small_reads (v : UInt32) : Reads (pushU64 v.toUInt64) (.number v.toNat) := by
  have reads := pushU64_reads v.toUInt64
  rw [UInt32.toNat_toUInt64] at reads
  exact reads

theorem kind_text (kind : EventKind) : pushString (asStr kind) = 0x22 :: (utf8 (asStr kind) ++ [0x22]) := by
  cases kind <;> rfl

theorem phase_text (opening : Bool) :
    pushString (if opening then "B" else "E") = [0x22,if opening then 0x42 else 0x45,0x22] := by
  cases opening <;> rfl

theorem eventEntry_object (pid : UInt32) (ev : Event) (info : CodeInfo) :
    JsonExporter.eventEntry pid ev (.of info) = 0x7b :: joined 0x7d
      [pushString "name" ++ 0x3a :: pushString (if info.qualname = "" then "<unknown>" else info.qualname),
        pushString "cat" ++ 0x3a :: pushString "py",
        pushString "ph" ++ 0x3a :: pushString (if ev.kind.opensSlice then "B" else "E"),
        pushString "ts" ++ 0x3a :: pushMicros ev.tsNs,pushString "pid" ++ 0x3a :: pushU64 pid.toUInt64,
        pushString "tid" ++ 0x3a :: pushU64 ev.tid.toUInt64,
        pushString "args" ++ 0x3a :: 0x7b :: joined 0x7d [pushString "file" ++ 0x3a :: pushString info.filename,
          pushString "line" ++ 0x3a :: pushU64 info.firstlineno.toUInt64,
          pushString "kind" ++ 0x3a :: pushString (asStr ev.kind)]] := by
  have name : utf8 "\x7b\"name\":" = 0x7b :: (pushString "name" ++ [0x3a]) := rfl
  have phase : utf8 ",\"cat\":\"py\",\"ph\":\"" = 0x2c :: (pushString "cat" ++ 0x3a :: (pushString "py" ++
    0x2c :: (pushString "ph" ++ [0x3a,0x22]))) := rfl
  have ts : utf8 "\",\"ts\":" = 0x22 :: 0x2c :: (pushString "ts" ++ [0x3a]) := rfl
  have process : utf8 ",\"pid\":" = 0x2c :: (pushString "pid" ++ [0x3a]) := rfl
  have thread : utf8 ",\"tid\":" = 0x2c :: (pushString "tid" ++ [0x3a]) := rfl
  have args : utf8 ",\"args\":\x7b\"file\":" = 0x2c :: (pushString "args" ++ 0x3a :: 0x7b ::
    (pushString "file" ++ [0x3a])) := rfl
  have line : utf8 ",\"line\":" = 0x2c :: (pushString "line" ++ [0x3a]) := rfl
  have kind : utf8 ",\"kind\":\"" = 0x2c :: (pushString "kind" ++ [0x3a,0x22]) := rfl
  have close : utf8 "\"\x7d\x7d" = [0x22,0x7d,0x7d] := rfl
  simp only [JsonExporter.eventEntry,Template.of,name,phase,ts,process,thread,args,line,kind,close,kind_text,phase_text,
    joined,List.append_assoc,List.cons_append,List.nil_append]

theorem eventEntry_reads (pid : UInt32) (codes : CodeLookup) (ev : Event) :
    Reads (JsonExporter.eventEntry pid ev (.of (infoOf codes ev.codeId))) (entryOf pid codes ev) := by
  rw [eventEntry_object]
  have args := reads_object (.cons (pushString_member "file" (pushString_key (infoOf codes ev.codeId).filename).reads)
    (.cons (pushString_member "line" (small_reads (infoOf codes ev.codeId).firstlineno))
    (.cons (pushString_member "kind" (pushString_key (asStr ev.kind)).reads) .nil)))
  apply reads_object
  refine .cons (pushString_member "name" (pushString_key _).reads) ?_
  refine .cons (pushString_member "cat" (pushString_key _).reads) ?_
  refine .cons (pushString_member "ph" (pushString_key _).reads) ?_
  refine .cons (pushString_member "ts" (pushMicros_reads _)) ?_
  refine .cons (pushString_member "pid" (small_reads _)) ?_
  refine .cons (pushString_member "tid" (small_reads _)) ?_
  exact .cons (pushString_member "args" args) .nil

def eventText (pid : UInt32) (codes : CodeLookup) (ev : Event) : List UInt8 :=
  JsonExporter.eventEntry pid ev (.of (infoOf codes ev.codeId))

-- A template in the map is the one of the code's information, since the lookup does not change.
def Known (codes : CodeLookup) (ex : JsonExporter) : Prop :=
  ∀ id template, ex.templates.lookup id = some template → template = .of (infoOf codes id)

theorem template_known {codes : CodeLookup} (known : Known codes ex) (id : UInt32) :
    Known codes (ex.template id codes).1 ∧ (ex.template id codes).2 = .of (infoOf codes id) ∧
      (ex.template id codes).1.buf = ex.buf ∧ (ex.template id codes).1.pid = ex.pid ∧
      (ex.template id codes).1.out = ex.out := by
  unfold JsonExporter.template
  split
  · next found => exact ⟨known,known _ _ found,rfl,rfl,rfl⟩
  · refine ⟨?_,rfl,rfl,rfl,rfl⟩
    intro other template found
    rw [Assoc.lookup_snoc] at found
    cases old : ex.templates.lookup other with
    | some earlier =>
      rw [old,Option.some_or] at found
      cases found
      exact known _ _ old
    | none =>
      rw [old,Option.none_or] at found
      split at found
      · next same =>
        cases found
        rw [beq_iff_eq.mp same]
        rfl
      · cases found

theorem writeEvent_known {codes : CodeLookup} (known : Known codes ex) (ev : Event) :
    Known codes (ex.writeEvent ev codes) ∧
      (ex.writeEvent ev codes).buf = ex.buf ++ (eventText ex.pid codes ev ++ utf8 ",") ∧
      (ex.writeEvent ev codes).pid = ex.pid ∧ (ex.writeEvent ev codes).out = ex.out := by
  obtain ⟨kept,text,buf,pid,out⟩ := template_known known ev.codeId
  refine ⟨kept,?_,pid,out⟩
  simp only [JsonExporter.writeEvent,JsonExporter.pushEvent,text,buf,pid,eventText]

theorem events_known {codes : CodeLookup} (known : Known codes ex) (events : List Event) :
    Known codes (events.foldl (fun ex ev => ex.writeEvent ev codes) ex) ∧
      (events.foldl (fun ex ev => ex.writeEvent ev codes) ex).buf =
        ex.buf ++ events.flatMap (fun ev => eventText ex.pid codes ev ++ utf8 ",") ∧
      (events.foldl (fun ex ev => ex.writeEvent ev codes) ex).pid = ex.pid ∧
      (events.foldl (fun ex ev => ex.writeEvent ev codes) ex).out = ex.out := by
  induction events generalizing ex with
  | nil => exact ⟨known,(List.append_nil _).symm,rfl,rfl⟩
  | cons ev events ih =>
    obtain ⟨kept,buf,pid,out⟩ := writeEvent_known known ev
    obtain ⟨last,whole,same,calls⟩ := ih kept
    rw [List.foldl_cons,whole,same,calls,buf,pid,out,List.flatMap_cons,List.append_assoc]
    exact ⟨last,rfl,rfl,rfl⟩

def batchCalls (pid : UInt32) (codes : CodeLookup) (events : List Event) : List OutCall :=
  [.write (events.flatMap fun ev => eventText pid codes ev ++ utf8 ","),.flush]

theorem batches_out {codes : CodeLookup} (known : Known codes ex) (batches : List (List Event)) :
    (batches.foldl (fun ex events => ex.writeBatch events codes) ex).pid = ex.pid ∧
      (batches.foldl (fun ex events => ex.writeBatch events codes) ex).out = ex.out ++ batches.flatMap (batchCalls ex.pid codes) := by
  induction batches generalizing ex with
  | nil => exact ⟨rfl,(List.append_nil _).symm⟩
  | cons events batches ih =>
    have clear : Known codes {ex with buf := []} := known
    obtain ⟨kept,buf,pid,out⟩ := events_known clear events
    have after : Known codes (ex.writeBatch events codes) := kept
    obtain ⟨same,whole⟩ := ih after
    have keeps : (ex.writeBatch events codes).pid = ex.pid := pid
    have calls : (ex.writeBatch events codes).out = ex.out ++ batchCalls ex.pid codes events := by
      simp only [JsonExporter.writeBatch,batchCalls,buf,out,List.nil_append]
    rw [List.foldl_cons,same,whole,calls,keeps,List.flatMap_cons,List.append_assoc]
    exact ⟨rfl,rfl⟩

theorem batches_written (pid : UInt32) (codes : CodeLookup) (batches : List (List Event)) :
    written (batches.flatMap (batchCalls pid codes)) = batches.flatten.flatMap fun ev => eventText pid codes ev ++ utf8 "," := by
  induction batches with
  | nil => rfl
  | cons events rest ih =>
    rw [List.flatMap_cons,written_append,ih,List.flatten_cons,List.flatMap_append]
    simp [batchCalls,OutCall.bytes]

def metadata (pid : UInt32) (threads : List (UInt32 × String)) (dropped : UInt64) : List Metadata :=
  threads.map (fun thread => .threadName pid thread.1 thread.2) ++
    if 0 < dropped then [.droppedEvents pid dropped] else []

def entryCalls (serde : Metadata → List (List UInt8)) (entry : Metadata) : List OutCall :=
  (serde entry).map .write ++ [.write (utf8 ",")]

theorem entries_calls (serde : Metadata → List (List UInt8)) (entries : List Metadata) :
    (∀ call ∈ entries.flatMap (entryCalls serde), ∃ bytes, call = .write bytes) ∧
      written (entries.flatMap (entryCalls serde)) = entries.flatMap fun e => (serde e).flatten ++ utf8 "," := by
  have pieces (pieces : List (List UInt8)) : written (pieces.map .write) = pieces.flatten := by
    rw [written,List.flatMap_map]
    exact List.flatMap_id
  induction entries with
  | nil => exact ⟨fun call mem => absurd mem List.not_mem_nil,rfl⟩
  | cons entry rest ih =>
    refine ⟨?_,?_⟩
    · intro call mem
      rw [List.flatMap_cons] at mem
      rcases List.mem_append.mp mem with here | later
      · unfold entryCalls at here
        simp only [List.mem_append,List.mem_map,List.mem_singleton] at here
        rcases here with ⟨piece,-,rfl⟩ | rfl
        · exact ⟨_,rfl⟩
        · exact ⟨_,rfl⟩
      · exact ih.1 call later
    · rw [List.flatMap_cons,written_append,ih.2,List.flatMap_cons,entryCalls,written_append,pieces]
      simp [OutCall.bytes]

theorem names_calls (serde : Metadata → List (List UInt8)) (ex : JsonExporter) (threads : List (UInt32 × String)) :
    let after := threads.foldl (fun ex thread => ex.writeEntry serde (.threadName ex.pid thread.1 thread.2)) ex
    after.pid = ex.pid ∧ after.templates = ex.templates ∧ after.out = ex.out ++
      (threads.map fun thread => Metadata.threadName ex.pid thread.1 thread.2).flatMap (entryCalls serde) := by
  induction threads generalizing ex with
  | nil => exact ⟨rfl,rfl,(List.append_nil _).symm⟩
  | cons thread threads ih =>
    obtain ⟨same,still,whole⟩ := ih (ex.writeEntry serde (.threadName ex.pid thread.1 thread.2))
    refine ⟨same,still,whole.trans ?_⟩
    rw [List.map_cons,List.flatMap_cons,← List.append_assoc]
    rfl

theorem finish_out (serde : Metadata → List (List UInt8)) (ex : JsonExporter) (threads : List (UInt32 × String))
    (dropped : UInt64) : (ex.finish serde threads dropped).templates = ex.templates ∧
      (ex.finish serde threads dropped).out =
        ex.out ++ ((metadata ex.pid threads dropped).flatMap (entryCalls serde) ++ [.flush]) := by
  obtain ⟨same,still,whole⟩ := names_calls serde ex threads
  have entry (ex : JsonExporter) (entry : Metadata) : (ex.writeEntry serde entry).templates = ex.templates ∧
      (ex.writeEntry serde entry).out = ex.out ++ entryCalls serde entry := ⟨rfl,rfl⟩
  unfold JsonExporter.finish metadata
  simp only [List.flatMap_append]
  split
  · rw [(entry _ _).1,(entry _ _).2,whole,same,List.flatMap_singleton,List.append_assoc,List.append_assoc,List.append_assoc]
    exact ⟨still,rfl⟩
  · rw [whole,List.flatMap_nil,List.append_nil,List.append_assoc]
    exact ⟨still,rfl⟩

def exported (serde : Metadata → List (List UInt8)) (pid : UInt32) (codes : CodeLookup) (batches : List (List Event))
    (threads : List (UInt32 × String)) (dropped : UInt64) : List UInt8 :=
  let ex := batches.foldl (fun ex events => ex.writeBatch events codes) (JsonExporter.new pid)
  written (ex.finish serde threads dropped).out

theorem exported_texts (serde : Metadata → List (List UInt8)) (pid : UInt32) (codes : CodeLookup)
    (batches : List (List Event)) (threads : List (UInt32 × String)) (dropped : UInt64) :
    exported serde pid codes batches threads dropped = (batches.flatten.map (eventText pid codes) ++
      (metadata pid threads dropped).map fun entry => (serde entry).flatten).flatMap (· ++ [0x2c]) := by
  have nothing : Known codes (.new pid) := fun _ _ found => by cases found
  obtain ⟨same,whole⟩ := batches_out nothing batches
  dsimp only [exported]
  rw [(finish_out serde _ threads dropped).2,whole,same,written_append,written_append,written_append,batches_written,
    (entries_calls serde _).2,List.flatMap_append,List.flatMap_map,List.flatMap_map]
  simp [JsonExporter.new,OutCall.bytes]
  rfl

theorem joined_of_commas (texts : List (List UInt8)) :
    (texts.flatMap (· ++ [0x2c])).dropLast ++ [0x5d] = joined 0x5d texts := by
  induction texts with
  | nil => rfl
  | cons text texts ih =>
    rw [List.flatMap_cons]
    cases texts with
    | nil => rw [List.flatMap_nil,List.append_nil,List.dropLast_concat,joined]
    | cons next texts =>
      have filled : (next :: texts).flatMap (· ++ [0x2c]) ≠ [] := by simp
      rw [List.dropLast_append_of_ne_nil filled,List.append_assoc,List.append_assoc,ih]
      rfl

theorem last_comma (texts : List (List UInt8)) (last : UInt8)
    (found : (texts.flatMap (· ++ [0x2c])).getLast? = some last) : last = 0x2c := by
  induction texts with
  | nil => cases found
  | cons text texts ih =>
    rw [List.flatMap_cons] at found
    cases texts with
    | nil => simpa using found.symm
    | cons next texts =>
      have filled : (next :: texts).flatMap (· ++ [0x2c]) ≠ [] := by simp
      rw [List.getLast?_append_of_ne_nil _ filled] at found
      exact ih found

theorem output_decodes (serde : Metadata → List (List UInt8)) (values : Metadata → Value)
    (well : ∀ entry, parse (serde entry).flatten = some (values entry)) (pid : UInt32) (codes : CodeLookup)
    (batches : List (List Event)) (threads : List (UInt32 × String)) (dropped : UInt64) :
    parse (utf8 "[" ++ (exported serde pid codes batches threads dropped).dropLast ++ utf8 "]") =
        some (.array (batches.flatten.map (entryOf pid codes) ++ (metadata pid threads dropped).map values)) ∧
      (∀ last, (exported serde pid codes batches threads dropped).getLast? = some last → last = 0x2c) ∧
      ∀ split, split.flatten = batches.flatten →
        exported serde pid codes split threads dropped = exported serde pid codes batches threads dropped := by
  refine ⟨?_,?_,?_⟩
  · have each : List.Forall₂ Reads (batches.flatten.map (eventText pid codes) ++
        (metadata pid threads dropped).map fun entry => (serde entry).flatten)
        (batches.flatten.map (entryOf pid codes) ++ (metadata pid threads dropped).map values) := by
      apply List.rel_append
      · rw [List.forall₂_map_left_iff,List.forall₂_map_right_iff,List.forall₂_same]
        exact fun ev _ => eventEntry_reads pid codes ev
      · rw [List.forall₂_map_left_iff,List.forall₂_map_right_iff,List.forall₂_same]
        exact fun entry _ => reads_of_parse (well entry)
    have whole := (reads_array each).parse
    rw [← joined_of_commas,← exported_texts] at whole
    exact whole
  · intro last found
    rw [exported_texts] at found
    exact last_comma _ last found
  · intro split same
    rw [exported_texts,exported_texts,same]

def compact : Metadata → List (List UInt8)
  | .threadName pid tid name => [0x7b :: joined 0x7d
      [pushString "args" ++ 0x3a :: 0x7b :: joined 0x7d [pushString "name" ++ 0x3a :: pushString name],
        pushString "name" ++ 0x3a :: pushString "thread_name",pushString "ph" ++ 0x3a :: pushString "M",
        pushString "pid" ++ 0x3a :: pushU64 pid.toUInt64,pushString "tid" ++ 0x3a :: pushU64 tid.toUInt64]]
  | .droppedEvents pid count => [0x7b :: joined 0x7d
      [pushString "args" ++ 0x3a :: 0x7b :: joined 0x7d [pushString "count" ++ 0x3a :: pushU64 count],
        pushString "name" ++ 0x3a :: pushString "trace0_dropped_events",pushString "ph" ++ 0x3a :: pushString "M",
        pushString "pid" ++ 0x3a :: pushU64 pid.toUInt64,pushString "tid" ++ 0x3a :: pushU64 0]]

def compactValue : Metadata → Value
  | .threadName pid tid name => .object [("args",.object [("name",.string name)]),("name",.string "thread_name"),
      ("ph",.string "M"),("pid",.number pid.toNat),("tid",.number tid.toNat)]
  | .droppedEvents pid count => .object [("args",.object [("count",.number count.toNat)]),
      ("name",.string "trace0_dropped_events"),("ph",.string "M"),("pid",.number pid.toNat),("tid",.number 0)]

theorem compact_parses (entry : Metadata) : parse (compact entry).flatten = some (compactValue entry) := by
  apply Reads.parse
  cases entry with
  | threadName pid tid name =>
    rw [compact,List.flatten_singleton]
    apply reads_object
    refine .cons (pushString_member "args" (reads_object (.cons ?_ .nil))) ?_
    · exact pushString_member "name" (pushString_key name).reads
    refine .cons (pushString_member "name" (pushString_key _).reads) ?_
    refine .cons (pushString_member "ph" (pushString_key _).reads) ?_
    refine .cons (pushString_member "pid" (small_reads _)) ?_
    exact .cons (pushString_member "tid" (small_reads _)) .nil
  | droppedEvents pid count =>
    rw [compact,List.flatten_singleton]
    have zero := pushU64_reads 0
    have none : ((0 : UInt64).toNat : ℚ) = 0 := rfl
    rw [none] at zero
    apply reads_object
    refine .cons (pushString_member "args" (reads_object (.cons ?_ .nil))) ?_
    · exact pushString_member "count" (pushU64_reads count)
    refine .cons (pushString_member "name" (pushString_key _).reads) ?_
    refine .cons (pushString_member "ph" (pushString_key _).reads) ?_
    refine .cons (pushString_member "pid" (small_reads _)) ?_
    exact .cons (pushString_member "tid" zero) .nil

theorem output_decodes_escaped :
    let codes : CodeLookup := fun id => if id = 1 then some ⟨"say \"é\"\n","a\\b.py",7⟩ else none
    let begins := Event.new 1234567 3 1 .Begin
    let ends := Event.new 18446744073709551615 3 2 .Yield
    parse (utf8 "[" ++ (exported compact 4242 codes [[begins],[ends]] [(3,"Main")] 5).dropLast ++ utf8 "]") =
        some (.array ([begins,ends].map (entryOf 4242 codes) ++ (metadata 4242 [(3,"Main")] 5).map compactValue)) ∧
      (∀ last, (exported compact 4242 codes [[begins],[ends]] [(3,"Main")] 5).getLast? = some last → last = 0x2c) ∧
      ∀ split, split.flatten = [begins,ends] → exported compact 4242 codes split [(3,"Main")] 5 =
        exported compact 4242 codes [[begins],[ends]] [(3,"Main")] 5 :=
  output_decodes compact compactValue compact_parses 4242 _ [[_],[_]] [(3,"Main")] 5

end Json
end Trace0
