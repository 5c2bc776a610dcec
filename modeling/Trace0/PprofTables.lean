import Trace0.Pprof
import Trace0.Lib.Assoc

namespace Trace0
namespace Pprof
open PprofExporter

structure Frame where
  function : UInt64
  name : String
  filename : String
  line : Int64
  deriving DecidableEq

def resolve (p : pb.Profile) (id : UInt64) : Option Frame := do
  let location ← p.location.find? (·.id = id)
  match location.line with
  | [line] => do
    let function ← p.function.find? (·.id = line.functionId)
    some ⟨function.id,← p.stringTable[function.name]?,← p.stringTable[function.filename]?,function.startLine⟩
  | _ => none

def readSample (p : pb.Profile) (sample : pb.Sample) : Option (List Frame × Int64) := do
  match sample.value with
  | [ns] => some (← sample.locationId.mapM (resolve p),ns)
  | _ => none

def readProfile (p : pb.Profile) : Option (List (List Frame × Int64)) := p.sample.mapM (readSample p)

structure Consistent (p : pb.Profile) : Prop where
  emptyHead : p.stringTable.head? = some ""
  locationIds : (p.location.map (·.id)).Nodup ∧ ∀ l ∈ p.location, l.id ≠ 0
  functionIds : (p.function.map (·.id)).Nodup ∧ ∀ f ∈ p.function, f.id ≠ 0
  samples : ∀ s ∈ p.sample, s.value.length = p.sampleType.length ∧
    ∀ id ∈ s.locationId, id ∈ p.location.map (·.id)
  lines : ∀ l ∈ p.location, ∀ line ∈ l.line, line.functionId ∈ p.function.map (·.id)
  texts : ∀ f ∈ p.function, f.name < p.stringTable.length ∧ f.systemName < p.stringTable.length ∧
    f.filename < p.stringTable.length
  types : ∀ t ∈ p.sampleType, t.type < p.stringTable.length ∧ t.unit < p.stringTable.length
  comments : ∀ i ∈ p.comment, i < p.stringTable.length

def infoOf (codes : CodeLookup) (codeId : UInt32) : CodeInfo := (codes codeId).getD ⟨"","",0⟩

def frameOf (codes : CodeLookup) (codeId : UInt32) : Frame :=
  let info := infoOf codes codeId
  ⟨locationId codeId,if info.qualname = "" then "<unknown>" else info.qualname,info.filename,
    info.firstlineno.toUInt64.toInt64⟩

def locationOf (codes : CodeLookup) (codeId : UInt32) : pb.Location :=
  ⟨locationId codeId,[⟨locationId codeId,(frameOf codes codeId).line,0⟩]⟩

structure Describes (codes : CodeLookup) (table : List String) (codeId : UInt32) (f : pb.Function) : Prop where
  id : f.id = locationId codeId
  name : table[f.name]? = some (frameOf codes codeId).name
  systemName : f.systemName = f.name
  filename : table[f.filename]? = some (frameOf codes codeId).filename
  startLine : f.startLine = (frameOf codes codeId).line

theorem locationId_toNat (codeId : UInt32) : (locationId codeId).toNat = codeId.toNat + 1 := by
  have bound := codeId.toNat_lt
  have one : (1 : UInt64).toNat = 1 := rfl
  rw [locationId,UInt64.toNat_add,UInt32.toNat_toUInt64,one]
  omega

theorem locationId_inj {a b : UInt32} (same : locationId a = locationId b) : a = b := by
  have nat := congrArg UInt64.toNat same
  rw [locationId_toNat,locationId_toNat] at nat
  exact UInt32.toNat_inj.mp (Nat.succ.inj nat)

theorem locationId_ne (codeId : UInt32) : locationId codeId ≠ 0 := by
  intro zero
  have nat := congrArg UInt64.toNat zero
  rw [locationId_toNat] at nat
  cases nat

theorem frameOf_inj (codes : CodeLookup) {a b : UInt32} (same : frameOf codes a = frameOf codes b) : a = b :=
  locationId_inj (congrArg Frame.function same)

theorem insertCode_mem (used : List UInt32) (codeId c : UInt32) : c ∈ insertCode used codeId ↔ c = codeId ∨ c ∈ used := by
  unfold insertCode
  split
  · next old =>
    constructor
    · exact .inr
    · rintro (rfl | mem)
      · exact old
      · exact mem
  · exact List.mem_orderedInsert _

theorem insertCode_nodup {used : List UInt32} (distinct : used.Nodup) (codeId : UInt32) :
    (insertCode used codeId).Nodup := by
  unfold insertCode
  split
  · exact distinct
  · next new => exact (List.perm_orderedInsert _ _ _).nodup_iff.mpr (List.nodup_cons.mpr ⟨new,distinct⟩)

theorem insertCodes (stack used : List UInt32) (distinct : used.Nodup) :
    (stack.foldl insertCode used).Nodup ∧ ∀ c, c ∈ stack.foldl insertCode used ↔ c ∈ stack ∨ c ∈ used := by
  induction stack generalizing used with
  | nil => exact ⟨distinct,by simp⟩
  | cons codeId stack ih =>
    obtain ⟨kept,mem⟩ := ih _ (insertCode_nodup distinct codeId)
    refine ⟨kept,?_⟩
    intro c
    rw [List.foldl_cons,mem,insertCode_mem,List.mem_cons]
    tauto

theorem usedCodes_spec (selfNs : List (List UInt32 × Int64)) : (usedCodes selfNs).Nodup ∧
    ∀ c, c ∈ usedCodes selfNs ↔ ∃ entry ∈ selfNs, c ∈ entry.1 := by
  have whole : usedCodes selfNs = (selfNs.flatMap (·.1)).foldl insertCode [] := by
    rw [List.foldl_flatMap]
    rfl
  obtain ⟨distinct,mem⟩ := insertCodes (selfNs.flatMap (·.1)) [] List.nodup_nil
  rw [whole]
  refine ⟨distinct,?_⟩
  intro c
  rw [mem,List.mem_flatMap]
  simp

theorem prefix_getElem {table longer : List String} {i : Nat} {text : String} (grows : table <+: longer)
    (found : table[i]? = some text) :
    longer[i]? = some text := by
  obtain ⟨more,rfl⟩ := grows
  obtain ⟨small,_⟩ := List.getElem?_eq_some_iff.mp found
  rw [List.getElem?_append_left small,found]

def Strings.Sound (strings : Strings) : Prop :=
  ∀ text i, strings.index.lookup text = some i → strings.table[i]? = some text

theorem Strings.id_sound {strings : Strings} (sound : strings.Sound) (text : String) :
    (strings.id text).1.Sound ∧ (strings.id text).1.table[(strings.id text).2]? = some text ∧
      strings.table <+: (strings.id text).1.table := by
  unfold Strings.id
  split
  · next found => exact ⟨sound,sound _ _ found,List.prefix_refl _⟩
  · have last : (strings.table ++ [text])[strings.table.length]? = some text := by simp
    refine ⟨?_,last,List.prefix_append _ _⟩
    intro other i found
    rw [Assoc.lookup_snoc] at found
    cases old : strings.index.lookup other with
    | some j =>
      rw [old,Option.some_or] at found
      cases found
      exact prefix_getElem (List.prefix_append _ _) (sound _ _ old)
    | none =>
      rw [old,Option.none_or] at found
      split at found
      · next same =>
        cases found
        exact beq_iff_eq.mp same ▸ last
      · cases found

theorem Describes.grows {codes : CodeLookup} {f : pb.Function} (describes : Describes codes table codeId f)
    (grows : table <+: longer) : Describes codes longer codeId f :=
  ⟨describes.id,prefix_getElem grows describes.name,describes.systemName,prefix_getElem grows describes.filename,
    describes.startLine⟩

structure Tabled (codes : CodeLookup) (done : List UInt32) (strings : Strings) (profile : pb.Profile) : Prop where
  sound : strings.Sound
  locations : profile.location = done.map (locationOf codes)
  functionIds : profile.function.map (·.id) = done.map locationId
  functions : ∀ f ∈ profile.function, ∃ c ∈ done, Describes codes strings.table c f

theorem addCode_tabled {codes : CodeLookup} {p : pb.Profile} (tabled : Tabled codes done strings p)
    (codeId : UInt32) : Tabled codes (done ++ [codeId]) (addCode codes (strings,p) codeId).1
        (addCode codes (strings,p) codeId).2 ∧ strings.table <+: (addCode codes (strings,p) codeId).1.table ∧
      (addCode codes (strings,p) codeId).2.sampleType = p.sampleType := by
  obtain ⟨sound,named,grows⟩ := Strings.id_sound tabled.sound (frameOf codes codeId).name
  obtain ⟨later,filed,longer⟩ := Strings.id_sound sound (frameOf codes codeId).filename
  refine ⟨⟨later,?_,?_,?_⟩,grows.trans longer,rfl⟩
  · rw [List.map_append,← tabled.locations]
    rfl
  · rw [List.map_append,← tabled.functionIds]
    exact List.map_append
  · intro f mem
    rcases List.mem_append.mp mem with old | new
    · obtain ⟨c,present,describes⟩ := tabled.functions f old
      exact ⟨c,List.mem_append_left _ present,describes.grows (grows.trans longer)⟩
    · cases List.mem_singleton.mp new
      exact ⟨codeId,List.mem_append_right _ (List.mem_singleton_self _),rfl,prefix_getElem longer named,rfl,filed,rfl⟩

theorem addCodes_tabled {codes : CodeLookup} (used done : List UInt32) {acc : Strings × pb.Profile}
    (tabled : Tabled codes done acc.1 acc.2) :
    Tabled codes (done ++ used) (used.foldl (addCode codes) acc).1 (used.foldl (addCode codes) acc).2 ∧
      acc.1.table <+: (used.foldl (addCode codes) acc).1.table ∧
      (used.foldl (addCode codes) acc).2.sampleType = acc.2.sampleType := by
  induction used generalizing done acc with
  | nil =>
    rw [List.append_nil]
    exact ⟨tabled,List.prefix_refl _,rfl⟩
  | cons codeId used ih =>
    obtain ⟨next,grows,types⟩ := addCode_tabled tabled codeId
    obtain ⟨last,longer,same⟩ := ih _ next
    rw [List.append_assoc,List.singleton_append] at last
    exact ⟨last,grows.trans longer,same.trans types⟩

-- What a finished profile says, whatever the texts are.
structure Built (codes : CodeLookup) (selfNs : List (List UInt32 × Int64)) (p : pb.Profile) : Prop where
  sample : p.sample = selfNs.map sampleOf
  location : p.location = (usedCodes selfNs).map (locationOf codes)
  functionIds : p.function.map (·.id) = (usedCodes selfNs).map locationId
  functions : ∀ f ∈ p.function, ∃ c ∈ usedCodes selfNs, Describes codes p.stringTable c f
  emptyHead : p.stringTable[0]? = some ""
  types : ∃ t, p.sampleType = [t] ∧ p.stringTable[t.type]? = some "wall" ∧
    p.stringTable[t.unit]? = some "nanoseconds"
  comments : ∀ i ∈ p.comment, i < p.stringTable.length

theorem declared_eq : declared = (⟨["","wall","nanoseconds"],[("",0),("wall",1),("nanoseconds",2)]⟩,
    ⟨[⟨1,2⟩],[],[],[],[],[]⟩) := by decide +kernel

theorem declared_tabled (codes : CodeLookup) : Tabled codes [] declared.1 declared.2 := by
  have none : Strings.Sound ⟨[],[]⟩ := fun _ _ found => by cases found
  have first := (Strings.id_sound none "").1
  have second := (Strings.id_sound first "wall").1
  refine ⟨(Strings.id_sound second "nanoseconds").1,rfl,rfl,?_⟩
  intro f mem
  cases mem

theorem comments_sound {strings : Strings} (sound : strings.Sound) (dropped : UInt64) :
    strings.table <+: (comments strings dropped).1.table ∧
      ∀ i ∈ (comments strings dropped).2, i < (comments strings dropped).1.table.length := by
  unfold comments
  split
  · obtain ⟨_,said,grows⟩ := Strings.id_sound sound ("trace0: " ++ toString dropped ++ " events dropped")
    refine ⟨grows,?_⟩
    intro i mem
    cases List.mem_singleton.mp mem
    exact (List.getElem?_eq_some_iff.mp said).1
  · exact ⟨List.prefix_refl _,fun _ mem => by cases mem⟩

theorem profile_built (selfNs : List (List UInt32 × Int64)) (codes : CodeLookup) (dropped : UInt64) :
    Built codes selfNs (profile selfNs codes dropped) := by
  obtain ⟨tabled,grows,types⟩ := addCodes_tabled (usedCodes selfNs) [] (declared_tabled codes)
  rw [List.nil_append] at tabled
  obtain ⟨longer,said⟩ := comments_sound tabled.sound dropped
  have kept (i : Nat) (text : String) (found : declared.1.table[i]? = some text) :
      (profile selfNs codes dropped).stringTable[i]? = some text := prefix_getElem (grows.trans longer) found
  constructor
  · rfl
  · exact tabled.locations
  · exact tabled.functionIds
  · intro f mem
    obtain ⟨c,present,describes⟩ := tabled.functions f mem
    exact ⟨c,present,describes.grows longer⟩
  · exact kept 0 "" (by rw [declared_eq]; rfl)
  · refine ⟨⟨1,2⟩,?_,kept 1 "wall" (by rw [declared_eq]; rfl),kept 2 "nanoseconds" (by rw [declared_eq]; rfl)⟩
    rw [declared_eq] at types
    exact types
  · exact said

theorem mapM_some {f : α → Option β} {g : α → β} {items : List α} (each : ∀ a ∈ items, f a = some (g a)) :
    items.mapM f = some (items.map g) := by
  induction items with
  | nil => rfl
  | cons a items ih =>
    rw [List.mapM_cons,each a List.mem_cons_self,ih fun b mem => each b (List.mem_cons_of_mem _ mem)]
    rfl

section

variable {codes : CodeLookup} {selfNs : List (List UInt32 × Int64)} {p : pb.Profile} (built : Built codes selfNs p)
include built

theorem Built.findLocation (used : c ∈ usedCodes selfNs) :
    p.location.find? (·.id = locationId c) = some (locationOf codes c) := by
  have inside : locationOf codes c ∈ p.location := built.location ▸ List.mem_map_of_mem used
  cases found : p.location.find? (·.id = locationId c) with
  | none =>
    have named : (locationOf codes c).id = locationId c := rfl
    exact absurd named (by simpa using List.find?_eq_none.mp found _ inside)
  | some l =>
    have named := List.find?_some found
    have mem := List.mem_of_find?_eq_some found
    rw [built.location] at mem
    obtain ⟨d,_,rfl⟩ := List.mem_map.mp mem
    rw [locationId_inj (of_decide_eq_true named)]

theorem Built.findFunction (used : c ∈ usedCodes selfNs) :
    ∃ f, p.function.find? (·.id = locationId c) = some f ∧ Describes codes p.stringTable c f := by
  have inside : locationId c ∈ p.function.map (·.id) := built.functionIds ▸ List.mem_map_of_mem used
  obtain ⟨g,present,same⟩ := List.mem_map.mp inside
  cases found : p.function.find? (·.id = locationId c) with
  | none => exact absurd same (by simpa using List.find?_eq_none.mp found g present)
  | some f =>
    obtain ⟨d,_,describes⟩ := built.functions f (List.mem_of_find?_eq_some found)
    have named : f.id = locationId c := by simpa using List.find?_some found
    rw [describes.id] at named
    exact ⟨f,rfl,locationId_inj named ▸ describes⟩

theorem Built.resolves (used : c ∈ usedCodes selfNs) : resolve p (locationId c) = some (frameOf codes c) := by
  obtain ⟨f,found,describes⟩ := built.findFunction used
  have line : (locationOf codes c).line = [⟨locationId c,(frameOf codes c).line,0⟩] := rfl
  simp only [resolve,built.findLocation used,Option.bind_eq_bind,Option.bind_some,line,found,describes.name,
    describes.filename,describes.id,describes.startLine]
  rfl

theorem Built.reads : readProfile p = some (selfNs.map fun entry => (entry.1.reverse.map (frameOf codes),entry.2)) := by
  rw [readProfile,built.sample,List.mapM_map]
  apply mapM_some
  intro entry mem
  have frames : (entry.1.reverse.map locationId).mapM (resolve p) = some (entry.1.reverse.map (frameOf codes)) := by
    rw [List.mapM_map]
    apply mapM_some
    intro c inside
    exact built.resolves (((usedCodes_spec selfNs).2 c).mpr ⟨entry,mem,List.mem_reverse.mp inside⟩)
  simp only [Function.comp_apply,readSample,sampleOf,frames,Option.bind_eq_bind,Option.bind_some]

theorem Built.consistent : Consistent p := by
  have distinct := (usedCodes_spec selfNs).1
  have ids : p.location.map (·.id) = (usedCodes selfNs).map locationId := by
    rw [built.location,List.map_map]
    rfl
  obtain ⟨t,types,wall,unit⟩ := built.types
  constructor
  · rw [List.head?_eq_getElem?]
    exact built.emptyHead
  · refine ⟨ids ▸ distinct.map fun _ _ => locationId_inj,?_⟩
    intro l mem
    rw [built.location] at mem
    obtain ⟨c,_,rfl⟩ := List.mem_map.mp mem
    exact locationId_ne c
  · refine ⟨built.functionIds ▸ distinct.map fun _ _ => locationId_inj,?_⟩
    intro f mem
    obtain ⟨c,_,describes⟩ := built.functions f mem
    exact describes.id ▸ locationId_ne c
  · intro s mem
    rw [built.sample] at mem
    obtain ⟨entry,present,rfl⟩ := List.mem_map.mp mem
    rw [types,ids]
    refine ⟨rfl,?_⟩
    intro id listed
    obtain ⟨c,inside,rfl⟩ := List.mem_map.mp listed
    exact List.mem_map_of_mem (((usedCodes_spec selfNs).2 c).mpr ⟨entry,present,List.mem_reverse.mp inside⟩)
  · intro l mem line inside
    rw [built.location] at mem
    obtain ⟨c,used,rfl⟩ := List.mem_map.mp mem
    cases List.mem_singleton.mp inside
    exact built.functionIds ▸ List.mem_map_of_mem used
  · intro f mem
    obtain ⟨c,_,describes⟩ := built.functions f mem
    have named := (List.getElem?_eq_some_iff.mp describes.name).1
    exact ⟨named,describes.systemName ▸ named,(List.getElem?_eq_some_iff.mp describes.filename).1⟩
  · intro other mem
    rw [types] at mem
    cases List.mem_singleton.mp mem
    exact ⟨(List.getElem?_eq_some_iff.mp wall).1,(List.getElem?_eq_some_iff.mp unit).1⟩
  · exact built.comments

end

end Pprof
end Trace0
