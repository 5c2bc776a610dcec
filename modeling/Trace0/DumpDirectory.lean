import Trace0.Entering
import Trace0.Lib.Machine
import Trace0.Lib.Separated

namespace Trace0

-- The directory is the same for all and left out; a process that the tracer forked or started
-- has its pid, the first one 0.
structure DirSink where
  format : Format
  pid : UInt32

def Format.ext : Format → String
  | .Json => "json"
  | .Protobuf => "pb"
  | .Pprof => "pprof"

namespace DirSink

def keeps (c : Char) : Bool := c.isAlphanum || c = '.' || c = '_' || c = '-'

def safe (reason : String) : String := reason.map fun c => if keeps c then c else '-'

def tag (serial : Nat) : String := if serial = 1 then "" else "-" ++ toString serial

def name (sink : DirSink) (stamp : Nat) (reason : String) (serial : Nat) : String :=
  if sink.pid = 0 then toString stamp ++ "-" ++ safe reason ++ tag serial ++ "." ++ sink.format.ext
  else toString stamp ++ "-" ++ safe reason ++ tag serial ++ "." ++ toString sink.pid.toNat ++ "." ++ sink.format.ext

def Plain (reason : String) : Prop := ∀ front n, (safe reason).toList ≠ front ++ '.' :: Nat.toDigits 10 n

theorem digits_clean {c : Char} (other : c.isDigit = false) (n : Nat) : c ∉ Nat.toDigits 10 n := by
  intro present
  rw [Nat.isDigit_of_mem_toDigits (by decide) (by decide) present] at other
  cases other

theorem digits_inj {m n : Nat} (same : Nat.toDigits 10 m = Nat.toDigits 10 n) : m = n := by
  rw [← Nat.ofDigitChars_toDigits (b := 10) (n := m) (by decide) (by decide),same,
    Nat.ofDigitChars_toDigits (by decide) (by decide)]

theorem ext_clean (format : Format) : '.' ∉ format.ext.toList ∧ '/' ∉ format.ext.toList := by
  cases format <;> decide

def stem (sink : DirSink) (stamp : Nat) (reason : String) (serial : Nat) : List Char :=
  let front := Nat.toDigits 10 stamp ++ '-' :: (safe reason).toList ++ (tag serial).toList
  if sink.pid = 0 then front else front ++ '.' :: Nat.toDigits 10 sink.pid.toNat

theorem name_stem (sink : DirSink) (stamp : Nat) (reason : String) (serial : Nat) :
    (sink.name stamp reason serial).toList = sink.stem stamp reason serial ++ '.' :: sink.format.ext.toList := by
  unfold name stem
  split <;> simp

theorem tag_toList (serial : Nat) : (tag serial).toList = if serial = 1 then [] else '-' :: Nat.toDigits 10 serial := by
  unfold tag
  split <;> simp

theorem tag_inj {m n : Nat} (same : (tag m).toList = (tag n).toList) : m = n := by
  rw [tag_toList,tag_toList] at same
  split at same <;> split at same
  · rename_i one two
    rw [one,two]
  · cases same
  · cases same
  · exact digits_inj (List.cons.inj same).2

theorem name_inj {sink : DirSink} {stamp : Nat} {reason : String} {m n : Nat}
    (same : sink.name stamp reason m = sink.name stamp reason n) : m = n := by
  have letters := congrArg String.toList same
  rw [name_stem,name_stem] at letters
  have stems := (Separated.last_part (ext_clean _).1 (ext_clean _).1 letters).1
  unfold stem at stems
  dsimp only at stems
  split at stems
  · exact tag_inj (List.append_cancel_left stems)
  · have fronts := (Separated.last_part (digits_clean (by decide) _) (digits_clean (by decide) _) stems).1
    exact tag_inj (List.append_cancel_left fronts)

-- The first process's names do not end in a number as the others' do: a serial above the
-- first stands behind a hyphen, and a plain reason ends otherwise.
theorem front_plain {reason : String} (plain : Plain reason) (stamp serial : Nat) (front : List Char) (n : Nat) :
    Nat.toDigits 10 stamp ++ '-' :: (safe reason).toList ++ (tag serial).toList ≠ front ++ '.' :: Nat.toDigits 10 n := by
  intro same
  rw [tag_toList] at same
  split at same
  · rw [List.append_nil] at same
    obtain ⟨rest,ends⟩ := Separated.behind (by decide) (digits_clean (by decide) stamp) same
    exact plain rest n ends
  · exact Separated.crossed (by decide) (digits_clean (by decide) serial) (digits_clean (by decide) n) same

theorem names_apart {sink sink' : DirSink} {reason reason' : String} (apart : sink.pid ≠ sink'.pid)
    (plain : sink.pid = 0 → Plain reason) (plain' : sink'.pid = 0 → Plain reason') (stamp stamp' serial serial' : Nat) :
    sink.name stamp reason serial ≠ sink'.name stamp' reason' serial' := by
  intro same
  have letters := congrArg String.toList same
  rw [name_stem,name_stem] at letters
  have stems := (Separated.last_part (ext_clean _).1 (ext_clean _).1 letters).1
  unfold stem at stems
  dsimp only at stems
  by_cases root : sink.pid = 0
  · have child : sink'.pid ≠ 0 := fun zero => apart (root.trans zero.symm)
    rw [if_pos root,if_neg child] at stems
    exact front_plain (plain root) stamp serial _ _ stems
  · by_cases root' : sink'.pid = 0
    · rw [if_neg root,if_pos root'] at stems
      exact front_plain (plain' root') stamp' serial' _ _ stems.symm
    · rw [if_neg root,if_neg root'] at stems
      have pids := (Separated.last_part (digits_clean (by decide) _) (digits_clean (by decide) _) stems).2
      exact apart (UInt32.toNat_inj.mp (digits_inj pids))

-- A first process's reason can end like that.
example : (⟨.Json,0⟩ : DirSink).name 5 "a.7" 1 = (⟨.Json,7⟩ : DirSink).name 5 "a" 1 := by decide +kernel

theorem keeps_slash : keeps '/' = false := by decide

theorem name_component (sink : DirSink) (stamp : Nat) (reason : String) (serial : Nat) :
    '/' ∉ (sink.name stamp reason serial).toList := by
  have safe_clean : '/' ∉ (safe reason).toList := by
    unfold safe
    rw [String.toList_map]
    intro present
    obtain ⟨c,_,made⟩ := List.mem_map.mp present
    split at made
    · rename_i kept
      rw [made,keeps_slash] at kept
      cases kept
    · cases made
  have tag_clean : '/' ∉ (tag serial).toList := by
    rw [tag_toList]
    split
    · simp
    · simp [digits_clean]
  have front : '/' ∉ Nat.toDigits 10 stamp ++ '-' :: (safe reason).toList ++ (tag serial).toList := by
    simp [safe_clean,tag_clean,digits_clean]
  rw [name_stem]
  unfold stem
  dsimp only
  split <;> simp [safe_clean,tag_clean,digits_clean,(ext_clean sink.format).2]

end DirSink

-- An `open` on its way: the serial to be tried next, or the one whose name was not there.
-- `among`, the names of its beginning, is read by no step.
structure SinkOpening where
  stamp : Nat
  reason : String
  serial : Nat
  found : Bool
  among : List String

-- A process with its sink; it has one recorder, and so one `open` at a time.
structure SinkHolder where
  sink : DirSink
  live : Bool
  opening : Option SinkOpening

-- `created` holds what every `open` returned, and `lost` each name of a file that was there
-- when it was created again.
structure DumpDirectory where
  files : List String
  holders : List SinkHolder
  created : List String
  lost : List String

inductive DirectoryAct where
  | start (sink : DirSink)
  | stop (p : Nat)
  | open_ (p : Nat) (stamp : Nat) (reason : String)
  | look (p : Nat)
  | create (p : Nat)
  | fail (p : Nat)
  | remove (name : String)

def SinkOpening.name (sink : DirSink) (o : SinkOpening) : String := sink.name o.stamp o.reason o.serial

namespace DumpDirectory

def withHolder (d : DumpDirectory) (p : Nat) (holder : SinkHolder) : DumpDirectory :=
  {d with holders := d.holders.set p holder}

-- A process that has ended opens nothing any more. `create` truncates; it may fail before the
-- file is made, or behind it, which leaves the directory as `create` does.
def step (d : DumpDirectory) : DirectoryAct → Option DumpDirectory
  | .start sink => some {d with holders := d.holders ++ [⟨sink,true,none⟩]}
  | .stop p => d.holders[p]?.map fun holder => d.withHolder p {holder with live := false,opening := none}
  | .open_ p stamp reason => do
    let holder ← d.holders[p]?
    match holder.live,holder.opening with
    | true,none => some (d.withHolder p {holder with opening := some ⟨stamp,reason,1,false,d.files⟩})
    | _,_ => none
  | .look p => do
    let holder ← d.holders[p]?
    let o ← holder.opening
    if o.found then none
    else if o.name holder.sink ∈ d.files then
      some (d.withHolder p {holder with opening := some {o with serial := o.serial+1}})
    else some (d.withHolder p {holder with opening := some {o with found := true}})
  | .create p => do
    let holder ← d.holders[p]?
    let o ← holder.opening
    if o.found then
      let name := o.name holder.sink
      some {d.withHolder p {holder with opening := none} with
        files := if name ∈ d.files then d.files else d.files ++ [name]
        created := d.created ++ [name]
        lost := if name ∈ d.files then d.lost ++ [name] else d.lost}
    else none
  | .fail p => d.holders[p]?.map fun holder => d.withHolder p {holder with opening := none}
  | .remove name => some {d with files := d.files.erase name}

-- Of the sinks in use at one time no two have the same pid, so one at most has 0, and its
-- reasons do not end in a point and a number.
def Distinct (d : DumpDirectory) : DirectoryAct → Prop
  | .start sink => ∀ holder ∈ d.holders, holder.live = true → holder.sink.pid ≠ sink.pid
  | .open_ p _ reason => ∀ holder, d.holders[p]? = some holder → holder.sink.pid = 0 → DirSink.Plain reason
  | _ => True

structure Opens (d : DumpDirectory) (holder : SinkHolder) (o : SinkOpening) : Prop where
  live : holder.live = true
  plain : holder.sink.pid = 0 → DirSink.Plain o.reason
  first : 1 ≤ o.serial
  free : o.found = true → o.name holder.sink ∉ d.files
  tried : ∀ j, 1 ≤ j → j < o.serial → holder.sink.name o.stamp o.reason j ∈ o.among
  among : ∀ j, holder.sink.name o.stamp o.reason j ∈ d.files → holder.sink.name o.stamp o.reason j ∈ o.among

structure Whole (d : DumpDirectory) : Prop where
  opens : ∀ (p : Nat) holder o, d.holders[p]? = some holder → holder.opening = some o → Opens d holder o
  apart : ∀ (p q : Nat) a b, d.holders[p]? = some a → d.holders[q]? = some b → a.live = true → b.live = true →
    a.sink.pid = b.sink.pid → p = q
  lost : d.lost = []
  component : ∀ name ∈ d.created, '/' ∉ name.toList

variable {d d' : DumpDirectory} {p q : Nat} {holder next : SinkHolder} {o : SinkOpening}

theorem holder_cases {held : SinkHolder} (there : (d.holders.set p next)[q]? = some held) :
    (q = p ∧ held = next) ∨ (q ≠ p ∧ d.holders[q]? = some held) := by
  by_cases same : q = p
  · subst q
    obtain ⟨inside,at_⟩ := List.getElem?_eq_some_iff.mp there
    exact .inl ⟨rfl,by simpa using at_.symm⟩
  · exact .inr ⟨same,by simpa [List.getElem?_set_ne (Ne.symm same)] using there⟩

theorem Opens.fewer (opens : Opens d holder o) (fewer : ∀ name ∈ d'.files, name ∈ d.files) : Opens d' holder o :=
  ⟨opens.live,opens.plain,opens.first,fun found present => opens.free found (fewer _ present),opens.tried,
    fun j present => opens.among j (fewer _ present)⟩

theorem whole_holder (whole : Whole d) (there : d.holders[p]? = some holder) (sink : next.sink = holder.sink)
    (live : next.live = true → holder.live = true) (own : ∀ o, next.opening = some o → Opens d next o) :
    Whole (d.withHolder p next) := by
  refine ⟨?_,?_,whole.lost,whole.component⟩
  · intro q held o at_ opening
    rcases holder_cases at_ with ⟨rfl,rfl⟩ | ⟨_,before⟩
    · exact (own o opening).fewer fun _ present => present
    · exact (whole.opens q held o before opening).fewer fun _ present => present
  · intro q r a b at_ at' alive alive' same
    rcases holder_cases at_ with ⟨rfl,rfl⟩ | ⟨_,before⟩ <;> rcases holder_cases at' with ⟨rfl,rfl⟩ | ⟨_,before'⟩
    · rfl
    · exact whole.apart q r holder b there before' (live alive) alive' (by rw [← sink]; exact same)
    · exact whole.apart q r a holder before there alive (live alive') (by rw [← sink]; exact same)
    · exact whole.apart q r a b before before' alive alive' same

theorem whole_create (whole : Whole d) (there : d.holders[p]? = some holder) (opening : holder.opening = some o) :
    Whole {d.withHolder p {holder with opening := none} with
      files := d.files ++ [o.name holder.sink]
      created := d.created ++ [o.name holder.sink]} := by
  have mine := whole.opens p holder o there opening
  have closed : Whole (d.withHolder p {holder with opening := none}) := whole_holder whole there rfl id (by simp)
  refine ⟨?_,closed.apart,whole.lost,?_⟩
  · intro q held o' at_ opening'
    rcases holder_cases at_ with ⟨rfl,rfl⟩ | ⟨other,before⟩
    · cases opening'
    · have theirs := whole.opens q held o' before opening'
      have unlike : held.sink.pid ≠ holder.sink.pid := fun same =>
        other (whole.apart q p held holder before there theirs.live mine.live same)
      have foreign (j : Nat) : held.sink.name o'.stamp o'.reason j ≠ o.name holder.sink :=
        DirSink.names_apart unlike theirs.plain mine.plain _ _ _ _
      have kept (j : Nat) (present : held.sink.name o'.stamp o'.reason j ∈ d.files ++ [o.name holder.sink]) :
          held.sink.name o'.stamp o'.reason j ∈ d.files := by
        rcases List.mem_append.mp present with old | new
        · exact old
        · exact absurd (List.mem_singleton.mp new) (foreign j)
      exact ⟨theirs.live,theirs.plain,theirs.first,fun found present => theirs.free found (kept _ present),theirs.tried,
        fun j present => theirs.among j (kept j present)⟩
  · intro name present
    rcases List.mem_append.mp present with old | new
    · exact whole.component name old
    · rw [List.mem_singleton.mp new]
      exact DirSink.name_component _ _ _ _

theorem whole_start (whole : Whole d) {sink : DirSink} (distinct : Distinct d (.start sink)) :
    Whole {d with holders := d.holders ++ [⟨sink,true,none⟩]} := by
  have older {q : Nat} {held : SinkHolder} (at_ : (d.holders ++ [⟨sink,true,none⟩])[q]? = some held) :
      d.holders[q]? = some held ∨ q = d.holders.length ∧ held = ⟨sink,true,none⟩ := by
    rw [List.getElem?_append] at at_
    split at at_
    · exact .inl at_
    · rename_i outside
      obtain ⟨inside,shape⟩ := List.getElem?_eq_some_iff.mp at_
      simp at inside shape
      exact .inr ⟨by omega,shape.symm⟩
  refine ⟨?_,?_,whole.lost,whole.component⟩
  · intro q held o at_ opening
    rcases older at_ with before | ⟨_,rfl⟩
    · exact (whole.opens q held o before opening).fewer fun _ present => present
    · cases opening
  · intro q r a b at_ at' alive alive' same
    rcases older at_ with before | ⟨rfl,rfl⟩ <;> rcases older at' with before' | ⟨rfl,rfl⟩
    · exact whole.apart q r a b before before' alive alive' same
    · exact absurd same (distinct a (List.mem_of_getElem? before) alive)
    · exact absurd same.symm (distinct b (List.mem_of_getElem? before') alive')
    · rfl

theorem Opens.begin (there : d.holders[p]? = some holder) (live : holder.live = true) {stamp : Nat} {reason : String}
    (distinct : Distinct d (.open_ p stamp reason)) :
    Opens d {holder with opening := some ⟨stamp,reason,1,false,d.files⟩} ⟨stamp,reason,1,false,d.files⟩ := by
  refine ⟨live,distinct holder there,Nat.le_refl 1,by simp,?_,fun j present => present⟩
  intro j positive early
  exact absurd positive (Nat.not_le_of_lt early)

theorem Opens.further (mine : Opens d holder o) (looking : ¬ o.found = true) (taken : o.name holder.sink ∈ d.files) :
    Opens d {holder with opening := some {o with serial := o.serial+1}} {o with serial := o.serial+1} := by
  refine ⟨mine.live,mine.plain,Nat.le_succ_of_le mine.first,fun found => absurd found looking,?_,mine.among⟩
  intro j positive early
  rcases Nat.lt_succ_iff_lt_or_eq.mp early with before | rfl
  · exact mine.tried j positive before
  · exact mine.among o.serial taken

theorem whole_step {act : DirectoryAct} (whole : Whole d) (distinct : Distinct d act) (stepped : d.step act = some d') :
    Whole d' := by
  cases act with
  | start sink =>
    cases stepped
    exact whole_start whole distinct
  | stop p =>
    obtain ⟨holder,there,rfl⟩ := Option.map_eq_some_iff.mp stepped
    exact whole_holder whole there rfl (by simp) (by simp)
  | open_ p stamp reason =>
    obtain ⟨holder,there,stepped⟩ := Option.bind_eq_some_iff.mp stepped
    split at stepped
    · rename_i live _
      cases stepped
      refine whole_holder whole there rfl id ?_
      intro o opening
      cases opening
      exact Opens.begin there live distinct
    · cases stepped
  | look p =>
    obtain ⟨holder,there,stepped⟩ := Option.bind_eq_some_iff.mp stepped
    obtain ⟨o,opening,stepped⟩ := Option.bind_eq_some_iff.mp stepped
    have mine := whole.opens p holder o there opening
    split at stepped
    · cases stepped
    · rename_i looking
      split at stepped
      · rename_i taken
        cases stepped
        refine whole_holder whole there rfl id ?_
        intro o' opening'
        cases opening'
        exact mine.further looking taken
      · rename_i free
        cases stepped
        refine whole_holder whole there rfl id ?_
        intro o' opening'
        cases opening'
        exact ⟨mine.live,mine.plain,mine.first,fun _ => free,mine.tried,mine.among⟩
  | create p =>
    obtain ⟨holder,there,stepped⟩ := Option.bind_eq_some_iff.mp stepped
    obtain ⟨o,opening,stepped⟩ := Option.bind_eq_some_iff.mp stepped
    split at stepped
    · rename_i found
      cases stepped
      have free := (whole.opens p holder o there opening).free found
      simp only [if_neg free]
      exact whole_create whole there opening
    · cases stepped
  | fail p =>
    obtain ⟨holder,there,rfl⟩ := Option.map_eq_some_iff.mp stepped
    exact whole_holder whole there rfl id (by simp)
  | remove name =>
    cases stepped
    refine ⟨?_,whole.apart,whole.lost,whole.component⟩
    intro p holder o there opening
    exact (whole.opens p holder o there opening).fewer fun _ present => List.mem_of_mem_erase present

def initial (files : List String) : DumpDirectory := ⟨files,[],[],[]⟩

theorem initial_whole (files : List String) : Whole (initial files) :=
  ⟨fun p holder o there => by simp [initial] at there,fun p q a b there => by simp [initial] at there,rfl,
    fun name present => by simp [initial] at present⟩

theorem serial_bound (opens : Opens d holder o) : o.serial ≤ o.among.length+1 := by
  have tried : ((List.range (o.serial-1)).map fun j => holder.sink.name o.stamp o.reason (j+1)) ⊆ o.among := by
    intro name present
    obtain ⟨j,inside,rfl⟩ := List.mem_map.mp present
    have small := List.mem_range.mp inside
    exact opens.tried (j+1) (by omega) (by omega)
  have once : ((List.range (o.serial-1)).map fun j => holder.sink.name o.stamp o.reason (j+1)).Nodup := by
    refine List.Nodup.map ?_ List.nodup_range
    intro m n same
    have equal := DirSink.name_inj same
    omega
  have bound := (List.subperm_of_subset once tried).length_le
  rw [List.length_map,List.length_range] at bound
  omega

theorem dumps_never_overwrite (files : List String) {acts : List DirectoryAct} {d : DumpDirectory}
    (path : Machine.Runs step Distinct (initial files) acts d) :
    d.lost = [] ∧ (∀ name ∈ d.created, '/' ∉ name.toList) ∧
      ∀ (p : Nat) holder o, d.holders[p]? = some holder → holder.opening = some o → o.serial ≤ o.among.length+1 := by
  have whole := path.invariant (initial_whole files) fun _ _ _ whole distinct stepped => whole_step whole distinct stepped
  exact ⟨whole.lost,whole.component,fun p holder o there opening => serial_bound (whole.opens p holder o there opening)⟩

def testsDistinct (d : DumpDirectory) : DirectoryAct → Bool
  | .start sink => d.holders.all fun holder => !holder.live || holder.sink.pid ≠ sink.pid
  | .open_ _ _ reason => !(DirSink.safe reason).toList.contains '.'
  | _ => true

theorem testsDistinct_meets (d : DumpDirectory) (act : DirectoryAct) (checked : testsDistinct d act = true) :
    Distinct d act := by
  cases act with
  | start sink =>
    intro holder present live
    have unlike := List.all_eq_true.mp checked holder present
    simpa [live] using unlike
  | open_ p stamp reason =>
    intro holder _ _ front n same
    have clean : '.' ∉ (DirSink.safe reason).toList := by simpa [testsDistinct] using checked
    rw [same] at clean
    simp at clean
  | _ => trivial

-- Two processes end in the same millisecond, and one of them a second time.
def threeEnds : List DirectoryAct :=
  [.start ⟨.Json,0⟩,.start ⟨.Json,7⟩,.open_ 0 5 "exit",.open_ 1 5 "exit",.look 0,.look 1,.create 1,.create 0,
    .open_ 1 5 "exit",.look 1,.look 1,.create 1]

theorem dumps_never_overwrite_thrice : ∃ d : DumpDirectory,
    d.created = ["5-exit.7.json","5-exit.json","5-exit-2.7.json"] ∧ d.lost = [] := by
  have ran : (Machine.checkedRun step testsDistinct (initial []) threeEnds).map (·.created) =
      some ["5-exit.7.json","5-exit.json","5-exit-2.7.json"] := by
    decide +kernel
  obtain ⟨d,run,created⟩ := Option.map_eq_some_iff.mp ran
  exact ⟨d,created,(dumps_never_overwrite [] (Machine.runs_of_checked testsDistinct_meets run)).1⟩

end DumpDirectory

end Trace0
