import Trace0.Intern

namespace Trace0

namespace Interner

variable {i i' : Interner} {info : CodeInfo} {key floor : UInt64} {id : UInt32}

theorem insert_covers (sound : i.Sound) (absent : i.map key = none)
    (inserted : i.insert info key floor = (some id,i')) :
    (∀ x ∈ i.free, x.1 ≠ id → x ∈ i'.free) ∧
      ∀ other : UInt32, other.toNat < i'.info.length → other = id ∨ other.toNat < i.info.length := by
  unfold insert at inserted
  rw [absent] at inserted
  dsimp only at inserted
  split at inserted
  · cases inserted
    refine ⟨fun x waits _ => waits,?_⟩
    intro other inside
    rw [List.length_append,List.length_singleton] at inside
    have narrow := sound.narrow
    have bounded := sound.bounded
    have wide : codeIdMax.toNat+1 < 2^32 := by decide
    by_cases last : other.toNat = i.info.length
    · left
      rw [← last,UInt32.ofNat_toNat]
    · exact .inr (by omega)
  · split at inserted
    · cases inserted
    · split at inserted
      · cases inserted
      · rename_i here
        cases inserted
        constructor
        · intro x waits other
          rcases List.mem_cons.mp ((swapRemove_perm here).mem_iff.mp waits) with taken | left
          · exact absurd (congrArg Prod.fst taken) other
          · exact left
        · intro other inside
          rw [List.length_set] at inside
          exact .inr inside

theorem insert_refused (sound : i.Sound) (refused : i.insert info key floor = (none,i')) :
    i' = i ∧ i.map key = none ∧ i.info.length = i.capacity.toNat ∧ ∀ x ∈ i.free, floor ≤ x.2 := by
  have same := insert_none refused
  unfold insert at refused
  split at refused
  · cases refused
  · rename_i absent
    split at refused
    · cases refused
    · rename_i full
      have bounded := sound.bounded
      have narrow := sound.narrow
      have wide : codeIdMax.toNat+1 < 2^32 := by decide
      have length : i.info.length = i.capacity.toNat := by
        rw [UInt32.lt_iff_toNat_lt,UInt32.toNat_ofNat_of_lt' (by rw [UInt32.size]; omega)] at full
        omega
      refine ⟨same,absent,length,?_⟩
      split at refused
      · rename_i found
        intro x waits
        have late := List.findIdx?_eq_none_iff.mp found x waits
        exact UInt64.not_lt.mp (of_decide_eq_false late)
      · rename_i slot found
        have below := (List.findIdx?_eq_some_iff_getElem.mp found).1
        rw [List.getElem?_eq_getElem below] at refused
        cases refused

end Interner

inductive InternOp where
  | insert (info : CodeInfo) (key : UInt64) (recycleFloor : UInt64)
  | lookup (key : UInt64)
  | forget (key : UInt64) (freedAtTicks : UInt64)

-- What a call did to the ids: recorded beside the interner, read by no call.
inductive IdEvent where
  | given (key : UInt64) (id : UInt32) (info : CodeInfo)
  | freed (id : UInt32) (ticks : UInt64)
  deriving DecidableEq

def IdEvent.id : IdEvent → UInt32
  | given _ id _ => id
  | freed id _ => id

structure InternRun where
  interner : Interner
  log : List IdEvent

namespace InternRun

def step (s : InternRun) : InternOp → InternRun
  | .insert info key floor =>
    let (result,interner) := s.interner.insert info key floor
    match s.interner.lookup key,result with
    | none,some id => ⟨interner,s.log ++ [.given key id info]⟩
    | _,_ => ⟨interner,s.log⟩
  | .lookup _ => s
  | .forget key freedAt =>
    let (_,interner) := s.interner.forget key freedAt
    match s.interner.lookup key with
    | some id => ⟨interner,s.log ++ [.freed id freedAt]⟩
    | none => ⟨interner,s.log⟩

def after (capacity : UInt32) (ops : List InternOp) : InternRun := ops.foldl step ⟨.new (some capacity),[]⟩

def lastOf (s : InternRun) (id : UInt32) : Option IdEvent := (s.log.filter (·.id = id)).getLast?

def givenTo (key : UInt64) : IdEvent → Option (UInt32 × CodeInfo)
  | .given k id info => if k = key then some (id,info) else none
  | .freed _ _ => none

def lastGiven (s : InternRun) (key : UInt64) : Option (UInt32 × CodeInfo) := (s.log.filterMap (givenTo key)).getLast?

theorem lastOf_snoc (interner : Interner) (log : List IdEvent) (e : IdEvent) (id : UInt32) :
    lastOf ⟨interner,log ++ [e]⟩ id = if e.id = id then some e else lastOf ⟨interner,log⟩ id := by
  unfold lastOf
  by_cases same : e.id = id <;> simp [same]

theorem lastGiven_snoc (interner : Interner) (log : List IdEvent) (e : IdEvent) (key : UInt64) :
    lastGiven ⟨interner,log ++ [e]⟩ key = (givenTo key e).or (lastGiven ⟨interner,log⟩ key) := by
  unfold lastGiven
  cases found : givenTo key e <;> simp [found]

-- The ids handed out are those in use and those that wait, and the log says of each which it is.
structure Keeps (s : InternRun) : Prop where
  sound : s.interner.Sound
  covers : ∀ id : UInt32, id.toNat < s.interner.info.length →
    (∃ key, s.interner.map key = some id) ∨ id ∈ s.interner.free.map (·.1)
  named : ∀ key id, s.interner.map key = some id →
    ∃ info, s.lastGiven key = some (id,info) ∧ s.interner.code id = some info
  used : ∀ key id, s.interner.map key = some id → ∃ info, s.lastOf id = some (.given key id info)
  waits : ∀ x ∈ s.interner.free, s.lastOf x.1 = some (.freed x.1 x.2)
  unused : ∀ id : UInt32, s.interner.info.length ≤ id.toNat → s.lastOf id = none

variable {s : InternRun}

theorem keeps_given {info : CodeInfo} {key floor : UInt64} {id : UInt32} {i' : Interner} (keeps : s.Keeps)
    (absent : s.interner.map key = none) (inserted : s.interner.insert info key floor = (some id,i')) :
    Keeps ⟨i',s.log ++ [.given key id info]⟩ := by
  obtain ⟨interner,log⟩ := s
  obtain ⟨kept,grown⟩ := Interner.insert_covers keeps.sound absent inserted
  have assigns : interner.Assigns i' info key id := by
    rcases Interner.insert_cases keeps.sound inserted with ⟨known,_⟩ | ⟨_,assigns,_⟩
    · rw [absent] at known
      cases known
    · exact assigns
  have elsewhere (key' : UInt64) (id' : UInt32) (there : i'.map key' = some id') :
      (key' = key ∧ id' = id) ∨ (key' ≠ key ∧ id' ≠ id ∧ interner.map key' = some id') := by
    rw [assigns.map] at there
    by_cases same : key' = key
    · subst key'
      rw [Function.update_self] at there
      exact .inl ⟨rfl,(Option.some.inj there).symm⟩
    · rw [Function.update_of_ne same] at there
      refine .inr ⟨same,?_,there⟩
      rintro rfl
      exact assigns.unmapped key' there
  refine ⟨Interner.assigns_sound keeps.sound absent assigns,?_,?_,?_,?_,?_⟩
  · intro other inside
    by_cases same : other = id
    · exact .inl ⟨key,by rw [same,assigns.map,Function.update_self]⟩
    · rcases keeps.covers other ((grown other inside).resolve_left same) with ⟨key',there⟩ | waits
      · left
        refine ⟨key',?_⟩
        rw [assigns.map,Function.update_of_ne]
        · exact there
        · rintro rfl
          rw [absent] at there
          cases there
      · obtain ⟨x,before,rfl⟩ := List.mem_map.mp waits
        exact .inr (List.mem_map_of_mem (f := (·.1)) (kept x before same))
  · intro key' id' there
    rw [lastGiven_snoc]
    rcases elsewhere key' id' there with ⟨rfl,rfl⟩ | ⟨other,apart,before⟩
    · exact ⟨info,by simp [givenTo],assigns.code⟩
    · obtain ⟨old,given,read⟩ := keeps.named key' id' before
      refine ⟨old,?_,(assigns.others id' apart).trans read⟩
      rw [givenTo,if_neg other.symm]
      exact given
  · intro key' id' there
    rw [lastOf_snoc]
    rcases elsewhere key' id' there with ⟨rfl,rfl⟩ | ⟨_,apart,before⟩
    · exact ⟨info,if_pos rfl⟩
    · obtain ⟨old,given⟩ := keeps.used key' id' before
      exact ⟨old,by rw [if_neg (by exact apart.symm)]; exact given⟩
  · intro x waits
    obtain ⟨before,apart⟩ := assigns.free x waits
    rw [lastOf_snoc,if_neg (by exact apart.symm)]
    exact keeps.waits x before
  · intro other outside
    obtain ⟨longer,inside⟩ := assigns.grows
    dsimp only at outside longer inside
    rw [lastOf_snoc,if_neg]
    · exact keeps.unused other (longer.trans outside)
    · rintro same
      dsimp only [IdEvent.id] at same
      rw [same] at inside
      omega

theorem keeps_freed {key freedAt : UInt64} {id : UInt32} (keeps : s.Keeps) (there : s.interner.map key = some id) :
    Keeps ⟨(s.interner.forget key freedAt).2,s.log ++ [.freed id freedAt]⟩ := by
  obtain ⟨interner,log⟩ := s
  have sound := keeps.sound
  have gone : (interner.forget key freedAt).2 =
      {interner with map := Function.update interner.map key none,free := interner.free ++ [(id,freedAt)]} := by
    unfold Interner.forget
    rw [there]
  have apart (key' : UInt64) (id' : UInt32) (still : (interner.forget key freedAt).2.map key' = some id') :
      id' ≠ id ∧ interner.map key' = some id' := by
    obtain ⟨other,before⟩ := Interner.forget_map still
    refine ⟨?_,before⟩
    rintro rfl
    exact other (sound.single key' key id' before there)
  refine ⟨Interner.forget_sound sound key freedAt,?_,?_,?_,?_,?_⟩
  · intro other inside
    rw [gone] at inside ⊢
    dsimp only at inside ⊢
    rw [List.map_append,List.mem_append]
    rcases keeps.covers other inside with ⟨key',before⟩ | waits
    · by_cases same : key' = key
      · subst key'
        rw [show interner.map key = some id from there] at before
        cases before
        exact .inr (.inr (by simp))
      · exact .inl ⟨key',by rw [Function.update_of_ne same]; exact before⟩
    · exact .inr (.inl waits)
  · intro key' id' still
    obtain ⟨_,before⟩ := apart key' id' still
    rw [lastGiven_snoc,Interner.forget_code]
    exact keeps.named key' id' before
  · intro key' id' still
    obtain ⟨other,before⟩ := apart key' id' still
    rw [lastOf_snoc,if_neg (by exact other.symm)]
    exact keeps.used key' id' before
  · intro x waits
    rw [gone] at waits
    rw [lastOf_snoc]
    rcases List.mem_append.mp waits with before | now
    · rw [if_neg]
      · exact keeps.waits x before
      · exact fun same => (sound.freed x before).2 key (by rw [← same]; exact there)
    · rw [List.mem_singleton.mp now]
      exact if_pos rfl
  · intro other outside
    rw [gone] at outside
    have inside := sound.assigned key id there
    dsimp only at outside inside
    rw [lastOf_snoc,if_neg]
    · exact keeps.unused other outside
    · rintro same
      dsimp only [IdEvent.id] at same
      rw [same] at inside
      omega

theorem keeps_step (keeps : s.Keeps) (op : InternOp) : (s.step op).Keeps := by
  cases op with
  | insert info key floor =>
    cases inserted : s.interner.insert info key floor with
    | mk result i' =>
      unfold step
      dsimp only
      rw [inserted]
      cases known : s.interner.lookup key with
      | some id =>
        have same : i' = s.interner := by
          unfold Interner.lookup at known
          unfold Interner.insert at inserted
          rw [known] at inserted
          cases inserted
          rfl
        exact same ▸ keeps
      | none =>
        cases result with
        | none => exact Interner.insert_none inserted ▸ keeps
        | some id => exact keeps_given keeps known inserted
  | lookup => exact keeps
  | forget key freedAt =>
    unfold step
    dsimp only
    cases known : s.interner.lookup key with
    | some id => exact keeps_freed keeps known
    | none =>
      have same : (s.interner.forget key freedAt).2 = s.interner := by
        unfold Interner.lookup at known
        unfold Interner.forget
        rw [known]
      rw [same]
      exact keeps

@[simp] theorem step_capacity (s : InternRun) (op : InternOp) : (s.step op).interner.capacity = s.interner.capacity := by
  cases op with
  | insert info key floor =>
    unfold step Interner.insert
    dsimp only
    repeat' split
    all_goals grind
  | lookup => rfl
  | forget key freedAt =>
    unfold step Interner.forget
    dsimp only
    repeat' split
    all_goals grind

theorem after_keeps (capacity : UInt32) (ops : List InternOp) :
    (after capacity ops).Keeps ∧ (after capacity ops).interner.capacity = (Interner.new (some capacity)).capacity := by
  induction ops using List.reverseRecOn with
  | nil =>
    refine ⟨⟨Interner.new_sound _,?_,?_,?_,?_,fun _ _ => rfl⟩,rfl⟩
    all_goals simp [after,Interner.new]
  | append_singleton ops op ih =>
    unfold after at ih ⊢
    rw [List.foldl_concat]
    exact ⟨keeps_step ih.1 op,(step_capacity _ op).trans ih.2⟩

end InternRun

theorem interner_ids (capacity : UInt32) (least : 1 ≤ capacity) (most : capacity ≤ codeIdMax+1) (ops : List InternOp) :
    let run := InternRun.after capacity ops
    let i := run.interner
    (∀ key key' id, i.lookup key = some id → i.lookup key' = some id → key = key') ∧
      (i.free.map (·.1)).Nodup ∧
      (∀ id : UInt32, id.toNat < i.info.length ↔ (∃ key, i.lookup key = some id) ∨ id ∈ i.free.map (·.1)) ∧
      (∀ id, (∃ key, i.lookup key = some id) → id ∉ i.free.map (·.1)) ∧
      i.info.length ≤ capacity.toNat ∧
      (∀ key id, i.lookup key = some id →
        ∃ info, run.lastGiven key = some (id,info) ∧ i.code id = some info) ∧
      (∀ info key floor id i', i.lookup key = none → i.insert info key floor = (some id,i') →
        run.lastOf id = none ∨ ∃ ticks, run.lastOf id = some (.freed id ticks) ∧ ticks < floor) ∧
      (∀ info key floor i', i.insert info key floor = (none,i') →
        i' = i ∧ i.info.length = capacity.toNat ∧
          ∀ id : UInt32, id.toNat < capacity.toNat →
            run.lastOf id ≠ none ∧ ∀ ticks, run.lastOf id = some (.freed id ticks) → ¬ticks < floor) ∧
      ∀ info key floor id kind, i.lookup key = some id ∨ (i.insert info key floor).1 = some id →
        codeIdOf (packCodeKind id kind) = id := by
  intro run i
  obtain ⟨keeps,same⟩ : run.Keeps ∧ i.capacity = (Interner.new (some capacity)).capacity :=
    InternRun.after_keeps capacity ops
  have sound : i.Sound := keeps.sound
  have size : i.capacity = capacity := by
    rw [same]
    unfold Interner.new Interner.clamp
    dsimp only [Option.map_some,Option.getD_some]
    rw [if_neg (UInt32.not_lt.mpr least),if_neg (UInt32.not_lt.mpr most)]
  refine ⟨sound.single,sound.distinct,?_,?_,size ▸ sound.bounded,keeps.named,?_,?_,?_⟩
  · intro id
    constructor
    · exact keeps.covers id
    · rintro (⟨key,there⟩ | waits)
      · exact sound.assigned key id there
      · obtain ⟨x,inside,rfl⟩ := List.mem_map.mp waits
        exact (sound.freed x inside).1
  · rintro id ⟨key,there⟩ waits
    obtain ⟨x,inside,rfl⟩ := List.mem_map.mp waits
    exact (sound.freed x inside).2 key there
  · intro info key floor id i' absent inserted
    rcases Interner.insert_cases sound inserted with ⟨known,_⟩ | ⟨_,_,fresh | ⟨ticks,waits,early⟩⟩
    · have contradiction : (none : Option UInt32) = some id := absent.symm.trans known
      cases contradiction
    · exact .inl (keeps.unused id (List.getElem?_eq_none_iff.mp fresh))
    · exact .inr ⟨ticks,keeps.waits _ waits,early⟩
  · intro info key floor i' refused
    obtain ⟨rest,_,full,late⟩ := Interner.insert_refused sound refused
    rw [size] at full
    refine ⟨rest,full,?_⟩
    intro id below
    rcases keeps.covers id (by rw [full]; exact below) with ⟨key',there⟩ | waits
    · obtain ⟨old,given⟩ := keeps.used key' id there
      rw [given]
      exact ⟨by simp,by simp⟩
    · obtain ⟨x,inside,rfl⟩ := List.mem_map.mp waits
      rw [keeps.waits x inside]
      refine ⟨by simp,?_⟩
      intro ticks freed early
      have ticks_eq : x.2 = ticks := by simpa using freed
      exact UInt64.not_lt.mpr (late x inside) (ticks_eq ▸ early)
  · rintro info key floor id kind (there | returned)
    · exact Interner.mapped_code sound there kind
    · cases inserted : i.insert info key floor with
      | mk result i' =>
        rw [inserted] at returned
        cases returned
        rcases Interner.insert_cases sound inserted with ⟨known,_⟩ | ⟨absent,assigns,_⟩
        · exact Interner.mapped_code sound known kind
        · have after := Interner.assigns_sound sound absent assigns
          exact Interner.mapped_code after (by rw [assigns.map,Function.update_self]) kind

theorem interner_ids_recycled :
    let run := InternRun.after 1 [.insert ⟨"f","a.py",1⟩ 16 0,.forget 16 5]
    (run.interner.insert ⟨"g","b.py",2⟩ 32 6).1 = some 0 ∧
      (run.lastOf 0 = none ∨ ∃ ticks, run.lastOf 0 = some (.freed 0 ticks) ∧ ticks < 6) ∧
      run.interner.info.length ≤ 1 := by
  obtain ⟨_,_,_,_,bounded,_,given,_,_⟩ :=
    interner_ids 1 (by decide) (by decide) [.insert ⟨"f","a.py",1⟩ 16 0,.forget 16 5]
  exact ⟨rfl,given ⟨"g","b.py",2⟩ 32 6 0 _ rfl rfl,bounded⟩

end Trace0
