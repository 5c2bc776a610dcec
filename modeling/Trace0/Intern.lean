import Trace0.Event

namespace Trace0

structure CodeInfo where
  qualname : String
  filename : String
  firstlineno : UInt32
  deriving DecidableEq, Repr

def swapRemove (items : List α) (slot : Nat) : List α :=
  match items.getLast? with
  | none => items
  | some last => (items.set slot last).dropLast

structure Interner where
  map : UInt64 → Option UInt32
  info : List CodeInfo
  free : List (UInt32 × UInt64)
  capacity : UInt32

namespace Interner

def clamp (v low high : UInt32) : UInt32 := if v < low then low else if high < v then high else v

-- `requested` is the number read from the environment, where there is one.
def new (requested : Option UInt32) : Interner :=
  ⟨fun _ => none,[],[],(requested.map (clamp · 1 (codeIdMax+1))).getD (codeIdMax+1)⟩

def lookup (i : Interner) (key : UInt64) : Option UInt32 := i.map key

def code (i : Interner) (id : UInt32) : Option CodeInfo := i.info[id.toNat]?

def forget (i : Interner) (key : UInt64) (freedAtTicks : UInt64) : Bool × Interner :=
  match i.map key with
  | some id => (true,{i with
      map := Function.update i.map key none
      free := i.free ++ [(id,freedAtTicks)]})
  | none => (false,i)

def insert (i : Interner) (info : CodeInfo) (key : UInt64) (recycleFloor : UInt64) :
    Option UInt32 × Interner :=
  match i.map key with
  | some id => (some id,i)
  | none =>
    if .ofNat i.info.length < i.capacity then
      let id : UInt32 := .ofNat i.info.length
      (some id,{i with map := Function.update i.map key (some id),info := i.info ++ [info]})
    else
      match i.free.findIdx? fun slot => slot.2 < recycleFloor with
      | none => (none,i)
      | some slot =>
        match i.free[slot]? with
        | none => (none,i)
        | some (id,_) => (some id,{i with
            map := Function.update i.map key (some id)
            info := i.info.set id.toNat info
            free := swapRemove i.free slot})

-- Every id is in use by one address, waits to be recycled, or was never handed out.
structure Sound (i : Interner) : Prop where
  assigned : ∀ key id, i.map key = some id → id.toNat < i.info.length
  single : ∀ key key' id, i.map key = some id → i.map key' = some id → key = key'
  freed : ∀ x ∈ i.free, x.1.toNat < i.info.length ∧ ∀ key, i.map key ≠ some x.1
  distinct : (i.free.map (·.1)).Nodup
  bounded : i.info.length ≤ i.capacity.toNat
  narrow : i.capacity.toNat ≤ codeIdMax.toNat+1

structure Assigns (i i' : Interner) (info : CodeInfo) (key : UInt64) (id : UInt32) : Prop where
  unmapped : ∀ key', i.map key' ≠ some id
  map : i'.map = Function.update i.map key (some id)
  code : i'.code id = some info
  others : ∀ other, other ≠ id → i'.code other = i.code other
  free : ∀ x ∈ i'.free, x ∈ i.free ∧ x.1 ≠ id
  distinct : (i'.free.map (·.1)).Nodup
  grows : i.info.length ≤ i'.info.length ∧ id.toNat < i'.info.length
  capacity : i'.info.length ≤ i'.capacity.toNat ∧ i'.capacity = i.capacity

end Interner

theorem swapRemove_perm {items : List α} {slot : Nat} {x : α} (here : items[slot]? = some x) :
    items.Perm (x :: swapRemove items slot) := by
  cases items using List.reverseRecOn with
  | nil => simp at here
  | append_singleton front last _ =>
    have last? : (front ++ [last]).getLast? = some last := List.getLast?_concat
    unfold swapRemove
    rw [last?]
    dsimp only
    by_cases inside : slot < front.length
    · rw [List.getElem?_append_left inside,List.getElem?_eq_getElem inside,Option.some.injEq] at here
      rw [List.set_append_left _ _ inside,List.dropLast_concat,List.set_eq_take_append_cons_drop,if_pos inside]
      have split : front = front.take slot ++ x :: front.drop (slot+1) := by
        rw [← here,List.getElem_cons_drop,List.take_append_drop]
      have moved : (front.take slot ++ x :: front.drop (slot+1) ++ [last]).Perm
          (x :: (front.take slot ++ last :: front.drop (slot+1))) := by
        rw [List.append_assoc,List.cons_append]
        apply List.perm_middle.trans
        apply List.Perm.cons
        apply List.Perm.append_left
        exact List.perm_append_singleton last _
      rw [← split] at moved
      exact moved
    · have place : slot = front.length := by
        have bound := (List.getElem?_eq_some_iff.mp here).1
        rw [List.length_append,List.length_singleton] at bound
        omega
      subst place
      simp only [List.getElem?_concat_length,Option.some.injEq] at here
      subst here
      have same : (front ++ [last]).set front.length last = front ++ [last] := by
        rw [List.set_append_right _ _ (Nat.le_refl _)]
        simp
      rw [same,List.dropLast_concat]
      exact List.perm_append_singleton last front

namespace Interner

variable {i i' : Interner} {info : CodeInfo} {key floor : UInt64} {id : UInt32}

theorem insert_cases (sound : i.Sound) (inserted : i.insert info key floor = (some id,i')) :
    (i.map key = some id ∧ i' = i) ∨
      (i.map key = none ∧ i.Assigns i' info key id ∧
        (i.code id = none ∨ ∃ freedAt, (id,freedAt) ∈ i.free ∧ freedAt < floor)) := by
  unfold insert at inserted
  split at inserted
  · rename_i known
    cases inserted
    exact .inl ⟨known,rfl⟩
  · rename_i absent
    have narrow := sound.narrow
    have bounded := sound.bounded
    have wide : codeIdMax.toNat + 1 < 2^32 := by decide
    split at inserted
    · rename_i room
      cases inserted
      have exact_ : (UInt32.ofNat i.info.length).toNat = i.info.length := by
        rw [UInt32.toNat_ofNat_of_lt']
        exact Nat.lt_of_le_of_lt (bounded.trans narrow) wide
      have below : i.info.length < i.capacity.toNat := by
        have less := UInt32.lt_iff_toNat_lt.mp room
        rwa [exact_] at less
      have unfreed : ∀ x ∈ i.free, x.1 ≠ .ofNat i.info.length := by
        intro x waits same
        have inside := (sound.freed x waits).1
        rw [same,exact_] at inside
        exact Nat.lt_irrefl _ inside
      refine .inr ⟨absent,⟨?_,rfl,?_,?_,fun x waits => ⟨waits,unfreed x waits⟩,sound.distinct,?_,?_,rfl⟩,?_⟩
      · intro key' there
        have inside := sound.assigned key' _ there
        rw [exact_] at inside
        exact Nat.lt_irrefl _ inside
      · simp [code,exact_]
      · intro other differs
        have place : other.toNat ≠ i.info.length := fun same =>
          differs (UInt32.toNat_inj.mp (same.trans exact_.symm))
        unfold code
        rw [List.getElem?_append]
        split
        · rfl
        · rw [List.getElem?_eq_none (by rw [List.length_singleton]; omega),List.getElem?_eq_none (by omega)]
      · rw [exact_,List.length_append,List.length_singleton]
        omega
      · rw [List.length_append,List.length_singleton]
        exact below
      · left
        unfold code
        rw [exact_]
        exact List.getElem?_eq_none (Nat.le_refl _)
    · split at inserted
      · cases inserted
      · rename_i slot found
        split at inserted
        · cases inserted
        · rename_i old freedAt here
          cases inserted
          have perm := swapRemove_perm here
          have waits : (id,freedAt) ∈ i.free := List.mem_of_getElem? here
          obtain ⟨inside,unmapped⟩ := sound.freed _ waits
          have whole := (perm.map (·.1)).nodup_iff.mp sound.distinct
          obtain ⟨taken,distinct⟩ := List.nodup_cons.mp whole
          refine .inr ⟨absent,⟨unmapped,rfl,?_,?_,?_,distinct,?_,?_,rfl⟩,?_⟩
          · unfold code
            exact List.getElem?_set_self inside
          · intro other differs
            unfold code
            apply List.getElem?_set_ne
            intro same
            exact differs (UInt32.toNat_inj.mp same.symm)
          · intro x left
            refine ⟨perm.mem_iff.mpr (List.mem_cons_of_mem _ left),?_⟩
            rintro rfl
            exact taken (List.mem_map_of_mem (f := (·.1)) left)
          · rw [List.length_set]
            exact ⟨Nat.le_refl _,inside⟩
          · rw [List.length_set]
            exact bounded
          · obtain ⟨below,met,_⟩ := List.findIdx?_eq_some_iff_getElem.mp found
            rw [(List.getElem?_eq_some_iff.mp here).2,decide_eq_true_eq] at met
            exact .inr ⟨freedAt,waits,met⟩

theorem insert_none (refused : i.insert info key floor = (none,i')) : i' = i := by
  unfold insert at refused
  split at refused
  · cases refused
  · split at refused
    · cases refused
    · split at refused
      · cases refused
        rfl
      · split at refused
        · cases refused
          rfl
        · cases refused

theorem assigns_sound (sound : i.Sound) (absent : i.map key = none) (assigns : i.Assigns i' info key id) :
    i'.Sound := by
  obtain ⟨longer,inside⟩ := assigns.grows
  obtain ⟨fits,capacity⟩ := assigns.capacity
  have keys (key' : UInt64) (id' : UInt32) (there : i'.map key' = some id') :
      key' = key ∧ id' = id ∨ key' ≠ key ∧ i.map key' = some id' := by
    rw [assigns.map] at there
    by_cases same : key' = key
    · subst key'
      rw [Function.update_self] at there
      exact .inl ⟨rfl,(Option.some.inj there).symm⟩
    · rw [Function.update_of_ne same] at there
      exact .inr ⟨same,there⟩
  refine ⟨?_,?_,?_,assigns.distinct,fits,capacity ▸ sound.narrow⟩
  · intro key' id' there
    rcases keys key' id' there with ⟨_,rfl⟩ | ⟨_,before⟩
    · exact inside
    · exact Nat.lt_of_lt_of_le (sound.assigned key' id' before) longer
  · intro left right id' first second
    rcases keys left id' first with ⟨rfl,rfl⟩ | ⟨_,before⟩
    · rcases keys right _ second with ⟨rfl,_⟩ | ⟨_,earlier⟩
      · rfl
      · exact absurd earlier (assigns.unmapped right)
    · rcases keys right id' second with ⟨rfl,rfl⟩ | ⟨_,earlier⟩
      · exact absurd before (assigns.unmapped left)
      · exact sound.single left right id' before earlier
  · intro x waits
    obtain ⟨before,other⟩ := assigns.free x waits
    obtain ⟨below,unmapped⟩ := sound.freed x before
    refine ⟨Nat.lt_of_lt_of_le below longer,?_⟩
    intro key' there
    rcases keys key' x.1 there with ⟨_,same⟩ | ⟨_,mapped⟩
    · exact other same
    · exact unmapped key' mapped

theorem forget_sound (sound : i.Sound) (key freedAt : UInt64) : (i.forget key freedAt).2.Sound := by
  unfold forget
  split
  · rename_i id there
    have mapped (key' : UInt64) (id' : UInt32)
        (still : Function.update i.map key none key' = some id') : key' ≠ key ∧ i.map key' = some id' := by
      by_cases same : key' = key
      · subst key'
        rw [Function.update_self] at still
        cases still
      · rw [Function.update_of_ne same] at still
        exact ⟨same,still⟩
    refine ⟨?_,?_,?_,?_,sound.bounded,sound.narrow⟩
    · intro key' id' still
      exact sound.assigned key' id' (mapped key' id' still).2
    · intro left right id' first second
      exact sound.single left right id' (mapped left id' first).2 (mapped right id' second).2
    · intro x waits
      rcases List.mem_append.mp waits with before | now
      · obtain ⟨inside,unmapped⟩ := sound.freed x before
        exact ⟨inside,fun key' still => unmapped key' (mapped key' x.1 still).2⟩
      · rw [List.mem_singleton.mp now]
        refine ⟨sound.assigned key id there,?_⟩
        intro key' still
        obtain ⟨differs,before⟩ := mapped key' id still
        exact differs (sound.single key' key id before there)
    · rw [List.map_append,List.nodup_append]
      refine ⟨sound.distinct,List.nodup_singleton _,?_⟩
      intro old waits new now same
      obtain ⟨x,inside,rfl⟩ := List.mem_map.mp waits
      rw [List.map_singleton,List.mem_singleton] at now
      exact (sound.freed x inside).2 key (by rw [same,now]; exact there)
  · exact sound

theorem new_sound (requested : Option UInt32) : (new requested).Sound := by
  refine ⟨by simp [new],by simp [new],by simp [new],List.nodup_nil,Nat.zero_le _,?_⟩
  cases requested with
  | none => decide
  | some v =>
    simp only [new,Option.map_some,Option.getD_some,clamp]
    split
    · decide
    · split
      · decide
      · rename_i inside
        exact UInt32.le_iff_toNat_le.mp (UInt32.not_lt.mp inside)

theorem insert_sound (sound : i.Sound) : (i.insert info key floor).2.Sound := by
  cases inserted : i.insert info key floor with
  | mk result i' =>
    cases result with
    | none => exact insert_none inserted ▸ sound
    | some id =>
      rcases insert_cases sound inserted with ⟨_,rfl⟩ | ⟨absent,assigns,_⟩
      · exact sound
      · exact assigns_sound sound absent assigns

theorem insert_kept (sound : i.Sound) {key' : UInt64} (there : i.map key' = some id) :
    (i.insert info key floor).2.map key' = some id := by
  cases inserted : i.insert info key floor with
  | mk result i' =>
    cases result with
    | none => exact insert_none inserted ▸ there
    | some new =>
      rcases insert_cases sound inserted with ⟨_,rfl⟩ | ⟨absent,assigns,_⟩
      · exact there
      · have other : key' ≠ key := by
          rintro rfl
          rw [absent] at there
          cases there
        simp only [assigns.map,Function.update_of_ne other]
        exact there

theorem mapped_code (sound : i.Sound) (there : i.map key = some id) (kind : EventKind) :
    codeIdOf (packCodeKind id kind) = id := by
  have inside := sound.assigned key id there
  have bounded := sound.bounded
  have narrow := sound.narrow
  rw [codeIdOf_pack]
  apply mask_of_le
  rw [UInt32.le_iff_toNat_le]
  omega

theorem insert_free (sound : i.Sound) :
    ∀ x ∈ (i.insert info key floor).2.free, x ∈ i.free := by
  intro x waits
  cases inserted : i.insert info key floor with
  | mk result i' =>
    rw [inserted] at waits
    cases result with
    | none => exact insert_none inserted ▸ waits
    | some id =>
      rcases insert_cases sound inserted with ⟨_,rfl⟩ | ⟨_,assigns,_⟩
      · exact waits
      · exact (assigns.free x waits).1

theorem forget_map {freedAt key' : UInt64}
    (there : (i.forget key freedAt).2.map key' = some id) : key' ≠ key ∧ i.map key' = some id := by
  unfold forget at there
  split at there
  · by_cases same : key' = key
    · subst key'
      simp at there
    · dsimp only at there
      rw [Function.update_of_ne same] at there
      exact ⟨same,there⟩
  · rename_i absent
    refine ⟨?_,there⟩
    rintro rfl
    rw [absent] at there
    cases there

theorem forget_free {freedAt : UInt64} :
    ∀ x ∈ (i.forget key freedAt).2.free, x ∈ i.free ∨ x.2 = freedAt := by
  intro x waits
  unfold forget at waits
  split at waits
  · rcases List.mem_append.mp waits with before | now
    · exact .inl before
    · rw [List.mem_singleton.mp now]
      exact .inr rfl
  · exact .inl waits

@[simp] theorem forget_code (i : Interner) (key freedAt : UInt64) (id : UInt32) :
    (i.forget key freedAt).2.code id = i.code id := by
  unfold forget
  split <;> rfl

theorem forget_other {freedAt key' : UInt64} (there : i.map key' = some id) (other : key' ≠ key) :
    (i.forget key freedAt).2.map key' = some id := by
  unfold forget
  split
  · dsimp only
    rw [Function.update_of_ne other]
    exact there
  · exact there

end Interner

end Trace0
