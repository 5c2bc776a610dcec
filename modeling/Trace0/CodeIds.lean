import Trace0.Lib.Machine
import Trace0.Resolving

namespace Trace0

variable {T : Type}

def Resolve.cached (stage : Resolve) (queueId : Nat) : Nat :=
  match stage with
  | .loaded call | .missed call | .unknown call | .resolved call _ => call.run
  | _ => queueId

def Resolve.midway : Resolve → Bool
  | .loaded _ | .missed _ | .unknown _ => true
  | _ => false

-- The interner has this id for the address, or lost it to a destruction that will pass the
-- generation on.
def Holds (s : Resolving T) (run : Nat) (key : UInt64) (id : UInt32) : Prop :=
  (s.interners run).map key = some id ∨ ∃ todo, s.addresses key = .dying todo true

structure Calling (s : Resolving T) (call : RecordCall) : Prop where
  run : call.run < s.next
  alive : ∃ info, s.addresses call.key = .alive info

-- Caches of another run are emptied before `resolve_cold` uses them.
def Emptied (h : Caches) (call : RecordCall) : Prop :=
  h.queueId ≠ call.run → (∀ key, h.codes.get key = none) ∧ h.lastCodeKey = notCached

def CallResolves (s : Resolving T) (h : Caches) : Resolve → Prop
  | .outside => True
  | .entered call | .cold call => Calling s call
  | .missed call | .unknown call => Calling s call ∧ Emptied h call
  | .loaded call => Calling s call ∧ Emptied h call ∧ ∀ id, h.codes.get call.key = some id →
      (s.interners call.run).map call.key = some id
  | .resolved call id => Calling s call ∧ (s.interners call.run).map call.key = some id

-- Under the present generation a thread's caches agree with the interner of their run, apart
-- from `last_code_key` while `resolve_cold` is under way.
structure Agrees (s : Resolving T) (h : Caches) (stage : Resolve) : Prop where
  older : h.codeGen ≤ s.generation
  seated : h.queueId < s.next
  codes : h.codeGen = s.generation → ∀ key id, h.codes.get key = some id →
    Holds s (stage.cached h.queueId) key id
  last : stage.midway = false → h.codeGen = s.generation → h.lastCodeKey ≠ notCached →
    Holds s (stage.cached h.queueId) h.lastCodeKey h.lastCodeId
  call : CallResolves s h stage

structure Coherent (s : Resolving T) : Prop where
  sound : ∀ run, (s.interners run).Sound
  runs : ∀ run ∈ s.watched, run < s.next
  aligned : s.addresses notCached = .vacant
  threads : ∀ t, Agrees s (s.caches t) (s.stages t)
  pushed : ∀ p ∈ s.pushed, p.2.2 = some p.2.1

-- Where an insert is refused, the thread's `last_code_key` is not set, or its interner still
-- has `last_code_id` for it.
def Refused (s : Resolving T) : ResolveAct T → Prop
  | .insert t recycleFloor => ∀ call info, s.stages t = .unknown call →
      ((s.interners call.run).insert info call.key recycleFloor).1 = none →
        (s.caches t).lastCodeKey = notCached ∨
          (s.interners call.run).lookup (s.caches t).lastCodeKey = some (s.caches t).lastCodeId
  | _ => True

variable {s s' : Resolving T} {t : T} {h : Caches} {stage : Resolve}

structure Carries (s s' : Resolving T) : Prop where
  generation : s.generation ≤ s'.generation
  next : s.next ≤ s'.next
  holds : s'.generation = s.generation → ∀ run key id, run < s.next → Holds s run key id → Holds s' run key id

theorem Agrees.run (agrees : Agrees s h stage) : stage.cached h.queueId < s.next := by
  have call := agrees.call
  cases stage with
  | loaded c => exact call.1.run
  | missed c => exact call.1.run
  | unknown c => exact call.1.run
  | resolved c id => exact call.1.run
  | _ => exact agrees.seated

theorem agrees_carried (agrees : Agrees s h stage) (carries : Carries s s')
    (calling : ∀ call, stage.call = some call → Calling s call → Calling s' call)
    (mapped : ∀ call id, stage.call = some call → Calling s call → (s.interners call.run).map call.key = some id →
      (s'.interners call.run).map call.key = some id) : Agrees s' h stage := by
  have run := agrees.run
  obtain ⟨older,seated,codes,last,resolves⟩ := agrees
  have same (current : h.codeGen = s'.generation) : s'.generation = s.generation :=
    Nat.le_antisymm (current ▸ older) carries.generation
  refine ⟨older.trans carries.generation,seated.trans_le carries.next,?_,?_,?_⟩
  · intro current key id hit
    exact carries.holds (same current) _ key id run (codes (current.trans (same current)) key id hit)
  · intro settled current cached
    exact carries.holds (same current) _ _ _ run (last settled (current.trans (same current)) cached)
  · cases stage with
    | outside => trivial
    | entered c => exact calling c rfl resolves
    | cold c => exact calling c rfl resolves
    | missed c => exact ⟨calling c rfl resolves.1,resolves.2⟩
    | unknown c => exact ⟨calling c rfl resolves.1,resolves.2⟩
    | loaded c =>
      obtain ⟨there,emptied,hits⟩ := resolves
      exact ⟨calling c rfl there,emptied,fun id hit => mapped c id rfl there (hits id hit)⟩
    | resolved c id => exact ⟨calling c rfl resolves.1,mapped c id rfl resolves.1 resolves.2⟩

theorem carries_same (generation : s'.generation = s.generation) (next : s.next ≤ s'.next)
    (interners : ∀ run, run < s.next → s'.interners run = s.interners run)
    (dying : ∀ key todo, s.addresses key = .dying todo true → ∃ todo, s'.addresses key = .dying todo true) :
    Carries s s' := by
  refine ⟨generation.ge,next,?_⟩
  rintro _ run key id begun (mapped | ⟨todo,here⟩)
  · exact .inl (by rw [interners run begun]; exact mapped)
  · exact .inr (dying key todo here)

theorem agrees_same (agrees : Agrees s h stage) (generation : s'.generation = s.generation) (next : s.next ≤ s'.next)
    (interners : ∀ run, run < s.next → s'.interners run = s.interners run)
    (dying : ∀ key todo, s.addresses key = .dying todo true → ∃ todo, s'.addresses key = .dying todo true)
    (alive : ∀ call, stage.call = some call → ∀ info, s.addresses call.key = .alive info →
      ∃ info, s'.addresses call.key = .alive info) : Agrees s' h stage := by
  apply agrees_carried agrees (carries_same generation next interners dying)
  · rintro call own ⟨run,info,here⟩
    exact ⟨run.trans_le next,alive call own info here⟩
  · intro call id _ calling mapped
    rw [interners call.run calling.run]
    exact mapped

section Shared

theorem coherent_begin (coherent : Coherent s) (capacity : Option UInt32) :
    Coherent {s.withInterner s.next (.new capacity) with watched := s.watched ++ [s.next],next := s.next+1} := by
  obtain ⟨sound,runs,aligned,threads,pushed⟩ := coherent
  refine ⟨?_,?_,aligned,?_,pushed⟩
  · intro run
    by_cases same : run = s.next
    · simpa only [Resolving.withInterner,same,Function.update_self] using Interner.new_sound capacity
    · simpa only [Resolving.withInterner,Function.update_of_ne same] using sound run
  · intro run present
    rcases List.mem_append.mp present with old | new
    · exact Nat.lt_succ_of_lt (runs run old)
    · rw [List.mem_singleton.mp new]
      exact Nat.lt_succ_self _
  · intro t
    refine agrees_same (threads t) rfl (Nat.le_succ _) ?_ ?_ ?_
    · intro run begun
      exact Function.update_of_ne (Nat.ne_of_lt begun) _ _
    · exact fun _ todo here => ⟨todo,here⟩
    · exact fun _ _ info here => ⟨info,here⟩

theorem coherent_address (coherent : Coherent s) {key : UInt64} {a : Address}
    (aligned : key = notCached → a = .vacant)
    (dying : ∀ todo, s.addresses key = .dying todo true → ∃ todo, a = .dying todo true)
    (alive : ∀ t call, (s.stages t).call = some call → call.key = key → ∀ info, s.addresses key = .alive info →
      ∃ info, a = .alive info) : Coherent (s.setAddress key a) := by
  refine ⟨coherent.sound,coherent.runs,?_,?_,coherent.pushed⟩
  · by_cases same : notCached = key
    · simp only [Resolving.setAddress,same,Function.update_self]
      exact aligned same.symm
    · simpa only [Resolving.setAddress,Function.update_of_ne same] using coherent.aligned
  · intro t
    refine agrees_same (coherent.threads t) rfl (Nat.le_refl _) (fun _ _ => rfl) ?_ ?_
    · intro key' todo here
      by_cases same : key' = key
      · subst key'
        simpa only [Resolving.setAddress,Function.update_self] using dying todo here
      · exact ⟨todo,by simpa only [Resolving.setAddress,Function.update_of_ne same] using here⟩
    · intro call own info here
      by_cases same : call.key = key
      · rw [same] at here ⊢
        simpa only [Resolving.setAddress,Function.update_self] using alive t call own same info here
      · exact ⟨info,by simpa only [Resolving.setAddress,Function.update_of_ne same] using here⟩

theorem calling_other {call : RecordCall} {key : UInt64} {todo : List Nat} {forgotten : Bool} (calling : Calling s call)
    (here : s.addresses key = .dying todo forgotten) : call.key ≠ key := by
  rintro rfl
  obtain ⟨info,alive⟩ := calling.alive
  rw [here] at alive
  cases alive

theorem forget_holds {run : Nat} {key freedAt : UInt64} {todo : List Nat} {forgotten : Bool}
    (here : s.addresses key = .dying (run :: todo) forgotten) {run' : Nat} {key' : UInt64} {id : UInt32}
    (holds : Holds s run' key' id) :
    Holds ((s.withInterner run ((s.interners run).forget key freedAt).2).setAddress key
      (.dying todo (forgotten || ((s.interners run).forget key freedAt).1))) run' key' id := by
  by_cases same : key' = key
  · subst key'
    rcases holds with mapped | ⟨todo',dying⟩
    · by_cases own : run' = run
      · subst run'
        have forgot : ((s.interners run).forget key freedAt).1 = true := by simp [Interner.forget,mapped]
        exact .inr ⟨todo,by simp [Resolving.setAddress,forgot]⟩
      · exact .inl (by simpa [Resolving.setAddress,Resolving.withInterner,Function.update_of_ne own] using mapped)
    · rw [here] at dying
      cases dying
      exact .inr ⟨todo,by simp [Resolving.setAddress]⟩
  · rcases holds with mapped | ⟨todo',dying⟩
    · left
      by_cases own : run' = run
      · subst run'
        simpa [Resolving.setAddress,Resolving.withInterner] using Interner.forget_other mapped same
      · simpa [Resolving.setAddress,Resolving.withInterner,Function.update_of_ne own] using mapped
    · exact .inr ⟨todo',by simpa [Resolving.setAddress,Resolving.withInterner,Function.update_of_ne same] using dying⟩

theorem coherent_forget (coherent : Coherent s) {run : Nat} {key freedAt : UInt64} {todo : List Nat}
    {forgotten : Bool} (here : s.addresses key = .dying (run :: todo) forgotten) :
    Coherent ((s.withInterner run ((s.interners run).forget key freedAt).2).setAddress key
      (.dying todo (forgotten || ((s.interners run).forget key freedAt).1))) := by
  refine ⟨?_,coherent.runs,?_,?_,coherent.pushed⟩
  · intro run'
    by_cases same : run' = run
    · subst run'
      simpa [Resolving.setAddress,Resolving.withInterner] using Interner.forget_sound (coherent.sound run) key freedAt
    · simpa [Resolving.setAddress,Resolving.withInterner,Function.update_of_ne same] using coherent.sound run'
  · have other : notCached ≠ key := by
      rintro rfl
      rw [coherent.aligned] at here
      cases here
    simpa only [Resolving.setAddress,Resolving.withInterner,Function.update_of_ne other] using coherent.aligned
  · intro t
    apply agrees_carried (coherent.threads t)
    · exact ⟨Nat.le_refl _,Nat.le_refl _,fun _ _ _ _ _ => forget_holds here⟩
    · rintro call own calling
      have other := calling_other calling here
      obtain ⟨began,info,alive⟩ := calling
      exact ⟨began,info,by simpa [Resolving.setAddress,Resolving.withInterner,Function.update_of_ne other] using alive⟩
    · intro call id own calling mapped
      have other := calling_other calling here
      by_cases same : call.run = run
      · rw [same] at mapped ⊢
        simpa [Resolving.setAddress,Resolving.withInterner] using Interner.forget_other mapped other
      · simpa [Resolving.setAddress,Resolving.withInterner,Function.update_of_ne same] using mapped

theorem coherent_destroyed (coherent : Coherent s) {key : UInt64} {forgotten : Bool}
    (here : s.addresses key = .dying [] forgotten) : Coherent {s.setAddress key .vacant with
      generation := if forgotten then s.generation + 1 else s.generation} := by
  refine ⟨coherent.sound,coherent.runs,?_,?_,coherent.pushed⟩
  · by_cases same : notCached = key
    · simp only [Resolving.setAddress,same,Function.update_self]
    · simpa only [Resolving.setAddress,Function.update_of_ne same] using coherent.aligned
  · intro t
    apply agrees_carried (coherent.threads t)
    · refine ⟨?_,Nat.le_refl _,?_⟩
      · dsimp only
        split
        · exact Nat.le_succ _
        · exact Nat.le_refl _
      · cases forgotten with
        | true => simp
        | false =>
          rintro _ run key' id _ (mapped | ⟨todo,dying⟩)
          · exact .inl mapped
          · have other : key' ≠ key := by
              rintro rfl
              rw [here] at dying
              cases dying
            exact .inr ⟨todo,by simpa only [Resolving.setAddress,Function.update_of_ne other] using dying⟩
    · rintro call own calling
      have other := calling_other calling here
      obtain ⟨began,info,alive⟩ := calling
      exact ⟨began,info,by simpa only [Resolving.setAddress,Function.update_of_ne other] using alive⟩
    · exact fun _ _ _ _ mapped => mapped

theorem coherent_interner (coherent : Coherent s) (run : Nat) {i : Interner} (sound : i.Sound)
    (kept : ∀ key id, (s.interners run).map key = some id → i.map key = some id) :
    Coherent (s.withInterner run i) := by
  have keeps (run' : Nat) (key : UInt64) (id : UInt32) (mapped : (s.interners run').map key = some id) :
      ((s.withInterner run i).interners run').map key = some id := by
    by_cases same : run' = run
    · subst run'
      simpa only [Resolving.withInterner,Function.update_self] using kept key id mapped
    · simpa only [Resolving.withInterner,Function.update_of_ne same] using mapped
  refine ⟨?_,coherent.runs,coherent.aligned,?_,coherent.pushed⟩
  · intro run'
    by_cases same : run' = run
    · simpa only [Resolving.withInterner,same,Function.update_self] using sound
    · simpa only [Resolving.withInterner,Function.update_of_ne same] using coherent.sound run'
  · intro t
    apply agrees_carried (coherent.threads t)
    · refine ⟨Nat.le_refl _,Nat.le_refl _,?_⟩
      rintro _ run' key id _ (mapped | dying)
      · exact .inl (keeps run' key id mapped)
      · exact .inr dying
    · exact fun _ _ calling => ⟨calling.run,calling.alive⟩
    · exact fun call id _ _ mapped => keeps call.run call.key id mapped

end Shared

section Own

theorem coherent_enter [DecidableEq T] (coherent : Coherent s) (own : Agrees s h stage) : Coherent (s.enter t h stage) := by
  refine ⟨coherent.sound,coherent.runs,coherent.aligned,?_,coherent.pushed⟩
  intro u
  have agrees : Agrees s ((s.enter t h stage).caches u) ((s.enter t h stage).stages u) := by
    by_cases same : u = t
    · subst u
      simpa only [Resolving.enter,Function.update_self] using own
    · simpa only [Resolving.enter,Function.update_of_ne same] using coherent.threads u
  exact agrees_same agrees rfl (Nat.le_refl _) (fun _ _ => rfl) (fun _ todo here => ⟨todo,here⟩)
    fun _ _ info here => ⟨info,here⟩

theorem agrees_adopt {call : RecordCall} (agrees : Agrees s h (.cold call)) (osTid : UInt32) :
    Agrees s (h.adopt call.run s.generation osTid) (.loaded call) := by
  obtain ⟨older,seated,codes,last,calling⟩ := agrees
  have shape : (h.adopt call.run s.generation osTid).codeGen = s.generation ∧
      (h.adopt call.run s.generation osTid).queueId = h.queueId ∧
      (h.queueId ≠ call.run → (∀ key, (h.adopt call.run s.generation osTid).codes.get key = none) ∧
        (h.adopt call.run s.generation osTid).lastCodeKey = notCached) ∧
      ∀ key id, (h.adopt call.run s.generation osTid).codes.get key = some id →
        h.queueId = call.run ∧ h.codeGen = s.generation ∧ h.codes.get key = some id := by
    unfold Caches.adopt
    by_cases own : h.queueId = call.run <;> by_cases current : h.codeGen = s.generation <;>
      by_cases known : h.tid = 0xFFFFFFFF <;> simp [own,current,known,Caches.clear]
  obtain ⟨generation,queue,emptied,hits⟩ := shape
  have mapped (key : UInt64) (id : UInt32) (hit : (h.adopt call.run s.generation osTid).codes.get key = some id) :
      Holds s call.run key id := by
    obtain ⟨own,current,hit⟩ := hits key id hit
    rw [← own]
    exact codes current key id hit
  refine ⟨generation.le,queue ▸ seated,fun _ => mapped,by simp [Resolve.midway],calling,?_,?_⟩
  · intro foreign
    rw [queue] at foreign
    exact emptied foreign
  · intro id hit
    rcases mapped call.key id hit with there | ⟨todo,dying⟩
    · exact there
    · exact absurd rfl (calling_other calling dying)

theorem ensure_same (h : Caches) (named : Bool) : (h.ensure named).codeGen = h.codeGen ∧
    (h.ensure named).queueId = h.queueId ∧ (h.ensure named).codes = h.codes ∧
      (h.ensure named).lastCodeKey = h.lastCodeKey ∧ (h.ensure named).lastCodeId = h.lastCodeId := by
  unfold Caches.ensure
  split <;> exact ⟨rfl,rfl,rfl,rfl,rfl⟩

theorem agrees_remember {call : RecordCall} {id : UInt32} (codes : h.codeGen = s.generation → ∀ key id,
      h.codes.get key = some id → Holds s call.run key id) (older : h.codeGen ≤ s.generation)
    (seated : h.queueId < s.next) (calling : Calling s call)
    (mapped : (s.interners call.run).map call.key = some id) :
    Agrees s (h.remember call.key id) (.resolved call id) := by
  refine ⟨older,seated,codes,?_,calling,mapped⟩
  intro _ _ set_
  unfold Caches.remember at set_ ⊢
  dsimp only at set_ ⊢
  split at set_
  · rename_i ready
    rw [if_pos ready]
    exact .inl mapped
  · exact absurd rfl set_

theorem coherent_found [DecidableEq T] (coherent : Coherent s) {call : RecordCall} {id : UInt32}
    (cached : (s.stages t).cached (s.caches t).queueId = call.run) (calling : Calling s call)
    (mapped : (s.interners call.run).map call.key = some id) : Coherent (s.found t call id) := by
  apply coherent_enter coherent
  obtain ⟨older,seated,codes,_,_⟩ := coherent.threads t
  rw [cached] at codes
  refine agrees_remember (h := {s.caches t with codes := (s.caches t).codes.put call.key id}) ?_ older seated
    calling mapped
  intro current key id' hit
  rcases CodeCache.get_put hit with ⟨rfl,rfl⟩ | before
  · exact .inl mapped
  · exact codes current key id' before

theorem coherent_check [DecidableEq T] (coherent : Coherent s) {call : RecordCall} (entered : s.stages t = .entered call)
    (hit : (s.caches t).hit call s.generation = true) :
    Coherent (s.enter t (s.caches t) (.resolved call (s.caches t).lastCodeId)) := by
  apply coherent_enter coherent
  obtain ⟨older,seated,codes,last,calling⟩ := coherent.threads t
  rw [entered] at codes last calling
  simp only [Caches.hit,Bool.and_eq_true,decide_eq_true_eq] at hit
  obtain ⟨⟨key,own⟩,current⟩ := hit
  have set_ : (s.caches t).lastCodeKey ≠ notCached := by
    intro unset
    obtain ⟨info,alive⟩ := calling.alive
    rw [← key,unset,coherent.aligned] at alive
    cases alive
  have holds := last rfl current set_
  simp only [Resolve.cached] at codes holds
  rw [own] at codes holds
  refine ⟨older,seated,codes,fun _ _ _ => holds,calling,?_⟩
  rw [key] at holds
  rcases holds with mapped | ⟨todo,dying⟩
  · exact mapped
  · exact absurd rfl (calling_other calling dying)

theorem coherent_insert [DecidableEq T] (coherent : Coherent s) {recycleFloor : UInt64}
    (met : Refused s (.insert t recycleFloor)) (stepped : s.insertStep t recycleFloor = some s') :
    Coherent s' := by
  unfold Resolving.insertStep at stepped
  split at stepped
  · rename_i call unknown
    split at stepped
    · rename_i info alive
      have agrees := coherent.threads t
      rw [unknown] at agrees
      obtain ⟨older,seated,codes,_,calling,emptied⟩ := agrees
      have kept := coherent_interner coherent call.run
        (i := ((s.interners call.run).insert info call.key recycleFloor).2)
        (Interner.insert_sound (coherent.sound call.run))
        fun key id mapped => Interner.insert_kept (coherent.sound call.run) mapped
      cases inserted : (s.interners call.run).insert info call.key recycleFloor with
      | mk result i' =>
        rw [inserted] at stepped kept
        cases result with
        | some id =>
          cases stepped
          apply coherent_found kept
          · rw [show (s.withInterner call.run i').stages t = s.stages t from rfl,unknown]
            rfl
          · exact ⟨calling.run,calling.alive⟩
          · simp only [Resolving.withInterner,Function.update_self]
            rcases Interner.insert_cases (coherent.sound call.run) inserted with ⟨there,rfl⟩ | ⟨_,assigns,_⟩
            · exact there
            · rw [assigns.map,Function.update_self]
        | none =>
          cases stepped
          apply coherent_enter kept
          have same := Interner.insert_none inserted
          have holds {run : Nat} {key : UInt64} {id : UInt32} (before : Holds s run key id) :
              Holds (s.withInterner call.run i') run key id := by
            rcases before with mapped | dying
            · left
              by_cases own : run = call.run
              · subst run
                simpa only [Resolving.withInterner,Function.update_self,same] using mapped
              · simpa only [Resolving.withInterner,Function.update_of_ne own] using mapped
            · exact .inr dying
          have caches : (s.withInterner call.run i').caches t = s.caches t := rfl
          dsimp only
          rw [caches]
          refine ⟨older,seated,?_,?_,trivial⟩
          · intro current key id hit
            by_cases own : (s.caches t).queueId = call.run
            · rw [show Resolve.outside.cached (s.caches t).queueId = call.run from own]
              exact holds (codes current key id hit)
            · rw [(emptied own).1 key] at hit
              cases hit
          · intro _ current set_
            by_cases own : (s.caches t).queueId = call.run
            · rw [show Resolve.outside.cached (s.caches t).queueId = call.run from own]
              rcases met call info unknown (by rw [inserted]) with unset | mapped
              · exact absurd unset set_
              · exact holds (.inl mapped)
            · exact absurd (emptied own).2 set_
    · cases stepped
  · cases stepped

theorem coherent_push [DecidableEq T] (coherent : Coherent s) (stepped : s.pushStep t = some s') : Coherent s' := by
  unfold Resolving.pushStep at stepped
  split at stepped
  · rename_i call id resolved
    cases stepped
    have agrees := coherent.threads t
    rw [resolved] at agrees
    obtain ⟨older,_,codes,last,calling,mapped⟩ := agrees
    have entered : Coherent (s.enter t {s.caches t with queueId := call.run} .outside) :=
      coherent_enter coherent ⟨older,calling.run,codes,last,trivial⟩
    refine ⟨entered.sound,entered.runs,entered.aligned,?_,?_⟩
    · intro u
      exact agrees_same (entered.threads u) rfl (Nat.le_refl _) (fun _ _ => rfl) (fun _ todo here => ⟨todo,here⟩)
        fun _ _ info here => ⟨info,here⟩
    · intro p present
      rcases List.mem_append.mp present with old | new
      · exact coherent.pushed p old
      · rw [List.mem_singleton.mp new]
        exact mapped
  · cases stepped

end Own

theorem coherent_step [DecidableEq T] {act : ResolveAct T} (coherent : Coherent s) (held : Outlasts s act)
    (refused : Refused s act) (stepped : s.step act = some s') : Coherent s' := by
  cases act with
  | begin_ capacity =>
    cases stepped
    exact coherent_begin coherent capacity
  | drop run =>
    cases stepped
    refine ⟨coherent.sound,?_,coherent.aligned,?_,coherent.pushed⟩
    · exact fun run' present => coherent.runs run' (List.mem_filter.mp present).1
    · intro t
      exact agrees_same (coherent.threads t) rfl (Nat.le_refl _) (fun _ _ => rfl) (fun _ todo here => ⟨todo,here⟩)
        fun _ _ info here => ⟨info,here⟩
  | create key info =>
    simp only [Resolving.step] at stepped
    split at stepped
    · cases stepped
    · rename_i object
      split at stepped
      · rename_i vacant
        cases stepped
        apply coherent_address coherent
        · exact fun same => absurd same object
        · intro todo dying
          rw [vacant] at dying
          cases dying
        · intro t call _ _ info' alive
          rw [vacant] at alive
          cases alive
      · cases stepped
  | destroy key =>
    simp only [Resolving.step] at stepped
    split at stepped
    · rename_i info alive
      cases stepped
      apply coherent_address coherent
      · rintro rfl
        rw [coherent.aligned] at alive
        cases alive
      · intro todo dying
        rw [alive] at dying
        cases dying
      · intro t call own same
        exact absurd same (held t call own)
    · cases stepped
  | forget key freedAt =>
    simp only [Resolving.step] at stepped
    split at stepped
    · rename_i dying
      cases stepped
      exact coherent_forget coherent dying
    · cases stepped
  | destroyed key =>
    simp only [Resolving.step] at stepped
    split at stepped
    · rename_i dying
      cases stepped
      exact coherent_destroyed coherent dying
    · cases stepped
  | call t call =>
    simp only [Resolving.step] at stepped
    split at stepped
    · rename_i info outside alive
      split at stepped
      · rename_i watched
        cases stepped
        apply coherent_enter coherent
        obtain ⟨older,seated,codes,last,_⟩ := coherent.threads t
        rw [outside] at codes last
        exact ⟨older,seated,codes,last,coherent.runs _ watched,info,alive⟩
      · cases stepped
    · cases stepped
  | check t =>
    simp only [Resolving.step] at stepped
    split at stepped
    · rename_i call entered
      split at stepped
      · rename_i hit
        cases stepped
        exact coherent_check coherent entered hit
      · cases stepped
        apply coherent_enter coherent
        obtain ⟨older,seated,codes,last,calling⟩ := coherent.threads t
        rw [entered] at codes last calling
        exact ⟨older,seated,codes,last,calling⟩
    · cases stepped
  | load t osTid =>
    simp only [Resolving.step] at stepped
    split at stepped
    · rename_i call cold
      cases stepped
      apply coherent_enter coherent
      apply agrees_adopt
      rw [← cold]
      exact coherent.threads t
    · cases stepped
  | ensure t named =>
    simp only [Resolving.step] at stepped
    split at stepped
    · rename_i call loaded
      obtain ⟨older,seated,codes,_,calling,emptied,hits⟩ := loaded ▸ coherent.threads t
      obtain ⟨codeGen,queueId,same,key,_⟩ := ensure_same (s.caches t) named
      rw [← codeGen] at older codes
      rw [← queueId] at seated
      rw [← same] at codes hits
      split at stepped
      · rename_i id hit
        cases stepped
        exact coherent_enter coherent (agrees_remember codes older seated calling (hits id hit))
      · cases stepped
        apply coherent_enter coherent
        refine ⟨older,seated,codes,by simp [Resolve.midway],calling,?_⟩
        unfold Emptied at emptied ⊢
        rw [queueId,same,key]
        exact emptied
    · cases stepped
  | lookup t =>
    simp only [Resolving.step] at stepped
    split at stepped
    · rename_i call missed
      obtain ⟨older,seated,codes,_,calling,emptied⟩ := missed ▸ coherent.threads t
      split at stepped
      · rename_i id mapped
        cases stepped
        exact coherent_found coherent (by rw [missed]; rfl) calling mapped
      · cases stepped
        exact coherent_enter coherent ⟨older,seated,codes,by simp [Resolve.midway],calling,emptied⟩
    · cases stepped
  | insert t recycleFloor => exact coherent_insert coherent refused stepped
  | push t => exact coherent_push coherent stepped

theorem initial_coherent : Coherent (Resolving.initial : Resolving T) := by
  refine ⟨fun _ => Interner.new_sound none,?_,rfl,?_,?_⟩
  · intro run present
    cases present
  · intro t
    refine ⟨Nat.le_refl _,Nat.zero_lt_one,?_,?_,trivial⟩
    · intro _ key id hit
      rw [show (Resolving.initial.caches t).codes = CodeCache.empty from rfl,CodeCache.get_empty] at hit
      cases hit
    · exact fun _ _ set_ => absurd rfl set_
  · intro p present
    cases present

theorem pushed_agrees [DecidableEq T] {acts : List (ResolveAct T)}
    (run : Machine.Runs Resolving.step (fun s act => Outlasts s act ∧ Refused s act) .initial acts s) :
    ∀ p ∈ s.pushed, p.2.2 = some p.2.1 :=
  (run.invariant (I := Coherent) initial_coherent
    fun _ _ _ inv met stepped => coherent_step inv met.1 met.2 stepped).pushed

def testsOutlasts (s : Resolving Unit) : ResolveAct Unit → Bool
  | .destroy key => (s.stages ()).call.all fun call => call.key != key
  | _ => true

def testsRefused (s : Resolving Unit) : ResolveAct Unit → Bool
  | .insert _ _ =>
    match s.stages () with
    | .unknown call =>
      (s.caches ()).lastCodeKey == notCached ||
        (s.interners call.run).lookup (s.caches ()).lastCodeKey == some (s.caches ()).lastCodeId
    | _ => true
  | _ => true

theorem testsOutlasts_meets (s : Resolving Unit) (act : ResolveAct Unit) (checked : testsOutlasts s act = true) :
    Outlasts s act := by
  cases act with
  | destroy key =>
    intro t call own same
    simp only [testsOutlasts,own,Option.all_some,bne_iff_ne] at checked
    exact checked same
  | _ => trivial

theorem testsRefused_meets (s : Resolving Unit) (act : ResolveAct Unit) (checked : testsRefused s act = true) :
    Refused s act := by
  cases act with
  | insert t recycleFloor =>
    intro call info unknown _
    simp only [testsRefused,unknown,Bool.or_eq_true,beq_iff_eq] at checked
    exact checked
  | _ => trivial

-- A code object is recorded twice, the second time through the fast check; the next run finds
-- another one at its address.
theorem pushed_agrees_reused : ∃ s : Resolving Unit, s.pushed =
    [(⟨1,8,.Begin⟩,0,some 0),(⟨1,8,.End⟩,0,some 0),(⟨2,8,.Begin⟩,0,some 0)] ∧
      ∀ p ∈ s.pushed, p.2.2 = some p.2.1 := by
  have ran : (Machine.checkedRun Resolving.step (fun s act => testsOutlasts s act && testsRefused s act) .initial
      [.begin_ (some 1),.create 8 ⟨"f","a.py",1⟩,.call () ⟨1,8,.Begin⟩,.check (),.load () 7,.ensure () true,
        .lookup (),.insert () 0,.push (),.call () ⟨1,8,.End⟩,.check (),.push (),.destroy 8,.forget 8 50,
        .destroyed 8,.drop 1,.begin_ (some 1),.create 8 ⟨"g","a.py",2⟩,.call () ⟨2,8,.Begin⟩,.check (),
        .load () 7,.ensure () true,.lookup (),.insert () 0,.push ()]).map (·.pushed) =
      some [(⟨1,8,.Begin⟩,0,some 0),(⟨1,8,.End⟩,0,some 0),(⟨2,8,.Begin⟩,0,some 0)] := by
    decide +kernel
  obtain ⟨s,run,pushed⟩ := Option.map_eq_some_iff.mp ran
  refine ⟨s,pushed,?_⟩
  apply pushed_agrees (Machine.runs_of_checked ?_ run)
  intro m act checked
  rw [Bool.and_eq_true] at checked
  exact ⟨testsOutlasts_meets m act checked.1,testsRefused_meets m act checked.2⟩

-- The table is full, so a new code object where an old one was gets no id. The refused insert
-- leaves `last_code_key`, and the new object's next event goes out under the old one's id.
theorem refused_insert_leaves_the_old_id : ∃ (acts : List (ResolveAct Unit)) (s : Resolving Unit),
    Machine.Runs Resolving.step Outlasts .initial acts s ∧ ¬∀ p ∈ s.pushed, p.2.2 = some p.2.1 := by
  have ran : (Machine.checkedRun Resolving.step testsOutlasts .initial
      [.begin_ (some 1),.create 8 ⟨"f","a.py",1⟩,.call () ⟨1,8,.Begin⟩,.check (),.load () 7,.ensure () true,
        .lookup (),.insert () 0,.push (),.destroy 8,.forget 8 50,.destroyed 8,.create 8 ⟨"g","a.py",2⟩,
        .call () ⟨1,8,.Begin⟩,.check (),.load () 7,.ensure () true,.lookup (),.insert () 0,
        .call () ⟨1,8,.End⟩,.check (),.push ()]).map (·.pushed) =
      some [(⟨1,8,.Begin⟩,0,some 0),(⟨1,8,.End⟩,0,none)] := by
    decide +kernel
  obtain ⟨s,run,pushed⟩ := Option.map_eq_some_iff.mp ran
  refine ⟨_,s,Machine.runs_of_checked testsOutlasts_meets run,?_⟩
  rw [pushed]
  simp

end Trace0
