import Trace0.EvQueue

namespace Trace0

variable {T : Type}

def drainedFrom (limit : Nat) : List (Consumer T) → Nat → Nat
  | [],got => got
  | c :: rest,got =>
    let visit := popLoop limit c.batches got
    if visit.2.2.2 then visit.2.2.1 else drainedFrom limit rest visit.2.2.1

def EventQueue.drainReturns (q : EventQueue T) (limit : Nat) : Nat :=
  let n := q.consumers.length
  if n = 0 then 0
  else
    let start := q.nextConsumer % n
    drainedFrom limit (q.consumers.drop start ++ q.consumers.take start) 0

inductive QueueOp (T : Type) where
  | push (t : T) (batch : EventBatch)
  | drain (limit : Nat)

def QueueOp.drains : QueueOp T → Bool
  | push _ _ => false
  | drain _ => true

-- `pushed` and `drained` record what went in and out; no call reads them.
structure DrainRun (T : Type) where
  queue : EventQueue T
  pushed : List (T × EventBatch)
  drained : List (T × EventBatch)

namespace DrainRun

variable [DecidableEq T]

def step (s : DrainRun T) : QueueOp T → DrainRun T
  | .push t batch =>
    match s.queue.push t batch with
    | none => s
    | some queue => {s with queue := queue,pushed := s.pushed ++ [(t,batch)]}
  | .drain limit =>
    let call := s.queue.drainBatches limit
    {s with queue := call.2,drained := s.drained ++ call.1}

def after (q : EventQueue T) (ops : List (QueueOp T)) : DrainRun T := ops.foldl step ⟨q,[],[]⟩

end DrainRun

theorem popLoop_met {limit : Nat} {batches : List EventBatch} {got : Nat}
    (met : (popLoop limit batches got).2.2.2 = true) : limit ≤ (popLoop limit batches got).2.2.1 := by
  induction batches generalizing got with
  | nil => cases met
  | cons batch rest ih =>
    unfold popLoop at met ⊢
    split
    · rename_i reached
      exact reached
    · rename_i below
      rw [if_neg below] at met
      exact ih met

theorem drainedFrom_count {limit : Nat} (consumers : List (Consumer T)) {got : Nat} (below : got < limit) :
    drainedFrom limit consumers got = got + (drainFrom limit consumers got).1.length ∧
      (drainedFrom limit consumers got < limit → ∀ c ∈ (drainFrom limit consumers got).2, c.batches = []) := by
  induction consumers generalizing got with
  | nil => exact ⟨rfl,fun _ c none => by cases none⟩
  | cons c rest ih =>
    obtain ⟨count,most,unmet⟩ := popLoop_count c.batches below
    simp only [drainedFrom,drainFrom]
    split
    · rename_i met
      refine ⟨by rw [List.length_map]; exact count,?_⟩
      intro less
      have reached := popLoop_met met
      omega
    · rename_i going
      have going := Bool.eq_false_of_not_eq_true going
      obtain ⟨total,emptied⟩ := ih (unmet going)
      constructor
      · rw [total,count,List.length_append,List.length_map,Nat.add_assoc]
      · intro less d present
        rcases List.mem_cons.mp present with rfl | later
        · exact popLoop_exhausts going
        · exact emptied less d later

theorem drain_returns (q : EventQueue T) {limit : Nat} (positive : 1 ≤ limit) :
    q.drainReturns limit = (q.drainBatches limit).1.length ∧
      (q.drainReturns limit < limit → ∀ c ∈ (q.drainBatches limit).2.consumers, c.batches = []) := by
  unfold EventQueue.drainReturns EventQueue.drainBatches
  dsimp only
  split
  · rename_i vacant
    refine ⟨rfl,?_⟩
    intro _ c present
    rw [List.length_eq_zero_iff.mp vacant] at present
    cases present
  · obtain ⟨count,emptied⟩ := drainedFrom_count (q.consumers.drop (q.nextConsumer % q.consumers.length) ++
      q.consumers.take (q.nextConsumer % q.consumers.length)) positive
    refine ⟨by rw [count,Nat.zero_add],?_⟩
    intro less c present
    apply emptied less c
    rcases List.mem_append.mp present with late | early
    · exact List.mem_of_mem_drop late
    · exact List.mem_of_mem_take early

section Turns

variable [DecidableEq T] {q : EventQueue T}

theorem held_at {k : Nat} {c : Consumer T} (distinct : q.owners.Nodup) (here : q.consumers[k]? = some c) :
    q.held c.owner = c.batches := by
  obtain ⟨inside,there⟩ := List.getElem?_eq_some_iff.mp here
  have split : q.consumers = q.consumers.take k ++ c :: q.consumers.drop (k+1) := by
    rw [← there,List.getElem_cons_drop,List.take_append_drop]
  unfold EventQueue.owners at distinct
  rw [split,List.map_append,List.map_cons] at distinct
  obtain ⟨_,rest,apart⟩ := List.nodup_append.mp distinct
  have before : c.owner ∉ (q.consumers.take k).map (·.owner) := fun there => apart _ there _ List.mem_cons_self rfl
  unfold EventQueue.held
  rw [split,heldIn_append,heldIn_cons,heldIn_absent before,heldIn_absent (List.nodup_cons.mp rest).1,if_pos rfl,
    List.nil_append,List.append_nil]

theorem drain_first {t : T} (distinct : q.owners.Nodup) (limit : Nat)
    (turn : q.owners[q.nextConsumer % q.consumers.length]? = some t) (holds : q.held t ≠ []) :
    ownedBy t (q.drainBatches limit).1 ≠ [] := by
  rw [EventQueue.owners,List.getElem?_map,Option.map_eq_some_iff] at turn
  obtain ⟨c,here,rfl⟩ := turn
  rw [held_at distinct here] at holds
  obtain ⟨inside,rfl⟩ := List.getElem?_eq_some_iff.mp here
  have nonempty : q.consumers.length ≠ 0 := by omega
  unfold EventQueue.drainBatches
  dsimp only
  rw [if_neg nonempty,← List.getElem_cons_drop inside,List.cons_append]
  generalize q.consumers[q.nextConsumer % q.consumers.length] = c at holds
  have popped : (popLoop limit c.batches 0).1 ≠ [] := fun none => holds (popLoop_none none)
  simp only [drainFrom]
  split
  · rw [ownedBy_map,if_pos rfl]
    exact popped
  · rw [ownedBy_append,ownedBy_map,if_pos rfl]
    exact List.append_ne_nil_of_left_ne_nil popped _

end Turns

theorem owners_length (q : EventQueue T) : q.owners.length = q.consumers.length := by
  rw [EventQueue.owners,List.length_map]

theorem rotation_covers (start k n : Nat) (inside : k < n) : ∃ i < n, (start+i) % n = k := by
  have less := Nat.mod_lt start (Nat.zero_lt_of_lt inside)
  have split := Nat.mod_add_div start n
  rcases Nat.le_total (start % n) k with early | late
  · refine ⟨k - start % n,by omega,?_⟩
    have sum : start + (k - start % n) = k + n*(start/n) := by omega
    rw [sum,Nat.add_mul_mod_self_left,Nat.mod_eq_of_lt inside]
  · rcases Nat.eq_or_lt_of_le late with same | past
    · exact ⟨0,Nat.zero_lt_of_lt inside,by rw [Nat.add_zero,same]⟩
    · refine ⟨n - start % n + k,by omega,?_⟩
      have sum : start + (n - start % n + k) = k + n*(start/n+1) := by
        rw [Nat.mul_add,Nat.mul_one]
        omega
      rw [sum,Nat.add_mul_mod_self_left,Nat.mod_eq_of_lt inside]

theorem nth_drain (ops : List (QueueOp T)) (i : Nat) (inside : i < ops.countP (·.drains)) :
    ∃ front limit rest, ops = front ++ .drain limit :: rest ∧ front.countP (·.drains) = i := by
  induction ops generalizing i with
  | nil => exact absurd inside (Nat.not_lt_zero i)
  | cons op ops ih =>
    cases op with
    | push t batch =>
      obtain ⟨front,limit,rest,rfl,count⟩ := ih i inside
      exact ⟨.push t batch :: front,limit,rest,rfl,count⟩
    | drain limit =>
      cases i with
      | zero => exact ⟨[],limit,ops,rfl,rfl⟩
      | succ i =>
        rw [List.countP_cons_of_pos rfl] at inside
        obtain ⟨front,later,rest,rfl,count⟩ := ih i (by omega)
        refine ⟨.drain limit :: front,later,rest,rfl,?_⟩
        rw [List.countP_cons_of_pos rfl,count]

namespace DrainRun

variable [DecidableEq T] {q : EventQueue T}

structure Accounts (q : EventQueue T) (calls : Nat) (s : DrainRun T) : Prop where
  owners : s.queue.owners = q.owners
  turn : s.queue.nextConsumer = q.nextConsumer + calls
  order : ∀ t, q.held t ++ ownedBy t s.pushed = ownedBy t s.drained ++ s.queue.held t

theorem step_accounts {calls : Nat} {s : DrainRun T} (distinct : q.owners.Nodup) (some_ : q.consumers ≠ [])
    (accounts : s.Accounts q calls) (op : QueueOp T)
    (producer : ∀ t batch, op = .push t batch → t ∈ q.owners) :
    (s.step op).Accounts q (calls + if op.drains then 1 else 0) := by
  obtain ⟨owners,turn,order⟩ := accounts
  have own : s.queue.owners.Nodup := owners ▸ distinct
  cases op with
  | push t batch =>
    cases pushed : s.queue.push t batch with
    | none =>
      simp only [step,pushed]
      exact ⟨owners,turn,order⟩
    | some queue =>
      simp only [step,pushed]
      obtain ⟨_,frame,same⟩ := push_some pushed
      refine ⟨same.trans owners,?_,?_⟩
      · rw [frame]
        exact turn
      · intro u
        have held := push_held own (owners ▸ producer t batch rfl) pushed u
        rw [held,ownedBy_append,ownedBy_single,← List.append_assoc,order u,List.append_assoc]
  | drain limit =>
    refine ⟨(drain_owners _ limit).trans owners,?_,?_⟩
    · have nonempty : s.queue.consumers.length ≠ 0 := by
        rw [← owners_length,owners,owners_length]
        exact fun none => some_ (List.length_eq_zero_iff.mp none)
      simp only [step,EventQueue.drainBatches,if_neg nonempty,turn,QueueOp.drains,if_true]
      omega
    · intro t
      simp only [step]
      rw [order t,drain_splits own limit t,ownedBy_append,List.append_assoc]

theorem after_accounts (distinct : q.owners.Nodup) (some_ : q.consumers ≠ []) (ops : List (QueueOp T))
    (producers : ∀ t batch, .push t batch ∈ ops → t ∈ q.owners) :
    (after q ops).Accounts q (ops.countP (·.drains)) := by
  induction ops using List.reverseRecOn with
  | nil => exact ⟨rfl,rfl,fun t => by rw [after]; simp⟩
  | append_singleton ops op ih =>
    have before := ih fun t batch there => producers t batch (List.mem_append_left _ there)
    have next := step_accounts distinct some_ before op (fun t batch same =>
      producers t batch (List.mem_append_right _ (List.mem_singleton.mpr same.symm)))
    rw [after,List.foldl_concat,List.countP_append,List.countP_singleton]
    exact next

theorem after_append (q : EventQueue T) (before later : List (QueueOp T)) :
    after q (before ++ later) = later.foldl step (after q before) := List.foldl_append

theorem drained_grows (s : DrainRun T) (ops : List (QueueOp T)) : s.drained <+: (ops.foldl step s).drained := by
  induction ops generalizing s with
  | nil => exact List.prefix_refl _
  | cons op ops ih =>
    refine List.IsPrefix.trans ?_ (ih (s.step op))
    cases op with
    | push t batch =>
      unfold step
      dsimp only
      split <;> exact List.prefix_refl _
    | drain limit => exact List.prefix_append _ _

end DrainRun

theorem drains_fair [DecidableEq T] (q : EventQueue T) (distinct : q.owners.Nodup) (inhabited : q.consumers ≠ [])
    (ops : List (QueueOp T)) (producers : ∀ t batch, .push t batch ∈ ops → t ∈ q.owners) :
    let run := DrainRun.after q ops
    (∀ t, q.held t ++ ownedBy t run.pushed = ownedBy t run.drained ++ run.queue.held t) ∧
      (∀ limit, 1 ≤ limit →
        let call := run.queue.drainBatches limit
        run.queue.drainReturns limit = call.1.length ∧ call.1.length ≤ limit ∧
          (run.queue.drainReturns limit < limit → ∀ c ∈ call.2.consumers, c.batches = [])) ∧
      ∀ before during, ops = before ++ during → during.countP (·.drains) = q.consumers.length →
        ∀ t ∈ q.owners, (∀ front limit rest, during = front ++ .drain limit :: rest →
            (DrainRun.after q (before ++ front)).queue.held t ≠ []) →
          ∃ batch earlier later, (DrainRun.after q before).drained ++ earlier ++ (t,batch) :: later = run.drained := by
  intro run
  refine ⟨(DrainRun.after_accounts distinct inhabited ops producers).order,?_,?_⟩
  · intro limit positive
    obtain ⟨count,emptied⟩ := drain_returns run.queue positive
    exact ⟨count,drain_length run.queue positive,emptied⟩
  · intro before during split calls t member nonempty
    obtain ⟨k,inside,here⟩ := List.mem_iff_getElem.mp member
    rw [owners_length] at inside
    obtain ⟨i,few,turn⟩ := rotation_covers (q.nextConsumer + before.countP (·.drains)) k _ inside
    obtain ⟨front,limit,rest,divided,count⟩ := nth_drain during i (by rw [calls]; exact few)
    have accounts : (DrainRun.after q (before ++ front)).Accounts q ((before ++ front).countP (·.drains)) := by
      apply DrainRun.after_accounts distinct inhabited
      intro u batch there
      apply producers u batch
      rw [split,divided,← List.append_assoc]
      exact List.mem_append_left _ there
    have holds := nonempty front limit rest divided
    have grown := DrainRun.drained_grows (DrainRun.after q before) front
    rw [← DrainRun.after_append] at grown
    have called : run = (.drain limit :: rest).foldl DrainRun.step (DrainRun.after q (before ++ front)) := by
      rw [← DrainRun.after_append,List.append_assoc,← divided,← split]
    generalize DrainRun.after q (before ++ front) = s at accounts holds grown called
    have first := drain_first (q := s.queue) (accounts.owners ▸ distinct) limit (t := t) (by
      rw [accounts.turn,List.countP_append,count,← Nat.add_assoc,← owners_length s.queue,accounts.owners,
        owners_length,turn,List.getElem?_eq_getElem (by rw [owners_length]; exact inside),here]) holds
    obtain ⟨batch,yields⟩ := List.exists_mem_of_ne_nil _ first
    obtain ⟨early,late,parts⟩ := List.append_of_mem (mem_ownedBy.mp yields)
    obtain ⟨since,sinceIs⟩ := grown
    obtain ⟨after,afterIs⟩ := DrainRun.drained_grows (s.step (.drain limit)) rest
    refine ⟨batch,since ++ early,late ++ after,?_⟩
    rw [called,List.foldl_cons,← afterIs]
    simp only [DrainRun.step]
    rw [parts,← sinceIs]
    simp only [List.append_assoc,List.cons_append]

theorem drains_fair_two :
    let batch : EventBatch := ⟨5,1,[⟨0,3⟩],1024⟩
    let q : EventQueue Nat := ⟨1,Clock.mock,0,[⟨1,[batch,batch,batch]⟩,⟨2,[]⟩],0,0,false⟩
    let ops : List (QueueOp Nat) := [.push 2 batch,.drain 1,.push 1 batch,.drain 1]
    (∀ t, q.held t ++ ownedBy t (DrainRun.after q ops).pushed =
        ownedBy t (DrainRun.after q ops).drained ++ (DrainRun.after q ops).queue.held t) ∧
      ∃ left earlier later, (DrainRun.after q []).drained ++ earlier ++ (2,left) :: later = (DrainRun.after q ops).drained := by
  intro batch q ops
  obtain ⟨order,_,fair⟩ := drains_fair q (by decide) (by decide) ops (by
    intro t batch there
    simp only [ops,List.mem_cons,QueueOp.push.injEq,reduceCtorEq,List.not_mem_nil,or_false,false_or] at there
    rcases there with ⟨rfl,_⟩ | ⟨rfl,_⟩ <;> decide)
  refine ⟨order,fair [] ops rfl rfl 2 (by decide) ?_⟩
  intro front limit rest split
  match front,split with
  | [_],split =>
    simp only [ops,List.cons_append,List.nil_append,List.cons.injEq] at split
    obtain ⟨rfl,_⟩ := split
    decide
  | [_,_,_],split =>
    simp only [ops,List.cons_append,List.nil_append,List.cons.injEq] at split
    obtain ⟨rfl,rfl,rfl,_⟩ := split
    decide
  | [],split => simp [ops] at split
  | [_,_],split => simp [ops] at split
  | _ :: _ :: _ :: _ :: _,split => simp [ops] at split

end Trace0
