import Trace0.Processes

namespace Trace0.Forks

def pushes (history : List Deed) : List (Nat × Nat × Stamp) :=
  history.filterMap fun
    | .created _ => none
    | .pushed id ring event => some (id,ring,event)

def since (id : Nat) (history : List Deed) : List Deed := history.dropWhile (· ≠ .created id)

def pushedTo (id : Nat) (history : List Deed) : List Stamp := (ownedBy id (pushes (since id history))).map (·.2)

@[simp] theorem pushes_append (left right : List Deed) : pushes (left ++ right) = pushes left ++ pushes right := by
  simp [pushes]

@[simp] theorem pushes_fresh (id ring : Nat) (fresh : List Stamp) :
    pushes (fresh.map (.pushed id ring)) = (fresh.map (ring,·)).map (id,·) := by
  simp [pushes,List.filterMap_map,List.map_map,Function.comp_def]

theorem said_more (history : List Deed) (id ring id' ring' : Nat) (fresh : List Stamp) :
    ownedBy ring' (ownedBy id' (pushes (history ++ fresh.map (.pushed id ring)))) =
      ownedBy ring' (ownedBy id' (pushes history)) ++ if id = id' ∧ ring = ring' then fresh else [] := by
  rw [pushes_append,pushes_fresh,ownedBy_append,ownedBy_append,ownedBy_map]
  congr 1
  by_cases queue : id = id'
  · rw [if_pos queue,ownedBy_map]
    exact if_congr (by simp [queue]) rfl rfl
  · rw [if_neg queue,if_neg fun both => queue both.1]
    rfl

theorem since_cons (id : Nat) (deed : Deed) (rest : List Deed) :
    since id (deed :: rest) = if deed = .created id then deed :: rest else since id rest := by
  by_cases here : deed = .created id <;> simp [since,here]

theorem since_append {id : Nat} {history : List Deed} (more : List Deed) (present : .created id ∈ history) :
    since id (history ++ more) = since id history ++ more := by
  induction history with
  | nil => cases present
  | cons deed rest ih =>
    rw [List.cons_append,since_cons,since_cons]
    by_cases here : deed = .created id
    · rw [if_pos here,if_pos here,List.cons_append]
    · rw [if_neg here,if_neg here]
      exact ih ((List.mem_cons.mp present).resolve_left (Ne.symm here))

theorem since_after {id : Nat} {history : List Deed} (more : List Deed) (missing : .created id ∉ history) :
    since id (history ++ more) = since id more := by
  induction history with
  | nil => rfl
  | cons deed rest ih =>
    have here : deed ≠ .created id := fun same => missing (same ▸ List.mem_cons_self)
    rw [List.cons_append,since_cons,if_neg here]
    exact ih fun inside => missing (List.mem_cons_of_mem _ inside)

theorem since_missing {id : Nat} {history : List Deed} (missing : .created id ∉ history) : since id history = [] := by
  have after := since_after [] missing
  rwa [List.append_nil] at after

-- Ids are given out in order, each once, and nothing is pushed to a queue before it is there.
structure Timed (next : Nat) (inherited deeds : List Deed) : Prop where
  positive : 0 < next
  created : ∀ id, .created id ∈ inherited ++ deeds ↔ 0 < id ∧ id < next
  once : ∀ id, .created id ∈ deeds → .created id ∉ inherited
  later : ∀ id, ownedBy id (pushes (since id (inherited ++ deeds))) = ownedBy id (pushes (inherited ++ deeds))

variable {next : Nat} {inherited deeds : List Deed}

theorem later_append {history more : List Deed}
    (later : ∀ id, ownedBy id (pushes (since id history)) = ownedBy id (pushes history))
    (known : ∀ x ∈ pushes more, .created x.1 ∈ history) (id : Nat) :
    ownedBy id (pushes (since id (history ++ more))) = ownedBy id (pushes (history ++ more)) := by
  by_cases present : .created id ∈ history
  · rw [since_append more present,pushes_append,pushes_append,ownedBy_append,ownedBy_append,later]
  · have quiet : id ∉ (pushes more).map (·.1) := fun pushed => by
      obtain ⟨x,member,rfl⟩ := List.mem_map.mp pushed
      exact present (known x member)
    have part : (pushes (since id more)).Sublist (pushes more) := (List.dropWhile_sublist _).filterMap _
    have none : ownedBy id (pushes (since id more)) = [] :=
      ownedBy_absent fun pushed => quiet ((part.map _).subset pushed)
    have before := later id
    rw [since_missing present] at before
    rw [since_after more present,none,pushes_append,ownedBy_append,← before,ownedBy_absent quiet]
    rfl

theorem Timed.initial : Timed 1 [] [] :=
  ⟨Nat.one_pos,fun id => by simp; omega,nofun,fun _ => rfl⟩

theorem Timed.newQueue (timed : Timed next inherited deeds) : Timed (next+1) inherited (deeds ++ [.created next]) := by
  have fresh : .created next ∉ inherited ++ deeds := fun member => absurd ((timed.created next).mp member).2 (Nat.lt_irrefl _)
  refine ⟨Nat.succ_pos _,fun id => ?_,fun id member => ?_,fun id => ?_⟩
  · have old := timed.created id
    have positive := timed.positive
    rw [← List.append_assoc,List.mem_append,old,List.mem_singleton,Deed.created.injEq]
    omega
  · rcases List.mem_append.mp member with old | new
    · exact timed.once id old
    · cases List.mem_singleton.mp new
      exact fun inside => fresh (List.mem_append_left _ inside)
  · rw [← List.append_assoc]
    exact later_append timed.later (by simp [pushes]) id

theorem Timed.push (timed : Timed next inherited deeds) {id ring : Nat} (present : 0 < id ∧ id < next) (fresh : List Stamp) :
    Timed next inherited (deeds ++ fresh.map (.pushed id ring)) := by
  have same (id' : Nat) : .created id' ∉ fresh.map (Deed.pushed id ring) := by simp
  refine ⟨timed.positive,fun id' => ?_,fun id' member => ?_,fun id' => ?_⟩
  · rw [← List.append_assoc,List.mem_append,or_iff_left (same id')]
    exact timed.created id'
  · exact timed.once id' ((List.mem_append.mp member).resolve_right (same id'))
  · rw [← List.append_assoc]
    refine later_append timed.later (fun x member => ?_) id'
    rw [pushes_fresh] at member
    obtain ⟨_,_,rfl⟩ := List.mem_map.mp member
    exact (timed.created id).mpr present

theorem Timed.fork (timed : Timed next inherited deeds) : Timed next (inherited ++ deeds) [] := by
  refine ⟨timed.positive,fun id => ?_,nofun,fun id => ?_⟩
  · rw [List.append_nil]
    exact timed.created id
  · rw [List.append_nil]
    exact timed.later id

theorem Timed.own (timed : Timed next inherited deeds) {id : Nat} (created : .created id ∈ deeds) :
    pushedTo id (inherited ++ deeds) = pushedTo id deeds := by
  rw [pushedTo,pushedTo,since_after deeds (timed.once id created)]

namespace Process

variable {T : Type}

def returned (p : Process T) (id : Nat) : List EventBatch := (ownedBy id p.drained).map (·.2)

def given (p : Process T) (id ring : Nat) : List EventBatch := ownedBy ring (ownedBy id p.drained) ++ (p.queues id).held ring

def said (p : Process T) (id ring : Nat) : List Stamp := ownedBy ring (ownedBy id (pushes p.history))

-- `Hot` and `Cold` of a thread that records: the producer's queue is the one the fast path
-- trusts, and the ring and the open batch hold, in order, events that were pushed into it.
structure Seated (p : Process T) (tid : UInt32) (l : Local Nat) (id ring : Nat) : Prop where
  producer : l.cold.producer = some (id,ring)
  queueId : l.hot.queueId = id
  known : 0 < id ∧ id < p.nextQueueId
  member : ring ∈ (p.queues id).owners
  ready : Ready tid l
  told : (stampsOf (p.given id ring) ++ openStamps l).Sublist (p.said id ring)

structure Sound (tidOf : T → UInt32) (p : Process T) : Prop where
  timed : Timed p.nextQueueId p.inherited p.deeds
  ids : ∀ id, (p.queues id).id = id
  distinct : ∀ id, (p.queues id).owners.Nodup
  numbered : ∀ id, ∀ ring ∈ (p.queues id).owners, ring < p.nextRing
  logged : ∀ x ∈ pushes p.history, x.2.1 < p.nextRing
  kept : ∀ id ring, (stampsOf (p.given id ring)).Sublist (p.said id ring)
  brk : ∀ t, 0 < (p.threads t).brk
  seats : ∀ t, Unseated (p.threads t) ∨ ∃ id ring, p.Seated (tidOf t) (p.threads t) id ring
  alone : ∀ t u x, (p.threads t).cold.producer = some x → (p.threads u).cold.producer = some x → t = u

variable {tidOf : T → UInt32} {p p' : Process T} {t : T} {id ring : Nat}

theorem initial_sound : Sound tidOf initial where
  timed := .initial
  ids _ := rfl
  distinct _ := List.nodup_nil
  numbered _ _ := nofun
  logged _ := nofun
  kept _ _ := List.Sublist.refl _
  brk _ := Nat.one_pos
  seats _ := .inl ⟨rfl,rfl,rfl,rfl⟩
  alone _ _ _ := nofun

theorem later_sound (sound : Sound tidOf p) (recorders : List T) (more : Nat) :
    Sound tidOf {p with recorders := recorders,nextRing := p.nextRing+more} :=
  {sound with
    numbered := fun id ring member => Nat.lt_of_lt_of_le (sound.numbered id ring member) (Nat.le_add_right _ _)
    logged := fun x member => Nat.lt_of_lt_of_le (sound.logged x member) (Nat.le_add_right _ _)
    seats := fun t => (sound.seats t).imp_right fun ⟨id,ring,seated⟩ => ⟨id,ring,{seated with}⟩}

theorem fork_sound (sound : Sound tidOf p) : Sound tidOf p.fork := by
  have history : p.fork.history = p.history := List.append_nil _
  have said (id ring : Nat) : p.fork.said id ring = p.said id ring := by rw [said,history,Process.said]
  refine {sound with timed := sound.timed.fork,logged := ?_,kept := ?_,seats := ?_}
  · rw [history]
    exact sound.logged
  · intro id ring
    rw [said]
    exact sound.kept id ring
  · intro t
    refine (sound.seats t).imp_right fun ⟨id,ring,seated⟩ => ⟨id,ring,{seated with told := ?_}⟩
    rw [said]
    exact seated.told

theorem newQueue_sound (sound : Sound tidOf p) (clock : Clock) : Sound tidOf (p.newQueue clock) := by
  have history : (p.newQueue clock).history = p.history ++ [.created p.nextQueueId] := (List.append_assoc ..).symm
  have pushes_same : pushes (p.newQueue clock).history = pushes p.history := by
    rw [history,pushes_append]
    exact List.append_nil _
  have said (id ring : Nat) : (p.newQueue clock).said id ring = p.said id ring := by rw [said,pushes_same,Process.said]
  have others {id : Nat} (other : id ≠ p.nextQueueId) : (p.newQueue clock).queues id = p.queues id :=
    Function.update_of_ne other _ _
  have here : (p.newQueue clock).queues p.nextQueueId = .new p.nextQueueId clock := Function.update_self ..
  have given {id : Nat} (other : id ≠ p.nextQueueId) (ring : Nat) : (p.newQueue clock).given id ring = p.given id ring := by
    rw [given,others other]
    rfl
  refine ⟨sound.timed.newQueue,fun id => ?_,fun id => ?_,fun id => ?_,?_,fun id ring => ?_,sound.brk,fun t => ?_,sound.alone⟩
  · by_cases new : id = p.nextQueueId
    · rw [new,here]
      rfl
    · rw [others new]
      exact sound.ids id
  · by_cases new : id = p.nextQueueId
    · rw [new,here]
      exact List.nodup_nil
    · rw [others new]
      exact sound.distinct id
  · by_cases new : id = p.nextQueueId
    · rw [new,here]
      exact fun _ => nofun
    · rw [others new]
      exact sound.numbered id
  · rw [pushes_same]
    exact sound.logged
  · rw [said]
    by_cases new : id = p.nextQueueId
    · subst new
      have part : (stampsOf ((p.newQueue clock).given p.nextQueueId ring)).Sublist (stampsOf (p.given p.nextQueueId ring)) := by
        have held : ((p.newQueue clock).queues p.nextQueueId).held ring = [] := by rw [here]; rfl
        rw [Process.given,held,List.append_nil,Process.given,stampsOf_append]
        exact List.sublist_append_left _ _
      exact part.trans (sound.kept _ ring)
    · rw [given new]
      exact sound.kept id ring
  · refine (sound.seats t).imp_right fun ⟨id,ring,seated⟩ => ⟨id,ring,?_⟩
    have other : id ≠ p.nextQueueId := Nat.ne_of_lt seated.known.2
    refine {seated with known := ⟨seated.known.1,Nat.lt_succ_of_lt seated.known.2⟩,member := ?_,told := ?_}
    · rw [others other]
      exact seated.member
    · rw [given other,said]
      exact seated.told

theorem given_withQueue {q : EventQueue Nat} (same : ∀ ring, q.held ring = (p.queues q.id).held ring) (id ring : Nat) :
    (p.withQueue q).given id ring = p.given id ring := by
  by_cases here : id = q.id
  · subst here
    have queue : (p.withQueue q).queues q.id = q := Function.update_self ..
    rw [given,queue,same]
    rfl
  · have queue : (p.withQueue q).queues id = p.queues id := Function.update_of_ne here _ _
    rw [given,queue]
    rfl

theorem ring_sound (sound : Sound tidOf p) (id : Nat) {me : Nat} (below : me < p.nextRing) (fresh : me ∉ (p.queues id).owners)
    (l : Local Nat) (ticks : UInt64) (tid : UInt32) :
    Sound tidOf (p.withQueue ((p.queues id).initRing me l ticks tid).1) := by
  set q := ((p.queues id).initRing me l ticks tid).1 with made
  have qid : q.id = id := sound.ids id
  have queue : (p.withQueue q).queues id = q := by
    rw [← qid]
    exact Function.update_self ..
  have others {id' : Nat} (other : id' ≠ id) : (p.withQueue q).queues id' = p.queues id' :=
    Function.update_of_ne (qid ▸ other) _ _
  have owners : q.owners = (p.queues id).owners ++ [me] := initRing_owners ..
  have given := given_withQueue (p := p) (q := q) fun ring => by rw [qid]; exact initRing_held ..
  refine ⟨sound.timed,fun id' => ?_,fun id' => ?_,fun id' => ?_,sound.logged,fun id' ring => ?_,sound.brk,fun t => ?_,
    sound.alone⟩
  · by_cases same : id' = id
    · rw [same,queue,qid]
    · rw [others same]
      exact sound.ids id'
  · by_cases same : id' = id
    · rw [same,queue,owners]
      exact List.nodup_append.mpr ⟨sound.distinct id,List.nodup_singleton _,by simpa using fun x inside (clash : x = me) => fresh (clash ▸ inside)⟩
    · rw [others same]
      exact sound.distinct id'
  · by_cases same : id' = id
    · rw [same,queue,owners]
      intro ring inside
      rcases List.mem_append.mp inside with old | new
      · exact sound.numbered id ring old
      · exact List.mem_singleton.mp new ▸ below
    · rw [others same]
      exact sound.numbered id'
  · rw [given]
    exact sound.kept id' ring
  · refine (sound.seats t).imp_right fun ⟨id',ring,seated⟩ => ⟨id',ring,{seated with known := seated.known,member := ?_,told := ?_}⟩
    · by_cases same : id' = id
      · rw [same,queue,owners]
        exact List.mem_append_left _ (same ▸ seated.member)
      · rw [others same]
        exact seated.member
    · rw [given]
      exact seated.told

theorem drain_sound (sound : Sound tidOf p) (id limit : Nat) :
    Sound tidOf {p.withQueue ((p.queues id).drainBatches limit).2 with
      drained := p.drained ++ ((p.queues id).drainBatches limit).1.map (id,·)} := by
  set q := ((p.queues id).drainBatches limit).2 with made
  set p' : Process T := {p.withQueue q with drained := p.drained ++ ((p.queues id).drainBatches limit).1.map (id,·)} with after
  have qid : q.id = id := (drain_frame _ limit).1.trans (sound.ids id)
  have queue : p'.queues id = q := by
    rw [← qid]
    exact Function.update_self ..
  have others {id' : Nat} (other : id' ≠ id) : p'.queues id' = p.queues id' :=
    Function.update_of_ne (qid ▸ other) _ _
  have owners (id' : Nat) : (p'.queues id').owners = (p.queues id').owners := by
    by_cases same : id' = id
    · rw [same,queue,made,drain_owners]
    · rw [others same]
  have given (id' ring : Nat) : p'.given id' ring = p.given id' ring := by
    have log : p'.drained = p.drained ++ ((p.queues id).drainBatches limit).1.map (id,·) := rfl
    rw [given,log,ownedBy_append,ownedBy_append,ownedBy_map,Process.given]
    by_cases same : id' = id
    · subst same
      rw [if_pos rfl,queue,made,drain_splits (sound.distinct id') limit ring,List.append_assoc]
    · rw [if_neg (Ne.symm same),others same,ownedBy_nil,List.append_nil]
  refine ⟨sound.timed,fun id' => ?_,fun id' => ?_,fun id' => ?_,sound.logged,fun id' ring => ?_,sound.brk,fun t => ?_,
    sound.alone⟩
  · by_cases same : id' = id
    · rw [same,queue,qid]
    · rw [others same]
      exact sound.ids id'
  · rw [owners]
    exact sound.distinct id'
  · rw [owners]
    exact sound.numbered id'
  · rw [given]
    exact sound.kept id' ring
  · refine (sound.seats t).imp_right fun ⟨id',ring,seated⟩ => ⟨id',ring,{seated with known := seated.known,member := ?_,told := ?_}⟩
    · rw [owners]
      exact seated.member
    · rw [given]
      exact seated.told

-- The threads' part of the invariant after thread `t` alone has changed.
section Calls

variable [DecidableEq T]

theorem alone_put (alone : ∀ t u x, (p.threads t).cold.producer = some x → (p.threads u).cold.producer = some x → t = u)
    {l : Local Nat} (own : ∀ u x, u ≠ t → l.cold.producer = some x → (p.threads u).cold.producer ≠ some x) (v u : T)
    (x : Nat × Nat) (left : ((p.put t l).threads v).cold.producer = some x)
    (right : ((p.put t l).threads u).cold.producer = some x) : v = u := by
  by_cases first : v = t <;> by_cases second : u = t
  · exact first.trans second.symm
  · subst first
    simp only [put,Function.update_self,Function.update_of_ne second] at left right
    exact absurd right (own u x second left)
  · subst second
    simp only [put,Function.update_self,Function.update_of_ne first] at left right
    exact absurd left (own v x first right)
  · simp only [put,Function.update_of_ne first,Function.update_of_ne second] at left right
    exact alone v u x left right

theorem lands_sound (sound : Sound tidOf p) (known : 0 < id ∧ id < p.nextQueueId) (member : ring ∈ (p.queues id).owners)
    (vacant : ∀ u, (p.threads u).cold.producer = some (id,ring) → u = t) {carried fresh : List Stamp}
    (told : (stampsOf (p.given id ring) ++ carried).Sublist (p.said id ring)) {q : EventQueue Nat} {l : Local Nat}
    (lands : Lands (tidOf t) ring carried fresh (p.queues id) q l) :
    Sound tidOf {(p.put t l).withQueue q with deeds := p.deeds ++ fresh.map (.pushed id ring)} := by
  set p' : Process T := {(p.put t l).withQueue q with deeds := p.deeds ++ fresh.map (.pushed id ring)} with made
  have qid : q.id = id := lands.id.trans (sound.ids id)
  have history : p'.history = p.history ++ fresh.map (.pushed id ring) := (List.append_assoc ..).symm
  have said (id' ring' : Nat) : p'.said id' ring' = p.said id' ring' ++ if id = id' ∧ ring = ring' then fresh else [] := by
    rw [said,history,said_more]
    rfl
  have queue : p'.queues id = q := by
    rw [← qid]
    exact Function.update_self ..
  have others {id' : Nat} (other : id' ≠ id) : p'.queues id' = p.queues id' :=
    Function.update_of_ne (qid ▸ other) _ _
  have owners (id' : Nat) : (p'.queues id').owners = (p.queues id').owners := by
    by_cases same : id' = id
    · rw [same,queue,lands.owners]
    · rw [others same]
  obtain ⟨out,held,moved⟩ := lands.hands
  have given (id' ring' : Nat) : p'.given id' ring' = p.given id' ring' ++ if id = id' ∧ ring = ring' then out else [] := by
    by_cases same : id' = id
    · subst same
      rw [given,queue,held,← List.append_assoc,Process.given]
      congr 1
      exact if_congr (by simp) rfl rfl
    · rw [given,others same,if_neg fun both => same both.1.symm,List.append_nil]
      rfl
  have told' : (stampsOf (p'.given id ring) ++ openStamps l).Sublist (p'.said id ring) := by
    rw [given,said,if_pos ⟨rfl,rfl⟩,if_pos ⟨rfl,rfl⟩,stampsOf_append,List.append_assoc]
    refine (moved.append_left _).trans ?_
    rw [← List.append_assoc]
    exact told.append_right _
  have producer : l.cold.producer = some (id,ring) := sound.ids id ▸ lands.producer
  have self : p'.Seated (tidOf t) l id ring :=
    ⟨producer,lands.queueId.trans (sound.ids id),known,by rw [owners]; exact member,lands.ready,told'⟩
  refine ⟨sound.timed.push known fresh,fun id' => ?_,fun id' => ?_,fun id' => ?_,fun x inside => ?_,fun id' ring' => ?_,
    fun u => ?_,fun u => ?_,fun u v x left right => ?_⟩
  · by_cases same : id' = id
    · rw [same,queue,qid]
    · rw [others same]
      exact sound.ids id'
  · rw [owners]
    exact sound.distinct id'
  · rw [owners]
    exact sound.numbered id'
  · rw [history,pushes_append,pushes_fresh,List.mem_append] at inside
    rcases inside with old | new
    · exact sound.logged x old
    · obtain ⟨y,inside,rfl⟩ := List.mem_map.mp new
      obtain ⟨_,_,rfl⟩ := List.mem_map.mp inside
      exact sound.numbered id ring member
  · by_cases here : id = id' ∧ ring = ring'
    · obtain ⟨rfl,rfl⟩ := here
      exact (List.sublist_append_left _ _).trans told'
    · rw [given,said,if_neg here,if_neg here,List.append_nil,List.append_nil]
      exact sound.kept id' ring'
  · by_cases mine : u = t
    · subst mine
      have here : p'.threads u = l := Function.update_self ..
      rw [here]
      exact lands.ready.brk
    · have same : p'.threads u = p.threads u := Function.update_of_ne mine _ _
      rw [same]
      exact sound.brk u
  · by_cases mine : u = t
    · subst mine
      have here : p'.threads u = l := Function.update_self ..
      rw [here]
      exact .inr ⟨id,ring,self⟩
    · have same : p'.threads u = p.threads u := Function.update_of_ne mine _ _
      rw [same]
      refine (sound.seats u).imp_right fun ⟨id',ring',other⟩ => ⟨id',ring',{other with known := other.known,member := ?_,told := ?_}⟩
      · rw [owners]
        exact other.member
      · have apart : ¬(id = id' ∧ ring = ring') := by
          rintro ⟨rfl,rfl⟩
          exact mine (vacant u other.producer)
        rw [given,said,if_neg apart,if_neg apart,List.append_nil,List.append_nil]
        exact other.told
  · refine alone_put sound.alone (fun u x other mine clash => ?_) u v x left right
    rw [producer,Option.some.injEq] at mine
    exact other (vacant u (mine ▸ clash))

theorem open_sound (sound : Sound tidOf p) (known : 0 < id ∧ id < p.nextQueueId) (stale : (p.queues id).stale (p.threads t) = true)
    (miss : EventQueue.fastPath (p.threads t) id ticks = false) (codeId : UInt32) (kind : EventKind) :
    ∃ p', p.push tidOf t id ticks codeId kind = some p' ∧ Sound tidOf p' := by
  have here : p.has id = true := by simpa [has] using known
  obtain ⟨l,pushed,lands⟩ := push_opens (sound.brk t) stale miss (tidOf t) p.nextRing codeId kind
  set q := ((p.queues id).initRing p.nextRing (p.threads t) ticks (tidOf t)).1 with made
  have qid : q.id = id := sound.ids id
  have unused : p.nextRing ∉ (p.queues id).owners := fun inside => Nat.lt_irrefl _ (sound.numbered id _ inside)
  -- first the ring, then the thread that takes it
  have wider := later_sound sound (if t ∈ p.recorders then p.recorders else p.recorders ++ [t]) 1
  have placed := ring_sound wider id (Nat.lt_succ_self p.nextRing) unused (p.threads t) ticks (tidOf t)
  set p₁ : Process T := {p with
    recorders := if t ∈ p.recorders then p.recorders else p.recorders ++ [t]
    nextRing := p.nextRing+1} with entered
  have queue : (p₁.withQueue q).queues id = q := by
    rw [← qid]
    exact Function.update_self ..
  have told := placed.kept id p.nextRing
  rw [← List.append_nil (stampsOf _)] at told
  have after := lands_sound (t := t) placed known (by rw [queue,initRing_owners]; exact List.mem_append_right _ List.mem_cons_self)
    (fun u clash => ?_) told (queue.symm ▸ lands)
  · have ring : (feeds l).2 = p.nextRing := by simp [feeds,lands.producer]
    refine ⟨_,?_,after⟩
    rw [push,if_pos here]
    simp only [pushed,miss,stale,ring,Option.map_some,Bool.not_false,Bool.true_and,if_true]
    simp only [withQueue,put,register,entered,stamp,List.map_cons,List.map_nil,← made,qid,Function.update_self,
      Function.update_idem]
  · rcases sound.seats u with unseated | ⟨id',ring,seated⟩
    · have none : (p.threads u).cold.producer = none := unseated.producer
      have clash : (p.threads u).cold.producer = some (id,p.nextRing) := clash
      rw [none] at clash
      cases clash
    · have clash : (p.threads u).cold.producer = some (id,p.nextRing) := clash
      rw [seated.producer] at clash
      cases clash
      exact absurd (sound.numbered id _ seated.member) (Nat.lt_irrefl _)

theorem push_goes (sound : Sound tidOf p) (known : 0 < id ∧ id < p.nextQueueId) (t : T) (ticks : UInt64) (codeId : UInt32)
    (kind : EventKind) : ∃ p', p.push tidOf t id ticks codeId kind = some p' ∧ Sound tidOf p' := by
  have here : p.has id = true := by simpa [has] using known
  rcases sound.seats t with unseated | ⟨id',ring,seated⟩
  · have miss : EventQueue.fastPath (p.threads t) id ticks = false := by
      simp [EventQueue.fastPath,unseated.cursor,unseated.endAt]
    exact open_sound sound known (by simp [EventQueue.stale,unseated.producer]) miss codeId kind
  · by_cases same : id' = id
    · subst same
      have own : (p.queues id').id = id' := sound.ids id'
      obtain ⟨q,l,pushed,lands⟩ := push_lands id' seated.ready (sound.distinct id') seated.member
        (own.symm ▸ seated.producer) (own.symm ▸ seated.queueId) p.nextRing ticks codeId kind
      have after := lands_sound sound seated.known seated.member
        (fun u clash => sound.alone u t _ clash seated.producer) seated.told lands
      have fresh : (p.queues id').stale (p.threads t) = false := by simp [EventQueue.stale,seated.producer,own]
      have ring' : (feeds l).2 = ring := by simp [feeds,lands.producer]
      refine ⟨_,?_,later_sound after p.recorders 1⟩
      rw [push,if_pos here]
      simp only [pushed,fresh,Bool.and_false,Bool.false_eq_true,if_false,Option.map_some,ring']
      rfl
    · have miss : EventQueue.fastPath (p.threads t) id ticks = false := by
        simp [EventQueue.fastPath,seated.queueId,same]
      exact open_sound sound known (by simp [EventQueue.stale,seated.producer,sound.ids,same]) miss codeId kind

theorem flush_goes (sound : Sound tidOf p) (t : T) : ∃ p', p.flush t = some p' ∧ Sound tidOf p' := by
  rcases sound.seats t with unseated | ⟨id,ring,seated⟩
  · refine ⟨p,?_,sound⟩
    have feeds : feeds (p.threads t) = (0,0) := by simp [Process.feeds,unseated.producer]
    rw [flush,feeds,flush_unseated unseated]
    simp [put,withQueue,Function.update_eq_self,sound.ids 0]
  · have own : (p.queues id).id = id := sound.ids id
    obtain ⟨q,l,lost,flushed,lands⟩ := flush_lands seated.ready (sound.distinct id) seated.member
      (own.symm ▸ seated.producer) (own.symm ▸ seated.queueId)
    have after := lands_sound sound seated.known seated.member
      (fun u clash => sound.alone u t _ clash seated.producer) seated.told lands
    have feeds : feeds (p.threads t) = (id,ring) := by simp [Process.feeds,seated.producer]
    refine ⟨(p.put t l).withQueue q,by simp [flush,feeds,flushed],?_⟩
    simpa [withQueue,put] using after

theorem flushEveryThread_goes (sound : Sound tidOf p) : ∃ p', p.flushEveryThread = some p' ∧ Sound tidOf p' := by
  unfold flushEveryThread
  induction p.recorders generalizing p with
  | nil => exact ⟨p,rfl,sound⟩
  | cons t rest ih =>
    obtain ⟨m,flushed,between⟩ := flush_goes sound t
    obtain ⟨p',ran,after⟩ := ih between
    exact ⟨p',by rw [List.foldlM_cons,flushed]; exact ran,after⟩

theorem vacate_sound (sound : Sound tidOf p) (t : T) : Sound tidOf (p.put t .fresh) := by
  have self : (p.put t .fresh).threads t = .fresh := Function.update_self ..
  have others {u : T} (other : u ≠ t) : (p.put t .fresh).threads u = p.threads u := Function.update_of_ne other _ _
  refine {sound with brk := fun u => ?_,seats := fun u => ?_,alone := alone_put sound.alone (fun u x _ => nofun)}
  · by_cases mine : u = t
    · rw [mine,self]
      exact Nat.one_pos
    · rw [others mine]
      exact sound.brk u
  · by_cases mine : u = t
    · rw [mine,self]
      exact .inl ⟨rfl,rfl,rfl,rfl⟩
    · rw [others mine]
      exact (sound.seats u).imp_right fun ⟨id,ring,seated⟩ => ⟨id,ring,{seated with}⟩

theorem exit_goes (sound : Sound tidOf p) (t : T) : ∃ p', p.exit t = some p' ∧ Sound tidOf p' := by
  have left : Sound tidOf {p with recorders := p.recorders.filter (· ≠ t)} := later_sound sound _ 0
  obtain ⟨m,flushed,between⟩ := flush_goes left t
  exact ⟨m.put t .fresh,by rw [exit,flushed]; rfl,vacate_sound between t⟩

def Known (p : Process T) : Move T → Prop
  | .push _ id _ _ _ | .drain id _ => 0 < id ∧ id < p.nextQueueId
  | _ => True

theorem step_goes (sound : Sound tidOf p) {move : Move T} (known : p.Known move) :
    ∃ p', p.step tidOf move = some p' ∧ Sound tidOf p' := by
  cases move with
  | newQueue clock => exact ⟨_,rfl,newQueue_sound sound clock⟩
  | push t id ticks codeId kind => exact push_goes sound known t ticks codeId kind
  | flush t => exact flush_goes sound t
  | flushEveryThread => exact flushEveryThread_goes sound
  | drain id limit =>
    have known : 0 < id ∧ id < p.nextQueueId := known
    have here : p.has id = true := by simpa [has] using known
    exact ⟨_,if_pos here,drain_sound sound id limit⟩
  | forgetOtherThreads t => exact ⟨_,rfl,later_sound sound _ 0⟩
  | exit t => exact exit_goes sound t

theorem step_sound (sound : Sound tidOf p) {move : Move T} (stepped : p.step tidOf move = some p') : Sound tidOf p' := by
  have known : p.Known move := by
    cases move with
    | push t id ticks codeId kind =>
      simp only [step,push] at stepped
      split at stepped
      · rename_i here
        simpa [Known,has] using here
      · cases stepped
    | drain id limit =>
      simp only [step,drain] at stepped
      split at stepped
      · rename_i here
        simpa [Known,has] using here
      · cases stepped
    | _ => trivial
  obtain ⟨m,again,after⟩ := step_goes sound known
  rw [stepped,Option.some.injEq] at again
  exact again ▸ after

end Calls

theorem returned_pushed (sound : Sound tidOf p) (id : Nat) :
    (stampsOf (p.returned id)).Subperm (pushedTo id p.history) := by
  have rings (batches : List (Nat × EventBatch)) :
      stampsOf (batches.map (·.2)) = (batches.flatMap fun x => (stamps x.2).map (x.1,·)).map (·.2) := by
    simp [stampsOf,List.flatMap_map,List.map_flatMap,Function.comp_def]
  have owned (ring : Nat) (batches : List (Nat × EventBatch)) :
      ownedBy ring (batches.flatMap fun x => (stamps x.2).map (x.1,·)) = stampsOf (ownedBy ring batches) := by
    induction batches with
    | nil => rfl
    | cons x rest ih =>
      rw [List.flatMap_cons,ownedBy_append,ownedBy_map,ih,Keyed.ownedBy_cons,stampsOf_append]
      congr 1
      split <;> simp [stampsOf]
  have apart : ((ownedBy id p.drained).flatMap fun x => (stamps x.2).map (x.1,·)).Subperm
      (ownedBy id (pushes (since id p.history))) := by
    refine Keyed.subperm_of_owned fun ring => ?_
    have later : ownedBy id (pushes (since id p.history)) = ownedBy id (pushes p.history) := sound.timed.later id
    rw [owned,later]
    have part : (stampsOf (ownedBy ring (ownedBy id p.drained))).Sublist (stampsOf (p.given id ring)) := by
      rw [given,stampsOf_append]
      exact List.sublist_append_left _ _
    exact (part.trans (sound.kept id ring)).subperm
  obtain ⟨some_,reordered,part⟩ := apart
  rw [returned,rings,pushedTo]
  exact ⟨_,reordered.map _,part.map _⟩

end Process

theorem fork_all [DecidableEq T] {tidOf : T → UInt32} {processes processes' : List (Process T)} {act : Act T}
    (sound : ∀ p ∈ processes, p.Sound tidOf) (stepped : step tidOf processes act = some processes') :
    ∀ p ∈ processes', p.Sound tidOf := by
  cases act with
  | run pid move =>
    obtain ⟨p,here,rest⟩ := Option.bind_eq_some_iff.mp stepped
    obtain ⟨p',moved,rest⟩ := Option.bind_eq_some_iff.mp rest
    cases Option.some.inj rest
    intro x member
    rcases List.mem_or_eq_of_mem_set member with old | rfl
    · exact sound x old
    · exact Process.step_sound (sound p (List.mem_of_getElem? here)) moved
  | fork pid =>
    obtain ⟨p,here,rfl⟩ := Option.map_eq_some_iff.mp stepped
    intro x member
    rcases List.mem_append.mp member with old | new
    · exact sound x old
    · cases List.mem_singleton.mp new
      exact Process.fork_sound (sound p (List.mem_of_getElem? here))

theorem runs_apart [DecidableEq T] (tidOf : T → UInt32) {acts : List (Act T)} {processes : List (Process T)}
    (run : Machine.Runs (step tidOf) Machine.anything [.initial] acts processes) :
    ∀ p ∈ processes, ∀ id, (stampsOf (p.returned id)).Subperm (pushedTo id p.history) ∧
      (.created id ∈ p.deeds → (stampsOf (p.returned id)).Subperm (pushedTo id p.deeds)) := by
  have sound := run.invariant (I := fun processes => ∀ p ∈ processes, p.Sound tidOf)
    (fun p member => List.mem_singleton.mp member ▸ Process.initial_sound) fun _ _ _ before _ stepped => fork_all before stepped
  intro p member id
  have all := Process.returned_pushed (sound p member) id
  refine ⟨all,fun created => ?_⟩
  rwa [Process.history,(sound p member).timed.own created] at all

-- A thread with an open batch of the parent's queue goes on in the child with a queue of its own.
def forkedRun : List (Act Unit) :=
  [.run 0 (.newQueue .mock),.run 0 (.push () 1 100 7 .Begin),.fork 0,.run 1 (.forgetOtherThreads ()),.run 1 (.newQueue .mock),
    .run 1 (.push () 2 200 7 .End),.run 1 .flushEveryThread,.run 1 (.drain 2 8),.run 0 (.flush ()),.run 0 (.drain 1 8)]

theorem runs_apart_forked : ∃ (processes : List (Process Unit)) (child : Process Unit),
    Machine.Runs (step fun _ => 1) Machine.anything [.initial] forkedRun processes ∧ processes[1]? = some child ∧
      stampsOf (child.returned 2) = [stamp 1 200 7 .End] ∧
      (stampsOf (child.returned 2)).Subperm (pushedTo 2 child.deeds) := by
  have checked : ((Machine.run (step fun _ => 1) [.initial] forkedRun).bind fun processes => processes[1]?.bind fun child =>
      if stampsOf (child.returned 2) = [stamp 1 200 7 .End] ∧ .created 2 ∈ child.deeds then some () else none) =
      some () := by decide +kernel
  obtain ⟨processes,ran,checked⟩ := Option.bind_eq_some_iff.mp checked
  obtain ⟨child,there,checked⟩ := Option.bind_eq_some_iff.mp checked
  obtain ⟨⟨one,created⟩,_⟩ := Option.ite_none_right_eq_some.mp checked
  have run := Machine.runs_of_run ran
  exact ⟨processes,child,run,there,one,(runs_apart (fun _ => 1) run child (List.mem_of_getElem? there) 2).2 created⟩

end Trace0.Forks
