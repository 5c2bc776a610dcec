import Trace0.EvQueue
import Trace0.Lib.Brackets
import Trace0.Lib.StableSort

namespace Trace0
open Brackets

-- One event of a thread's stream: ticks and code_kind.
abbrev Entry := UInt64 × UInt32

def freshTails (history tails : List EventBatch) : List EventBatch :=
  tails.filter fun t => !history.any fun h => h.tid = t.tid && h.baseTicks = t.baseTicks

def addTo : List (UInt32 × List Entry) → EventBatch → List (UInt32 × List Entry)
  | [],batch => [(batch.tid,batch.entries)]
  | (tid,stream) :: rest,batch =>
    if tid = batch.tid then (tid,stream ++ batch.entries) :: rest
    else (tid,stream) :: addTo rest batch

def streams (batches : List EventBatch) : List (UInt32 × List Entry) := batches.foldl addTo []

def carriedOpens (tid : UInt32) (stack : List Entry) : List (UInt64 × UInt32 × UInt32) :=
  stack.reverse.map fun e => (e.1,tid,e.2)

-- The stack is a list with its top first. The third arm of the source's loop, a tick behind
-- the window, returns at once and leaves the rest of the stream unread.
def replay (tid : UInt32) (horizon start end_ : UInt64) :
    List Entry → List Entry → Bool → List (UInt64 × UInt32 × UInt32)
  | [],stack,emitted => if emitted then [] else carriedOpens tid stack
  | (ticks,codeKind) :: rest,stack,emitted =>
    if ticks < start then
      replay tid horizon start end_ rest
        (if opens codeKind then (ticks,codeKind) :: stack else stack.tail) emitted
    else
      (if emitted then [] else carriedOpens tid stack) ++
        if end_ < ticks then []
        else if opens codeKind then
          (ticks,tid,codeKind) :: replay tid horizon start end_ rest ((ticks,codeKind) :: stack) true
        else
          (if stack = [] then [(horizon,tid,packCodeKind (codeKind &&& codeIdMask) .Begin)] else []) ++
            (ticks,tid,codeKind) :: replay tid horizon start end_ rest stack.tail true

def toEvent (clock : Clock) (record : UInt64 × UInt32 × UInt32) : Event :=
  .new (clock.nsSinceStart record.1) record.2.1 (record.2.2 &&& codeIdMask) (kindOf record.2.2)

def assemble (history tails : List EventBatch) (clock : Clock) (horizon start end_ : UInt64) :
    List Event :=
  let out := (streams (history ++ freshTails history tails)).flatMap fun s =>
    replay s.1 horizon start end_ s.2 [] false
  (StableSort.sortByKey (fun record => record.1.toNat) out).map (toEvent clock)

section Streams

def streamOf (tid : UInt32) (batches : List EventBatch) : List Entry :=
  (batches.filter (·.tid = tid)).flatMap (·.entries)

theorem streamOf_append (tid : UInt32) (left right : List EventBatch) :
    streamOf tid (left ++ right) = streamOf tid left ++ streamOf tid right := by simp [streamOf]

theorem addTo_tids (all : List (UInt32 × List Entry)) (batch : EventBatch) :
    (addTo all batch).map (·.1) =
      all.map (·.1) ++ if batch.tid ∈ all.map (·.1) then [] else [batch.tid] := by
  induction all with
  | nil => rfl
  | cons s rest ih =>
    unfold addTo
    split
    · rename_i same
      simp [same]
    · rename_i other
      have same : batch.tid ∈ s.1 :: rest.map (·.1) ↔ batch.tid ∈ rest.map (·.1) := by
        simp [Ne.symm other]
      rw [List.map_cons,ih,List.map_cons,List.cons_append]
      by_cases known : batch.tid ∈ rest.map (·.1)
      · rw [if_pos known,if_pos (same.mpr known)]
      · rw [if_neg known,if_neg fun inside => known (same.mp inside)]

theorem addTo_mem {all : List (UInt32 × List Entry)} {batch : EventBatch} {tid : UInt32}
    {stream : List Entry} (distinct : (all.map (·.1)).Nodup) :
    (tid,stream) ∈ addTo all batch ↔
      if tid = batch.tid then
        (∃ before, (tid,before) ∈ all ∧ stream = before ++ batch.entries) ∨
          tid ∉ all.map (·.1) ∧ stream = batch.entries
      else (tid,stream) ∈ all := by
  induction all with
  | nil => by_cases same : tid = batch.tid <;> simp [addTo,same]
  | cons s rest ih =>
    obtain ⟨u,before⟩ := s
    simp only [List.map_cons,List.nodup_cons] at distinct
    have ih := ih distinct.2
    unfold addTo
    split
    · rename_i mine
      by_cases same : tid = batch.tid
      · have gone : ∀ x, (tid,x) ∉ rest := fun x present =>
          distinct.1 (List.mem_map.mpr ⟨_,present,same.trans mine.symm⟩)
        subst tid
        subst u
        simp [gone]
      · have other : tid ≠ u := fun equal => same (equal.trans mine)
        simp [same,other]
    · rename_i theirs
      by_cases same : tid = batch.tid
      · have other : ¬batch.tid = u := fun equal => theirs equal.symm
        rw [if_pos same] at ih
        subst tid
        simp only [List.mem_cons,Prod.mk.injEq,other,false_and,false_or,if_true,List.map_cons,ih]
      · simp only [same,if_false] at ih ⊢
        simp only [List.mem_cons,ih]

theorem streams_tids (batches : List EventBatch) : ((streams batches).map (·.1)).Nodup ∧
    ∀ tid, tid ∈ (streams batches).map (·.1) ↔ ∃ b ∈ batches, b.tid = tid := by
  induction batches using List.reverseRecOn with
  | nil => simp [streams]
  | append_singleton batches b ih =>
    obtain ⟨distinct,tids⟩ := ih
    have grown : streams (batches ++ [b]) = addTo (streams batches) b := by simp [streams]
    rw [grown,addTo_tids]
    constructor
    · split
      · simpa using distinct
      · rename_i absent
        exact List.nodup_append.mpr ⟨distinct,by simp,fun u inside v last same =>
          absent (by simpa [← List.mem_singleton.mp last,same] using inside)⟩
    · intro tid
      split
      · rename_i present
        rw [List.append_nil,tids]
        constructor
        · rintro ⟨c,inside,same⟩
          exact ⟨c,List.mem_append_left _ inside,same⟩
        · rintro ⟨c,inside,rfl⟩
          rcases List.mem_append.mp inside with earlier | last
          · exact ⟨c,earlier,rfl⟩
          · rw [List.mem_singleton.mp last]
            exact (tids b.tid).mp present
      · rw [List.mem_append,tids]
        simp [or_and_right,exists_or,eq_comm]

theorem streams_mem {batches : List EventBatch} {tid : UInt32} {stream : List Entry} :
    (tid,stream) ∈ streams batches ↔
      (∃ b ∈ batches, b.tid = tid) ∧ stream = streamOf tid batches := by
  induction batches using List.reverseRecOn generalizing stream with
  | nil => simp [streams]
  | append_singleton batches b ih =>
    have grown : streams (batches ++ [b]) = addTo (streams batches) b := by simp [streams]
    obtain ⟨distinct,tids⟩ := streams_tids batches
    rw [grown,addTo_mem distinct,streamOf_append]
    by_cases same : tid = b.tid
    · have own : streamOf tid [b] = b.entries := by simp [streamOf,same]
      rw [if_pos same,own,tids]
      constructor
      · rintro (⟨before,present,rfl⟩ | ⟨absent,rfl⟩)
        · exact ⟨⟨b,by simp,same.symm⟩,by rw [(ih.mp present).2]⟩
        · have none : streamOf tid batches = [] := by
            simp only [streamOf,List.flatMap_eq_nil_iff,List.mem_filter,decide_eq_true_eq]
            exact fun c present => absurd ⟨c,present.1,present.2⟩ absent
          exact ⟨⟨b,by simp,same.symm⟩,by rw [none,List.nil_append]⟩
      · rintro ⟨_,rfl⟩
        by_cases known : ∃ c ∈ batches, c.tid = tid
        · exact .inl ⟨_,ih.mpr ⟨known,rfl⟩,rfl⟩
        · have none : streamOf tid batches = [] := by
            simp only [streamOf,List.flatMap_eq_nil_iff,List.mem_filter,decide_eq_true_eq]
            exact fun c present => absurd ⟨c,present.1,present.2⟩ known
          exact .inr ⟨known,by rw [none,List.nil_append]⟩
    · have none : streamOf tid [b] = [] := by simp [streamOf,Ne.symm same]
      rw [if_neg same,ih,none,List.append_nil]
      simp [or_and_right,exists_or,Ne.symm same]

theorem keyed_filter {all : List (UInt32 × List Entry)} {tid : UInt32} {stream : List Entry}
    (distinct : (all.map (·.1)).Nodup) (present : (tid,stream) ∈ all) :
    all.filter (·.1 = tid) = [(tid,stream)] := by
  induction all with
  | nil => cases present
  | cons s rest ih =>
    simp only [List.map_cons,List.nodup_cons] at distinct
    rcases List.mem_cons.mp present with rfl | later
    · have gone : rest.filter (·.1 = tid) = [] := by
        rw [List.filter_eq_nil_iff]
        intro s inside same
        exact distinct.1 (List.mem_map.mpr ⟨s,inside,by simpa using same⟩)
      simp [gone]
    · have other : s.1 ≠ tid := fun same =>
        distinct.1 (List.mem_map.mpr ⟨_,later,same.symm⟩)
      simp [other,ih distinct.2 later]

theorem streams_filter (batches : List EventBatch) (tid : UInt32) :
    (streams batches).filter (·.1 = tid) = [(tid,streamOf tid batches)] ∨
      (streams batches).filter (·.1 = tid) = [] ∧ streamOf tid batches = [] := by
  obtain ⟨distinct,tids⟩ := streams_tids batches
  by_cases known : ∃ b ∈ batches, b.tid = tid
  · exact .inl (keyed_filter distinct (streams_mem.mpr ⟨known,rfl⟩))
  · refine .inr ⟨?_,?_⟩
    · rw [List.filter_eq_nil_iff]
      intro s inside same
      exact known ((tids tid).mp (List.mem_map.mpr ⟨s,inside,by simpa using same⟩))
    · simp only [streamOf,List.flatMap_eq_nil_iff,List.mem_filter,decide_eq_true_eq]
      exact fun b present => absurd ⟨b,present.1,present.2⟩ known

theorem streams_of {batches : List EventBatch} {tid : UInt32} (some_ : streamOf tid batches ≠ []) :
    (tid,streamOf tid batches) ∈ streams batches := by
  rcases streams_filter batches tid with one | ⟨_,none⟩
  · apply List.mem_of_mem_filter (p := fun s => s.1 = tid)
    rw [one]
    exact List.mem_singleton_self _
  · exact absurd none some_

end Streams

section Emissions

variable {α : Type} (entry : α → Entry)

-- A record of `replay` and the event it was written for.
inductive Emit (α : Type) where
  | carried (a : α)
  | synthesized (close : α)
  | event (a : α)
  deriving DecidableEq

def Emit.ticks (horizon : UInt64) : Emit α → UInt64
  | .synthesized _ => horizon
  | .carried a | .event a => (entry a).1

def Emit.codeKind : Emit α → UInt32
  | .synthesized close => packCodeKind ((entry close).2 &&& codeIdMask) .Begin
  | .carried a | .event a => (entry a).2

def Emit.record (tid : UInt32) (horizon : UInt64) (e : Emit α) : UInt64 × UInt32 × UInt32 :=
  (e.ticks entry horizon,tid,e.codeKind entry)

-- `replay` with every record still naming its event.
def emits (start end_ : UInt64) : List α → List α → Bool → List (Emit α)
  | [],stack,emitted => if emitted then [] else stack.reverse.map .carried
  | a :: rest,stack,emitted =>
    let next := if opens (entry a).2 then a :: stack else stack.tail
    if (entry a).1 < start then emits start end_ rest next emitted
    else
      (if emitted then [] else stack.reverse.map .carried) ++
        if end_ < (entry a).1 then []
        else
          (if ¬opens (entry a).2 ∧ stack = [] then [.synthesized a] else []) ++
            .event a :: emits start end_ rest next true

theorem replay_emits (tid : UInt32) (horizon start end_ : UInt64) (items stack : List α)
    (emitted : Bool) :
    replay tid horizon start end_ (items.map entry) (stack.map entry) emitted =
      (emits entry start end_ items stack emitted).map (Emit.record entry tid horizon) := by
  induction items generalizing stack emitted with
  | nil =>
    cases emitted <;>
      simp [replay,emits,carriedOpens,Emit.record,Emit.ticks,Emit.codeKind,Function.comp_def]
  | cons a rest ih =>
    have next : (if opens (entry a).2 then entry a :: stack.map entry else (stack.map entry).tail) =
        (if opens (entry a).2 then a :: stack else stack.tail).map entry := by
      split <;> simp
    have carried : carriedOpens tid (stack.map entry) =
        (stack.reverse.map Emit.carried).map (Emit.record entry tid horizon) := by
      simp [carriedOpens,Emit.record,Emit.ticks,Emit.codeKind,Function.comp_def]
    simp only [List.map_cons,replay,emits]
    by_cases early : (entry a).1 < start
    · simp only [early,if_true]
      rw [← ih,← next]
    · simp only [early,if_false,List.map_append]
      congr 1
      · split
        · rfl
        · exact carried
      · by_cases late : end_ < (entry a).1
        · simp [late]
        · by_cases opening : opens (entry a).2
          · have rest := ih (a :: stack) true
            simp only [List.map_cons] at rest
            simp [late,opening,rest,Emit.record,Emit.ticks,Emit.codeKind]
          · have rest := ih stack.tail true
            rw [List.map_tail] at rest
            by_cases empty : stack = []
            · simp [late,opening,empty] at rest ⊢
              simp [rest,Emit.record,Emit.ticks,Emit.codeKind]
            · simp [late,opening,empty,rest,Emit.record,Emit.ticks,Emit.codeKind]

def Emit.item : Emit α → α
  | .carried a | .synthesized a | .event a => a

theorem emits_item {start end_ : UInt64} {items stack : List α} {emitted : Bool} {e : Emit α}
    (present : e ∈ emits entry start end_ items stack emitted) : e.item ∈ items ∨ e.item ∈ stack := by
  have carried (stack : List α) (e : Emit α) (inside : e ∈ stack.reverse.map Emit.carried) : e.item ∈ stack := by
    obtain ⟨a,held,rfl⟩ := List.mem_map.mp inside
    exact List.mem_reverse.mp held
  induction items generalizing stack emitted with
  | nil =>
    cases emitted
    · exact .inr (carried stack e present)
    · cases present
  | cons a rest ih =>
    have later {stack' : List α} {emitted : Bool} (part : ∀ b ∈ stack', b = a ∨ b ∈ stack)
        (inside : e ∈ emits entry start end_ rest stack' emitted) : e.item ∈ a :: rest ∨ e.item ∈ stack := by
      rcases ih inside with ahead | held
      · exact .inl (List.mem_cons_of_mem _ ahead)
      · rcases part e.item held with rfl | below
        · exact .inl List.mem_cons_self
        · exact .inr below
    have next : ∀ b ∈ (if opens (entry a).2 then a :: stack else stack.tail), b = a ∨ b ∈ stack := by
      intro b held
      split at held
      · exact List.mem_cons.mp held
      · exact .inr (List.mem_of_mem_tail held)
    unfold emits at present
    dsimp only at present
    split at present
    · exact later next present
    · rcases List.mem_append.mp present with front | back
      · split at front
        · cases front
        · exact .inr (carried stack e front)
      · split at back
        · cases back
        · rcases List.mem_append.mp back with made | own
          · split at made
            · rw [List.mem_singleton.mp made]
              exact .inl List.mem_cons_self
            · cases made
          · rcases List.mem_cons.mp own with rfl | onwards
            · exact .inl List.mem_cons_self
            · exact later next onwards

theorem toEvent_codeId (clock : Clock) (tid : UInt32) (horizon : UInt64) (e : Emit α) :
    (toEvent clock (e.record entry tid horizon)).codeId = codeIdOf (entry e.item).2 := by
  have masked (codeKind : UInt32) : codeKind &&& codeIdMask = codeIdOf codeKind := rfl
  have again (codeKind : UInt32) : codeIdOf (codeIdOf codeKind) = codeIdOf codeKind := codeIdOf_mask codeKind
  cases e <;> simp [toEvent,Emit.record,Emit.codeKind,Emit.item,masked,again]

-- The records of a dump in the order it returns them, each naming its thread id and the item
-- it was written for; `items` are the streams with every event still told apart.
def labelled (items : UInt32 × List Entry → List α) (batches : List EventBatch)
    (horizon start end_ : UInt64) : List (UInt32 × Emit α) :=
  StableSort.sortByKey (fun x => (x.2.ticks entry horizon).toNat)
    ((streams batches).flatMap fun s => (emits entry start end_ (items s) [] false).map (s.1,·))

theorem assemble_labelled {items : UInt32 × List Entry → List α} {history tails : List EventBatch}
    (clock : Clock) (horizon start end_ : UInt64)
    (same : ∀ s ∈ streams (history ++ freshTails history tails), (items s).map entry = s.2) :
    assemble history tails clock horizon start end_ =
      (labelled entry items (history ++ freshTails history tails) horizon start end_).map fun x =>
        toEvent clock (x.2.record entry x.1 horizon) := by
  have named (s : UInt32 × List Entry) (present : s ∈ streams (history ++ freshTails history tails)) :
      replay s.1 horizon start end_ s.2 [] false =
        ((emits entry start end_ (items s) [] false).map (s.1,·)).map fun x =>
          x.2.record entry x.1 horizon := by
    have records := replay_emits entry s.1 horizon start end_ (items s) [] false
    rw [same s present,List.map_nil] at records
    rw [records,List.map_map]
    rfl
  have keys := StableSort.map_comm (fun x : UInt32 × Emit α => (x.2.ticks entry horizon).toNat)
    (fun record : UInt64 × UInt32 × UInt32 => record.1.toNat) (fun x => x.2.record entry x.1 horizon)
    ((streams (history ++ freshTails history tails)).flatMap fun s =>
      (emits entry start end_ (items s) [] false).map (s.1,·)) fun x _ => rfl
  unfold assemble labelled
  simp only [List.flatMap_congr named]
  rw [← List.map_flatMap,← keys,List.map_map]
  rfl

def mark (a : α) : Bracket α := if opens (entry a).2 then .push a else .pop a

-- The part of a stream `replay` reads before a tick behind the window makes it return.
def reached (start end_ : UInt64) (items : List α) : List α :=
  items.takeWhile fun a => decide ((entry a).1 < start ∨ (entry a).1 ≤ end_)

def unmatched (start end_ : UInt64) (items : List α) : List α :=
  ((scan [] ((reached entry start end_ items).map (mark entry))).2).filter
    fun a => decide (start ≤ (entry a).1)

theorem scan_mark (stack : List α) (a : α) (word : List (Bracket α)) :
    scan stack (mark entry a :: word) =
      ((scan (if opens (entry a).2 then a :: stack else stack.tail) word).1,
        (if ¬opens (entry a).2 ∧ stack = [] then [a] else []) ++
          (scan (if opens (entry a).2 then a :: stack else stack.tail) word).2) := by
  by_cases opening : opens (entry a).2
  · simp [mark,opening,scan]
  · cases stack <;> simp [mark,opening,scan]

def Emit.close? : Emit α → Option α
  | .synthesized close => some close
  | .carried _ | .event _ => none

theorem emits_unmatched (start end_ : UInt64) (items stack : List α) (emitted : Bool) :
    (emits entry start end_ items stack emitted).filterMap Emit.close? =
      (scan stack ((reached entry start end_ items).map (mark entry))).2.filter
        fun a => decide (start ≤ (entry a).1) := by
  have carried (stack : List α) : (stack.reverse.map Emit.carried).filterMap Emit.close? = [] := by
    simp [List.filterMap_eq_nil_iff,Emit.close?]
  induction items generalizing stack emitted with
  | nil =>
    cases emitted
    · simpa [emits,reached,scan] using carried stack
    · rfl
  | cons a rest ih =>
    unfold emits
    by_cases early : (entry a).1 < start
    · have read : reached entry start end_ (a :: rest) = a :: reached entry start end_ rest := by
        simp [reached,early]
      simp only [early,if_true]
      rw [ih,read,List.map_cons,scan_mark,List.filter_append]
      split <;> simp +contextual [early]
    · have inside : start ≤ (entry a).1 := UInt64.not_lt.mp early
      have front : (if emitted = true then [] else stack.reverse.map Emit.carried).filterMap
          Emit.close? = [] := by
        cases emitted
        · exact carried stack
        · rfl
      simp only [early,if_false,List.filterMap_append,front,List.nil_append]
      by_cases late : end_ < (entry a).1
      · have beyond : ¬(entry a).1 ≤ end_ := UInt64.not_le.mpr late
        simp [late,reached,early,beyond,scan]
      · have within : (entry a).1 ≤ end_ := UInt64.not_lt.mp late
        have read : reached entry start end_ (a :: rest) = a :: reached entry start end_ rest := by
          simp [reached,within]
        rw [if_neg late,read,List.map_cons,scan_mark,List.filterMap_append,List.filterMap_cons,
          List.filter_append,← ih _ true]
        congr 1
        split <;> simp [Emit.close?,inside]

theorem emits_pair {start end_ : UInt64} {items stack : List α} {emitted : Bool} {close : α}
    (present : .synthesized close ∈ emits entry start end_ items stack emitted) :
    [.synthesized close,.event close].Sublist (emits entry start end_ items stack emitted) := by
  induction items generalizing stack emitted with
  | nil => cases emitted <;> simp [emits] at present
  | cons a rest ih =>
    unfold emits at present ⊢
    dsimp only at present ⊢
    split at present
    · rename_i early
      rw [if_pos early]
      exact ih present
    · rename_i inside
      rw [if_neg inside]
      refine .trans ?_ (List.sublist_append_right _ _)
      have here := (List.mem_append.mp present).resolve_left (by cases emitted <;> simp)
      split at here
      · cases here
      · rename_i within
        rw [if_neg within]
        rcases List.mem_append.mp here with made | later
        · split at made
          · rename_i missing
            cases List.mem_singleton.mp made
            rw [if_pos missing]
            exact .cons_cons _ (.cons_cons _ (List.nil_sublist _))
          · cases made
        · refine .trans (.cons _ ?_) (List.sublist_append_right _ _)
          exact ih ((List.mem_cons.mp later).resolve_left (by simp))

end Emissions

end Trace0
