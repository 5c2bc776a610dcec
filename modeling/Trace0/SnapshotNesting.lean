import Trace0.Snapshot
import Mathlib.Data.List.TakeWhile

namespace Trace0
open Brackets

def codeMark (codeKind : UInt32) : Bracket UInt32 :=
  if opens codeKind then .push (codeIdOf codeKind) else .pop (codeIdOf codeKind)

def Event.mark (e : Event) : Bracket UInt32 := codeMark e.codeKind

theorem toEvent_mark (clock : Clock) (record : UInt64 × UInt32 × UInt32) :
    (toEvent clock record).mark = codeMark record.2.2 := by
  have code : codeIdOf (toEvent clock record).codeKind = codeIdOf record.2.2 := by
    simp only [toEvent,Event.new,codeIdOf_pack]
    exact codeIdOf_mask record.2.2
  have kind : opens (toEvent clock record).codeKind = opens record.2.2 := opens_pack _ _
  simp only [Event.mark,codeMark,code,kind]

section Threads

variable (history tails : List EventBatch) (clock : Clock) (horizon start end_ : UInt64)
  (tid : UInt32)

theorem replay_tid (stream stack : List Entry) (emitted : Bool) :
    ∀ r ∈ replay tid horizon start end_ stream stack emitted, r.2.1 = tid := by
  have named := replay_emits id tid horizon start end_ stream stack emitted
  simp only [List.map_id] at named
  rw [named]
  intro r present
  obtain ⟨e,_,rfl⟩ := List.mem_map.mp present
  rfl

theorem replays_filter (all : List (UInt32 × List Entry)) :
    (all.flatMap fun s => replay s.1 horizon start end_ s.2 [] false).filter (·.2.1 = tid) =
      (all.filter (·.1 = tid)).flatMap fun s => replay s.1 horizon start end_ s.2 [] false := by
  induction all with
  | nil => rfl
  | cons s rest ih =>
    have tids := replay_tid horizon start end_ s.1 s.2 [] false
    rw [List.flatMap_cons,List.filter_append,ih]
    by_cases same : s.1 = tid
    · have all : (replay s.1 horizon start end_ s.2 [] false).filter (·.2.1 = tid) =
          replay s.1 horizon start end_ s.2 [] false :=
        List.filter_eq_self.mpr fun r present => by simp [tids r present,same]
      rw [all,List.filter_cons_of_pos (by simpa using same),List.flatMap_cons]
    · have none : (replay s.1 horizon start end_ s.2 [] false).filter (·.2.1 = tid) = [] :=
        List.filter_eq_nil_iff.mpr fun r present => by simp [tids r present,same]
      rw [none,List.filter_cons_of_neg (by simpa using same),List.nil_append]

theorem assemble_thread :
    (assemble history tails clock horizon start end_).filter (·.tid = tid) =
      (StableSort.sortByKey (fun record => record.1.toNat)
        (replay tid horizon start end_ (streamOf tid (history ++ freshTails history tails)) []
          false)).map (toEvent clock) := by
  have own (record : UInt64 × UInt32 × UInt32) : (toEvent clock record).tid = record.2.1 := rfl
  unfold assemble
  dsimp only
  rw [List.filter_map,StableSort.filter_comm]
  simp only [Function.comp_def,own]
  rw [replays_filter]
  rcases streams_filter (history ++ freshTails history tails) tid with single | ⟨none,empty⟩
  · rw [single,List.flatMap_singleton]
  · rw [none,empty]
    rfl

end Threads

section Nesting

variable {α : Type} (entry : α → Entry)

def codeOf (a : α) : UInt32 := codeIdOf (entry a).2

def Emit.mark (e : Emit α) : Bracket UInt32 := codeMark (e.codeKind entry)

theorem mark_map (a : α) : (Trace0.mark entry a).map (codeOf entry) = codeMark (entry a).2 := by
  unfold Trace0.mark codeMark
  split <;> rfl

theorem synthesized_mark (close : α) :
    (Emit.synthesized close).mark entry = .push (codeOf entry close) := by
  have code : codeIdOf (packCodeKind ((entry close).2 &&& codeIdMask) .Begin) =
      codeOf entry close := by
    rw [codeIdOf_pack]
    exact codeIdOf_mask (entry close).2
  have kind : opens (packCodeKind ((entry close).2 &&& codeIdMask) .Begin) = true := opens_pack _ _
  simp only [Emit.mark,Emit.codeKind,codeMark,code,kind,if_true]

def filled : List α → List α → List (Emit α)
  | _,[] => []
  | stack,a :: rest =>
    (if ¬opens (entry a).2 ∧ stack = [] then [.synthesized a] else []) ++
      .event a :: filled (if opens (entry a).2 then a :: stack else stack.tail) rest

theorem filled_append (stack left right : List α) :
    filled entry stack (left ++ right) = filled entry stack left ++
      filled entry (scan stack (left.map (Trace0.mark entry))).1 right := by
  induction left generalizing stack with
  | nil => rfl
  | cons a left ih =>
    simp only [List.cons_append,filled,List.map_cons,scan_mark,ih,List.append_assoc]

theorem emits_before (start end_ : UInt64) {before : List α} (early : ∀ a ∈ before, (entry a).1 < start)
    (rest stack : List α) (emitted : Bool) :
    emits entry start end_ (before ++ rest) stack emitted =
      emits entry start end_ rest (scan stack (before.map (Trace0.mark entry))).1 emitted := by
  induction before generalizing stack with
  | nil => rfl
  | cons a before ih =>
    have ih := ih fun b inside => early b (List.mem_cons_of_mem _ inside)
    simp only [List.cons_append,emits,early a List.mem_cons_self,if_true,ih,List.map_cons,scan_mark]

theorem emits_window (start end_ : UInt64) (inside : List α) {behind : List α}
    (within : ∀ a ∈ inside, start ≤ (entry a).1 ∧ (entry a).1 ≤ end_)
    (late : ∀ a ∈ behind, start ≤ (entry a).1 ∧ end_ < (entry a).1) (stack : List α) :
    emits entry start end_ (inside ++ behind) stack true = filled entry stack inside := by
  induction inside generalizing stack with
  | nil =>
    cases behind with
    | nil => rfl
    | cons a behind =>
      obtain ⟨from_,past⟩ := late a List.mem_cons_self
      simp [emits,filled,past,from_]
  | cons a inside ih =>
    obtain ⟨from_,until_⟩ := within a List.mem_cons_self
    have ih := ih fun b present => within b (List.mem_cons_of_mem _ present)
    simp only [List.cons_append,emits,filled,UInt64.not_lt.mpr from_,UInt64.not_lt.mpr until_,
      if_false,if_true,List.nil_append,ih]

theorem emits_carried (start end_ : UInt64) {items : List α} (from_ : ∀ a ∈ items, start ≤ (entry a).1)
    (stack : List α) : emits entry start end_ items stack false =
      stack.reverse.map .carried ++ emits entry start end_ items stack true := by
  cases items with
  | nil => simp [emits]
  | cons a rest => simp [emits,UInt64.not_lt.mpr (from_ a List.mem_cons_self)]

-- A made-up open stands under nothing of the window when its close comes, so in the order
-- they are written the events replay, and leave what the lenient scan leaves.
theorem filled_replays (frames : List α) (below : List UInt32) {word : List α}
    (read : (Brackets.replay (frames.map (codeOf entry) ++ below)
      (word.map fun a => codeMark (entry a).2)).isSome) :
    Brackets.replay (frames.map (codeOf entry)) ((filled entry frames word).map (Emit.mark entry)) =
      some ((scan frames (word.map (Trace0.mark entry))).1.map (codeOf entry)) := by
  induction word generalizing below frames with
  | nil => simp [filled,Brackets.replay,scan]
  | cons a word ih =>
    rw [List.map_cons] at read
    simp only [filled,List.map_cons,scan_mark,List.map_append]
    have event : (Emit.event a).mark entry = codeMark (entry a).2 := rfl
    by_cases opening : opens (entry a).2
    · have open_ : codeMark (entry a).2 = .push (codeOf entry a) := by simp [codeMark,opening,codeOf]
      rw [open_] at read
      have rest := ih (a :: frames) below (by simpa [Brackets.replay] using read)
      simpa [opening,event,open_,Brackets.replay] using rest
    · have close : codeMark (entry a).2 = .pop (codeOf entry a) := by simp [codeMark,opening,codeOf]
      rw [close] at read
      cases frames with
      | nil =>
        cases below with
        | nil => simp [Brackets.replay] at read
        | cons top below =>
          simp only [List.map_nil,List.nil_append,Brackets.replay] at read
          split at read
          · have rest := ih [] below (by simpa using read)
            simpa [opening,event,close,synthesized_mark,Brackets.replay] using rest
          · simp at read
      | cons top frames =>
        simp only [List.map_cons,List.cons_append,Brackets.replay] at read
        split at read
        · rename_i same
          have rest := ih frames below (by simpa using read)
          simpa [opening,event,close,Brackets.replay,same] using rest
        · simp at read

theorem scan_sublist (stack word : List α) :
    (scan stack (word.map (Trace0.mark entry))).1.Sublist (word.reverse ++ stack) := by
  induction word generalizing stack with
  | nil => exact .refl _
  | cons a word ih =>
    rw [List.map_cons,scan_mark,List.reverse_cons,List.append_assoc]
    refine .trans (ih _) (List.Sublist.append_left ?_ _)
    split
    · exact .refl _
    · exact .cons _ (List.tail_sublist stack)

theorem scan_opens (stack word : List α) :
    ∀ a ∈ (scan stack (word.map (Trace0.mark entry))).1, a ∈ stack ∨ opens (entry a).2 = true := by
  induction word generalizing stack with
  | nil => exact fun a inside => .inl inside
  | cons a word ih =>
    intro b inside
    rw [List.map_cons,scan_mark] at inside
    rcases ih _ b inside with earlier | opening
    · split at earlier
      · rename_i opening
        rcases List.mem_cons.mp earlier with rfl | below
        · exact .inr opening
        · exact .inl below
      · exact .inl (List.mem_of_mem_tail earlier)
    · exact .inr opening

theorem filled_level {horizon : UInt64} {word : List α} (level : ∀ a ∈ word, (entry a).1 = horizon)
    (stack : List α) : ∀ e ∈ filled entry stack word, e.ticks entry horizon = horizon := by
  induction word generalizing stack with
  | nil => simp [filled]
  | cons a word ih =>
    have rest := ih fun b inside => level b (List.mem_cons_of_mem _ inside)
    intro e present
    unfold filled at present
    rcases List.mem_append.mp present with made | later
    · split at made
      · rw [List.mem_singleton.mp made]
        rfl
      · cases made
    · rcases List.mem_cons.mp later with rfl | inner
      · exact level a List.mem_cons_self
      · exact rest _ e inner

theorem filled_past {horizon : UInt64} {word : List α} (past : ∀ a ∈ word, horizon < (entry a).1)
    (stack : List α) :
    (filled entry stack word).filter (fun e => (e.ticks entry horizon).toNat = horizon.toNat) =
        (scan stack (word.map (Trace0.mark entry))).2.map .synthesized ∧
      (filled entry stack word).filter (fun e => (e.ticks entry horizon).toNat ≠ horizon.toNat) =
        word.map .event := by
  induction word generalizing stack with
  | nil => simp [filled,scan]
  | cons a word ih =>
    have rest := ih fun b inside => past b (List.mem_cons_of_mem _ inside)
    have above : (entry a).1.toNat ≠ horizon.toNat := by
      have beyond := UInt64.lt_iff_toNat_lt.mp (past a List.mem_cons_self)
      omega
    unfold filled
    rw [List.map_cons,scan_mark]
    obtain ⟨level,higher⟩ := rest (if opens (entry a).2 then a :: stack else stack.tail)
    simp only [List.filter_append,List.filter_cons,level,higher]
    split <;> simp [Emit.ticks,above]

end Nesting

section Horizon

-- One stream cut where `replay` and the sort treat it differently: before the window, at the
-- horizon, past it, and behind the window. Ordered, it has no part before the window if it
-- has one at the horizon.
structure Parts (horizon start end_ : UInt64) (before level past behind : List Entry) : Prop where
  early : ∀ e ∈ before, e.1 < start ∧ horizon ≤ e.1
  lowest : ∀ e ∈ level, start ≤ e.1 ∧ e.1 ≤ end_ ∧ e.1 = horizon
  higher : ∀ e ∈ past, start ≤ e.1 ∧ e.1 ≤ end_ ∧ horizon < e.1
  late : ∀ e ∈ behind, start ≤ e.1 ∧ end_ < e.1
  apart : before = [] ∨ level = []
  ordered : (before ++ past).Pairwise (fun a b => a.1 ≤ b.1)

variable {horizon start end_ : UInt64} {before level past behind : List Entry}

def openAt (horizon : UInt64) (frames : List Entry) : List Entry :=
  frames.filter fun e => e.1.toNat = horizon.toNat

def openPast (horizon : UInt64) (frames : List Entry) : List Entry :=
  frames.filter fun e => e.1.toNat ≠ horizon.toNat

def opened (before : List Entry) : List Entry := (scan [] (before.map (mark id))).1

theorem emits_parts (parts : Parts horizon start end_ before level past behind) :
    emits id start end_ (before ++ (level ++ past ++ behind)) [] false =
      (opened before).reverse.map .carried ++ filled id (opened before) level ++
        filled id (opened (before ++ level)) past := by
  have from_ : ∀ e ∈ level ++ past ++ behind, start ≤ (id e).1 := by
    intro e inside
    simp only [List.mem_append] at inside
    rcases inside with (here | here) | here
    · exact (parts.lowest e here).1
    · exact (parts.higher e here).1
    · exact (parts.late e here).1
  have within : ∀ e ∈ level ++ past, start ≤ (id e).1 ∧ (id e).1 ≤ end_ := by
    intro e inside
    rcases List.mem_append.mp inside with here | here
    · exact ⟨(parts.lowest e here).1,(parts.lowest e here).2.1⟩
    · exact ⟨(parts.higher e here).1,(parts.higher e here).2.1⟩
  rw [emits_before id start end_ (fun e inside => (parts.early e inside).1),
    emits_carried id start end_ from_,emits_window id start end_ _ within parts.late,
    filled_append,List.append_assoc]
  simp only [opened,List.map_append,scan_append]

theorem opened_sublist (word : List Entry) : (opened word).reverse.Sublist word := by
  have inside := (scan_sublist id [] word).reverse
  simpa [opened] using inside

theorem opened_splits (parts : Parts horizon start end_ before level past behind) :
    openPast horizon (opened before) ++ openAt horizon (opened (before ++ level)) =
      opened (before ++ level) := by
  rcases parts.apart with none | none
  · subst none
    have all : openAt horizon (opened level) = opened level := by
      refine List.filter_eq_self.mpr fun e inside => ?_
      have member := (opened_sublist level).subset (List.mem_reverse.mpr inside)
      simp [(parts.lowest e member).2.2]
    simpa [opened,openPast,scan] using all
  · subst none
    rw [List.append_nil]
    have ordered := (List.pairwise_append.mp parts.ordered).1.sublist (opened_sublist before)
    have high : ∀ e ∈ opened before, horizon ≤ e.1 := fun e inside =>
      (parts.early e ((opened_sublist before).subset (List.mem_reverse.mpr inside))).2
    rw [List.pairwise_reverse] at ordered
    generalize opened before = frames at ordered high
    induction frames with
    | nil => rfl
    | cons e frames ih =>
      rw [List.pairwise_cons] at ordered
      have ih := ih ordered.2 fun f inside => high f (List.mem_cons_of_mem _ inside)
      by_cases here : e.1.toNat = horizon.toNat
      · have all : ∀ f ∈ e :: frames, f.1.toNat = horizon.toNat := fun f inside => by
          rcases List.mem_cons.mp inside with rfl | later
          · exact here
          · have below := UInt64.le_iff_toNat_le.mp (ordered.1 f later)
            have above := UInt64.le_iff_toNat_le.mp (high f inside)
            omega
        have none : openPast horizon (e :: frames) = [] :=
          List.filter_eq_nil_iff.mpr fun f inside => by simp [all f inside]
        have whole : openAt horizon (e :: frames) = e :: frames :=
          List.filter_eq_self.mpr fun f inside => by simp [all f inside]
        rw [none,whole,List.nil_append]
      · have kept : openPast horizon (e :: frames) = e :: openPast horizon frames :=
          List.filter_cons_of_pos (by simpa using here)
        have dropped : openAt horizon (e :: frames) = openAt horizon frames :=
          List.filter_cons_of_neg (by simpa using here)
        rw [kept,dropped,List.cons_append,ih]

def madeUp (before level past : List Entry) : List Entry :=
  (scan (opened (before ++ level)) (past.map (mark id))).2

-- Sorted, everything at the horizon comes first: the opens made up for later closes stand
-- behind the frames that were opened at the horizon, whatever those closes are.
theorem sorted_parts (parts : Parts horizon start end_ before level past behind) :
    StableSort.sortByKey (fun e => (e.ticks id horizon).toNat)
        (emits id start end_ (before ++ (level ++ past ++ behind)) [] false) =
      ((openAt horizon (opened before)).reverse.map .carried ++ filled id (opened before) level ++
          (madeUp before level past).map .synthesized) ++
        ((openPast horizon (opened before)).reverse.map .carried ++ past.map .event) := by
  have levelTicks := filled_level id (fun e inside => (parts.lowest e inside).2.2) (opened before)
  obtain ⟨made,events⟩ :=
    filled_past id (fun e inside => (parts.higher e inside).2.2) (opened (before ++ level))
  have carriedAt : ((opened before).reverse.map Emit.carried).filter
      (fun e => (e.ticks id horizon).toNat = horizon.toNat) =
        (openAt horizon (opened before)).reverse.map .carried := by
    simp only [List.filter_map,Function.comp_def,Emit.ticks,id_eq,openAt,List.filter_reverse]
    rfl
  have carriedPast : ((opened before).reverse.map Emit.carried).filter
      (fun e => (e.ticks id horizon).toNat ≠ horizon.toNat) =
        (openPast horizon (opened before)).reverse.map .carried := by
    simp only [List.filter_map,Function.comp_def,Emit.ticks,id_eq,openPast,List.filter_reverse]
    rfl
  have levelAt : (filled id (opened before) level).filter
      (fun e => (e.ticks id horizon).toNat = horizon.toNat) = filled id (opened before) level :=
    List.filter_eq_self.mpr fun e inside => by simp [levelTicks e inside]
  have levelPast : (filled id (opened before) level).filter
      (fun e => (e.ticks id horizon).toNat ≠ horizon.toNat) = [] :=
    List.filter_eq_nil_iff.mpr fun e inside => by simp [levelTicks e inside]
  have higher : (emits id start end_ (before ++ (level ++ past ++ behind)) [] false).filter
      (fun e => (e.ticks id horizon).toNat ≠ horizon.toNat) =
        (openPast horizon (opened before)).reverse.map .carried ++ past.map .event := by
    rw [emits_parts parts,List.filter_append,List.filter_append,carriedPast,levelPast,events,
      List.append_nil]
  have least : ∀ e ∈ emits id start end_ (before ++ (level ++ past ++ behind)) [] false,
      horizon.toNat ≤ (e.ticks id horizon).toNat := by
    intro e inside
    by_cases here : (e.ticks id horizon).toNat = horizon.toNat
    · exact here.ge
    · have above : e ∈ (openPast horizon (opened before)).reverse.map .carried ++ past.map .event := by
        rw [← higher]
        exact List.mem_filter.mpr ⟨inside,by simpa using here⟩
      rcases List.mem_append.mp above with carried | event
      · obtain ⟨f,frame,rfl⟩ := List.mem_map.mp carried
        have member := (List.mem_filter.mp (List.mem_reverse.mp frame)).1
        have early := parts.early f ((opened_sublist before).subset (List.mem_reverse.mpr member))
        exact UInt64.le_iff_toNat_le.mp early.2
      · obtain ⟨f,member,rfl⟩ := List.mem_map.mp event
        exact (UInt64.lt_iff_toNat_lt.mp (parts.higher f member).2.2).le
  have lowest : (emits id start end_ (before ++ (level ++ past ++ behind)) [] false).filter
      (fun e => (e.ticks id horizon).toNat = horizon.toNat) =
        (openAt horizon (opened before)).reverse.map .carried ++ filled id (opened before) level ++
          (madeUp before level past).map .synthesized := by
    rw [emits_parts parts,List.filter_append,List.filter_append,carriedAt,levelAt,made,madeUp]
  rw [StableSort.least_first _ _ horizon.toNat least ?_,higher,lowest]
  rw [higher]
  have within : ((openPast horizon (opened before)).reverse ++ past).Sublist (before ++ past) :=
    (((List.filter_sublist).reverse).trans (opened_sublist before)).append (.refl _)
  have ordered := parts.ordered.sublist within
  rw [List.pairwise_append] at ordered ⊢
  obtain ⟨frames,events,across⟩ := ordered
  refine ⟨?_,?_,?_⟩
  · exact List.pairwise_map.mpr (frames.imp fun le => UInt64.le_iff_toNat_le.mp le)
  · exact List.pairwise_map.mpr (events.imp fun le => UInt64.le_iff_toNat_le.mp le)
  · intro a left b right
    obtain ⟨f,frame,rfl⟩ := List.mem_map.mp left
    obtain ⟨g,event,rfl⟩ := List.mem_map.mp right
    exact UInt64.le_iff_toNat_le.mp (across f frame g event)

def codes (items : List Entry) : List UInt32 := items.map (codeOf id)

def marks (items : List Entry) : List (Bracket UInt32) := items.map fun e => codeMark e.2

theorem marks_map (items : List Entry) :
    (items.map (mark id)).map (Bracket.map (codeOf id)) = marks items := by
  simp only [marks,List.map_map]
  exact List.map_congr_left fun e _ => mark_map id e

theorem scan_codes (frames items : List Entry) :
    scan (codes frames) (marks items) =
      (codes (scan frames (items.map (mark id))).1,codes (scan frames (items.map (mark id))).2) := by
  rw [← marks_map,codes,scan_map]
  rfl

theorem carried_marks {frames : List Entry} (opening : ∀ e ∈ frames, opens e.2 = true) :
    (frames.map Emit.carried).map (Emit.mark id) = (codes frames).map .push := by
  simp only [codes,List.map_map]
  refine List.map_congr_left fun e inside => ?_
  simp [Emit.mark,Emit.codeKind,codeMark,opening e inside,codeOf]

theorem opened_opens (word : List Entry) : ∀ e ∈ opened word, opens e.2 = true :=
  fun e inside => (scan_opens id [] word e inside).resolve_left (by simp)

theorem lowest_replays (parts : Parts horizon start end_ before level past behind)
    {below : List UInt32} (read : (Brackets.replay below (marks level)).isSome ∨ level = [])
    (made : List Entry) :
    Brackets.replay [] (((openAt horizon (opened before)).reverse.map Emit.carried ++
        filled id (opened before) level ++ made.map Emit.synthesized).map (Emit.mark id)) =
      some ((codes made).reverse ++ codes (openAt horizon (opened (before ++ level)))) := by
  have pushed : (made.map Emit.synthesized).map (Emit.mark id) = (codes made).map .push := by
    simp only [codes,List.map_map]
    exact List.map_congr_left fun e _ => synthesized_mark id e
  rw [List.map_append,List.map_append,pushed,replay_append]
  have frames : Brackets.replay [] (((openAt horizon (opened before)).reverse.map Emit.carried).map
      (Emit.mark id) ++ (filled id (opened before) level).map (Emit.mark id)) =
        some (codes (openAt horizon (opened (before ++ level)))) := by
    have splits := opened_splits parts
    by_cases none : level = []
    · subst none
      have opening : ∀ e ∈ (openAt horizon (opened before)).reverse, opens e.2 = true := fun e inside =>
        opened_opens before e (List.mem_filter.mp (List.mem_reverse.mp inside)).1
      rw [carried_marks opening]
      simp only [filled,List.map_nil,List.append_nil,replay_pushes]
      simp [codes]
    · have nothing := parts.apart.resolve_right none
      subst nothing
      have whole : openAt horizon (opened level) = opened level := splits
      have levels := filled_replays id [] below (read.resolve_right none)
      rw [List.nil_append,whole]
      simpa [codes,opened,scan,openAt] using levels
  rw [frames,Option.bind_some,replay_pushes]

theorem nested_parts (parts : Parts horizon start end_ before level past behind)
    (cut : Suffix (marks (before ++ (level ++ past ++ behind)))) :
    Nested ((StableSort.sortByKey (fun e => (e.ticks id horizon).toNat)
        (emits id start end_ (before ++ (level ++ past ++ behind)) [] false)).map (Emit.mark id)) ↔
      codes (openAt horizon (opened (before ++ level))) ++ codes (madeUp before level past) =
        (codes (madeUp before level past)).reverse ++
          codes (openAt horizon (opened (before ++ level))) := by
  obtain ⟨below,after,read⟩ := suffix_replay cut
  simp only [marks,List.map_append,replay_append] at read
  obtain ⟨stack,first,read⟩ := Option.bind_eq_some_iff.mp read
  obtain ⟨stack',middle,last⟩ := Option.bind_eq_some_iff.mp read
  obtain ⟨stack'',second,third⟩ := Option.bind_eq_some_iff.mp middle
  -- the true stack past the horizon: the frames of the stream above what it was cut from
  have upTo : Brackets.replay ([] ++ below) (marks (before ++ level)) = some stack'' := by
    rw [marks,List.map_append,replay_append]
    simp only [List.nil_append,first,Option.bind_some,second]
  obtain ⟨kept,_,shape⟩ := replay_scan [] upTo
  have frames := scan_codes [] (before ++ level)
  have together : codes (openPast horizon (opened before)) ++
      codes (openAt horizon (opened (before ++ level))) = codes (opened (before ++ level)) := by
    rw [codes,codes,← List.map_append,opened_splits parts,codes]
  have here : stack'' = codes (openPast horizon (opened before)) ++
      codes (openAt horizon (opened (before ++ level))) ++ kept := by
    have scanned : (scan [] (marks (before ++ level))).1 = codes (opened (before ++ level)) :=
      congrArg Prod.fst frames
    rw [shape,scanned,together]
  have madeUpCodes : (scan (codes (openPast horizon (opened before)) ++
      codes (openAt horizon (opened (before ++ level)))) (marks past)).2 =
        codes (madeUp before level past) := by
    rw [together,scan_codes]
    rfl
  have opening : ∀ e ∈ (openPast horizon (opened before)).reverse, opens e.2 = true := fun e inside =>
    opened_opens before e (List.mem_filter.mp (List.mem_reverse.mp inside)).1
  have events : (past.map Emit.event).map (Emit.mark id) = marks past := by
    simp [marks,Emit.mark,Emit.codeKind,Function.comp_def]
  rw [sorted_parts parts,Nested,List.map_append,replay_append,
    lowest_replays parts (.inl (by rw [marks,second]; rfl)),Option.bind_some,List.map_append,
    carried_marks opening,events,replay_append,replay_pushes,Option.bind_some]
  have reversed : (codes (openPast horizon (opened before)).reverse).reverse =
      codes (openPast horizon (opened before)) := by simp [codes]
  rw [reversed,← madeUpCodes]
  exact repaired_iff kept (by rw [← here,marks,third]; rfl)

-- Codes of the frames opened at the horizon tick and still open behind it, the innermost
-- first, and of the unmatched closes of the window past the horizon, in their order.
def framesAt (horizon start : UInt64) (stream : List Entry) : List UInt32 :=
  codes (openAt horizon (opened (stream.takeWhile fun e => decide (e.1 < start ∨ e.1 ≤ horizon))))

def missingPast (horizon start end_ : UInt64) (stream : List Entry) : List UInt32 :=
  codes ((unmatched id start end_ stream).filter fun e => decide (horizon < e.1))

theorem dropWhile_fails {p : Entry → Bool} {items : List Entry}
    (ordered : items.Pairwise (fun a b => a.1 ≤ b.1)) (down : ∀ a b, a.1 ≤ b.1 → p b → p a) :
    ∀ e ∈ items.dropWhile p, ¬p e := by
  induction items with
  | nil => simp
  | cons e items ih =>
    rw [List.pairwise_cons] at ordered
    by_cases keeps : p e
    · rw [List.dropWhile_cons_of_pos keeps]
      exact ih ordered.2
    · rw [List.dropWhile_cons_of_neg keeps]
      intro f inside held
      rcases List.mem_cons.mp inside with rfl | later
      · exact keeps held
      · exact keeps (down e f (ordered.1 f later) held)

theorem stream_parts {stream : List Entry} (ordered : stream.Pairwise (fun a b => a.1 ≤ b.1))
    (early : ∀ e ∈ stream, horizon ≤ e.1) (start end_ : UInt64) :
    ∃ before level past behind, Parts horizon start end_ before level past behind ∧
      stream = before ++ (level ++ past ++ behind) := by
  let first := fun e : Entry => decide (e.1 < start)
  let rest := stream.dropWhile first
  let inside := rest.takeWhile fun e => decide (e.1 ≤ end_)
  have orderedRest : rest.Pairwise (fun a b => a.1 ≤ b.1) :=
    ordered.sublist (List.dropWhile_sublist _)
  have orderedInside : inside.Pairwise (fun a b => a.1 ≤ b.1) :=
    orderedRest.sublist (List.takeWhile_sublist _)
  have downTo (bound : UInt64) (a b : Entry) (le : a.1 ≤ b.1) (low : decide (b.1 ≤ bound) = true) :
      decide (a.1 ≤ bound) = true := by
    simpa using UInt64.le_trans le (by simpa using low)
  have from_ : ∀ e ∈ rest, start ≤ e.1 := fun e member => by
    have fails := dropWhile_fails ordered (p := first) (fun a b le low => by
      simp only [first,decide_eq_true_eq] at low ⊢
      exact UInt64.lt_of_le_of_lt le low) e member
    simpa [first] using fails
  have until_ : ∀ e ∈ inside, e.1 ≤ end_ := fun e member => by
    simpa using List.mem_takeWhile_imp member
  have member (e : Entry) (here : e ∈ inside) : e ∈ rest := (List.takeWhile_sublist _).subset here
  refine ⟨stream.takeWhile first,inside.takeWhile fun e => decide (e.1 ≤ horizon),
    inside.dropWhile fun e => decide (e.1 ≤ horizon),rest.dropWhile fun e => decide (e.1 ≤ end_),
    ⟨?_,?_,?_,?_,?_,?_⟩,?_⟩
  · intro e here
    exact ⟨by simpa [first] using List.mem_takeWhile_imp here,
      early e ((List.takeWhile_sublist _).subset here)⟩
  · intro e here
    have low : e.1 ≤ horizon := by simpa using List.mem_takeWhile_imp here
    have kept := (List.takeWhile_sublist _).subset here
    have high := early e ((List.dropWhile_sublist _).subset (member e kept))
    exact ⟨from_ e (member e kept),until_ e kept,UInt64.le_antisymm low high⟩
  · intro e here
    have high := dropWhile_fails orderedInside (downTo horizon) e here
    have kept := (List.dropWhile_sublist _).subset here
    exact ⟨from_ e (member e kept),until_ e kept,by simpa using high⟩
  · intro e here
    have high := dropWhile_fails orderedRest (downTo end_) e here
    exact ⟨from_ e ((List.dropWhile_sublist _).subset here),by simpa using high⟩
  · by_cases none : stream.takeWhile first = []
    · exact .inl none
    · obtain ⟨b,present⟩ := List.exists_mem_of_ne_nil _ none
      refine .inr (List.eq_nil_iff_forall_not_mem.mpr fun e here => ?_)
      have earlier : b.1 < start := by simpa [first] using List.mem_takeWhile_imp present
      have low : e.1 ≤ horizon := by simpa using List.mem_takeWhile_imp here
      have high := early b ((List.takeWhile_sublist _).subset present)
      have later := from_ e (member e ((List.takeWhile_sublist _).subset here))
      exact UInt64.lt_irrefl _ (UInt64.lt_of_lt_of_le earlier
        (UInt64.le_trans later (UInt64.le_trans low high)))
  · have within : (inside.dropWhile fun e => decide (e.1 ≤ horizon)).Sublist rest :=
      (List.dropWhile_sublist _).trans (List.takeWhile_sublist _)
    refine ordered.sublist ?_
    have whole := (List.Sublist.refl (stream.takeWhile first)).append within
    rwa [List.takeWhile_append_dropWhile] at whole
  · rw [List.takeWhile_append_dropWhile,List.takeWhile_append_dropWhile,List.takeWhile_append_dropWhile]

theorem takeWhile_fails {p : Entry → Bool} {items : List Entry} (fails : ∀ e ∈ items, ¬p e) :
    items.takeWhile p = [] := by
  cases items with
  | nil => rfl
  | cons e items => exact List.takeWhile_cons_of_neg (fails e List.mem_cons_self)

theorem framesAt_parts (parts : Parts horizon start end_ before level past behind)
    (below : horizon ≤ end_) :
    framesAt horizon start (before ++ (level ++ past ++ behind)) =
      codes (openAt horizon (opened (before ++ level))) := by
  have early : ∀ e ∈ before, decide (e.1 < start ∨ e.1 ≤ horizon) = true := fun e here => by
    simp [(parts.early e here).1]
  have lowest : ∀ e ∈ level, decide (e.1 < start ∨ e.1 ≤ horizon) = true := fun e here => by
    simp [(parts.lowest e here).2.2]
  have beyond : ∀ e ∈ past ++ behind, ¬decide (e.1 < start ∨ e.1 ≤ horizon) = true := by
    intro e here
    rcases List.mem_append.mp here with inside | outside
    · obtain ⟨from_,_,above⟩ := parts.higher e inside
      simp [UInt64.not_lt.mpr from_,UInt64.not_le.mpr above]
    · obtain ⟨from_,late⟩ := parts.late e outside
      simp [UInt64.not_lt.mpr from_,UInt64.not_le.mpr (UInt64.lt_of_le_of_lt below late)]
  rw [framesAt,List.takeWhile_append_of_pos early,List.append_assoc,
    List.takeWhile_append_of_pos lowest,takeWhile_fails beyond,List.append_nil]

theorem reached_parts (parts : Parts horizon start end_ before level past behind) :
    reached id start end_ (before ++ (level ++ past ++ behind)) = before ++ (level ++ past) := by
  have inside : ∀ e ∈ before ++ (level ++ past),
      decide ((id e).1 < start ∨ (id e).1 ≤ end_) = true := by
    intro e here
    simp only [List.mem_append] at here
    rcases here with here | here | here
    · simp [(parts.early e here).1]
    · simp [(parts.lowest e here).2.1]
    · simp [(parts.higher e here).2.1]
  have outside : ∀ e ∈ behind, ¬decide ((id e).1 < start ∨ (id e).1 ≤ end_) = true := by
    intro e here
    obtain ⟨from_,late⟩ := parts.late e here
    simp [UInt64.not_lt.mpr from_,UInt64.not_le.mpr late]
  rw [reached,← List.append_assoc before,List.takeWhile_append_of_pos (by simpa using inside),
    takeWhile_fails outside,List.append_nil]

theorem unmatched_mem (word : List Entry) (stack : List Entry) :
    ∀ e ∈ (scan stack (word.map (mark id))).2, e ∈ word := by
  intro e present
  obtain ⟨f,inside,same⟩ := List.mem_map.mp (scan_mem present)
  unfold mark at same
  split at same
  · cases same
  · cases same
    exact inside

theorem missingPast_parts (parts : Parts horizon start end_ before level past behind) :
    missingPast horizon start end_ (before ++ (level ++ past ++ behind)) =
      codes (madeUp before level past) := by
  have early : ∀ e ∈ (scan [] (before.map (mark id))).2, ¬(start ≤ e.1 ∧ horizon < e.1) :=
    fun e here both => UInt64.not_lt.mpr both.1 (parts.early e (unmatched_mem before [] e here)).1
  have lowest : ∀ e ∈ (scan (opened before) (level.map (mark id))).2,
      ¬(start ≤ e.1 ∧ horizon < e.1) := by
    intro e here both
    have at_ := (parts.lowest e (unmatched_mem level _ e here)).2.2
    exact UInt64.lt_irrefl _ (at_ ▸ both.2)
  have higher : ∀ e ∈ madeUp before level past, start ≤ e.1 ∧ horizon < e.1 := fun e here => by
    obtain ⟨from_,_,above⟩ := parts.higher e (unmatched_mem past _ e here)
    exact ⟨from_,above⟩
  have scanned : (scan [] ((before ++ (level ++ past)).map (mark id))).2 =
      (scan [] (before.map (mark id))).2 ++
        ((scan (opened before) (level.map (mark id))).2 ++ madeUp before level past) := by
    simp only [List.map_append,scan_append,opened,madeUp]
  rw [missingPast,unmatched,reached_parts parts,scanned,List.filter_filter,List.filter_append,
    List.filter_append,List.filter_eq_nil_iff.mpr,List.filter_eq_nil_iff.mpr,
    List.filter_eq_self.mpr,List.nil_append,List.nil_append]
  · intro e here
    simp [higher e here]
  · intro e here both
    exact lowest e here (by simpa [and_comm] using both)
  · intro e here both
    exact early e here (by simpa [and_comm] using both)

theorem emits_nested_iff {stream : List Entry} (ordered : stream.Pairwise (fun a b => a.1 ≤ b.1))
    (cut : Suffix (marks stream)) (early : ∀ e ∈ stream, horizon ≤ e.1) (window : start ≤ end_) :
    Nested ((StableSort.sortByKey (fun e => (e.ticks id horizon).toNat)
        (emits id start end_ stream [] false)).map (Emit.mark id)) ↔
      framesAt horizon start stream ++ missingPast horizon start end_ stream =
        (missingPast horizon start end_ stream).reverse ++ framesAt horizon start stream := by
  by_cases below : horizon ≤ end_
  · obtain ⟨before,level,past,behind,parts,rfl⟩ := stream_parts ordered early start end_
    rw [framesAt_parts parts below,missingPast_parts parts]
    exact nested_parts parts cut
  · -- the whole stream lies behind the window
    have behind : ∀ e ∈ stream, start ≤ (id e).1 ∧ end_ < (id e).1 := fun e inside => by
      have late := UInt64.lt_of_lt_of_le (UInt64.not_le.mp below) (early e inside)
      exact ⟨UInt64.le_trans window (UInt64.le_of_lt late),late⟩
    have nothing : emits id start end_ stream [] false = [] := by
      rw [emits_carried id start end_ fun e inside => (behind e inside).1]
      exact emits_window id start end_ [] (by simp) behind []
    have unread : reached id start end_ stream = [] := by
      refine takeWhile_fails fun e inside => ?_
      simpa using behind e inside
    have none : missingPast horizon start end_ stream = [] := by
      simp [missingPast,unmatched,unread,scan,codes]
    rw [nothing,none]
    simp [StableSort.sortByKey,Nested,Brackets.replay]

end Horizon

theorem assemble_marks (history tails : List EventBatch) (clock : Clock)
    (horizon start end_ : UInt64) (tid : UInt32) :
    ((assemble history tails clock horizon start end_).filter (·.tid = tid)).map Event.mark =
      (StableSort.sortByKey (fun e => (e.ticks id horizon).toNat)
        (emits id start end_ (streamOf tid (history ++ freshTails history tails)) [] false)).map
          (Emit.mark id) := by
  have named := replay_emits id tid horizon start end_
    (streamOf tid (history ++ freshTails history tails)) [] false
  simp only [List.map_id,List.map_nil] at named
  have records := StableSort.map_comm (fun e : Emit Entry => (e.ticks id horizon).toNat)
    (fun record : UInt64 × UInt32 × UInt32 => record.1.toNat) (Emit.record id tid horizon)
    (emits id start end_ (streamOf tid (history ++ freshTails history tails)) [] false) fun e _ => rfl
  have marked (e : Emit Entry) :
      (toEvent clock (e.record id tid horizon)).mark = e.mark id := toEvent_mark clock _
  rw [assemble_thread,named,← records,List.map_map,List.map_map]
  simp only [Function.comp_def,marked]

-- A dump keeps a thread's frames nested exactly when the frames opened at the horizon and
-- then the codes of the missing opens, in the order of their closes, read the same as the
-- missing ones reversed and then the frames: the opens are pushed in the order of the closes,
-- where nesting asks for the reverse.
theorem assemble_nested_iff (history tails : List EventBatch) (clock : Clock)
    (horizon start end_ : UInt64) (tid : UInt32) (stream : List Entry)
    (own : stream = streamOf tid (history ++ freshTails history tails))
    (ordered : stream.Pairwise (fun a b => a.1 ≤ b.1)) (cut : Suffix (marks stream))
    (early : ∀ e ∈ stream, horizon ≤ e.1) (window : start ≤ end_) :
    Nested (((assemble history tails clock horizon start end_).filter (·.tid = tid)).map Event.mark) ↔
      framesAt horizon start stream ++ missingPast horizon start end_ stream =
        (missingPast horizon start end_ stream).reverse ++ framesAt horizon start stream := by
  rw [assemble_marks,← own]
  exact emits_nested_iff ordered cut early window

-- A frame carried in from before the window, and one close whose open is gone.
def onceCut : EventBatch := ⟨40,1,
  [⟨0,packCodeKind 7 .Begin⟩,⟨10,packCodeKind 7 .End⟩,⟨20,packCodeKind 8 .End⟩],3⟩

theorem assemble_nested_one_missing :
    Nested (((assemble [onceCut] [] .mock 30 45 100).filter (·.tid = 1)).map Event.mark) := by
  have early : ((streamOf 1 [onceCut]).all fun e => (30 : UInt64) ≤ e.1) = true := by decide
  exact (assemble_nested_iff [onceCut] [] .mock 30 45 100 1 (streamOf 1 [onceCut]) rfl (by decide)
    ⟨[.push 8],rfl⟩ (by simpa using early) (by decide)).mpr (by decide)

-- Two frames, 7 inside 8, both cut off: the opens come out as 7 and then 8.
def twiceCut : EventBatch := ⟨50,1,[⟨0,packCodeKind 7 .End⟩,⟨10,packCodeKind 8 .End⟩],2⟩

theorem missing_opens_cross :
    (streamOf 1 [twiceCut]).Pairwise (fun a b => a.1 ≤ b.1) ∧ Suffix (marks (streamOf 1 [twiceCut])) ∧
      (∀ e ∈ streamOf 1 [twiceCut], 30 ≤ e.1) ∧
      ¬Nested (((assemble [twiceCut] [] .mock 30 0 100).filter (·.tid = 1)).map Event.mark) := by
  have ordered : (streamOf 1 [twiceCut]).Pairwise (fun a b => a.1 ≤ b.1) := by decide
  have cut : Suffix (marks (streamOf 1 [twiceCut])) := ⟨[.push 8,.push 7],rfl⟩
  have all : ((streamOf 1 [twiceCut]).all fun e => (30 : UInt64) ≤ e.1) = true := by decide
  have early : ∀ e ∈ streamOf 1 [twiceCut], (30 : UInt64) ≤ e.1 := by simpa using all
  refine ⟨ordered,cut,early,fun nested => ?_⟩
  rw [assemble_marks] at nested
  exact absurd ((emits_nested_iff ordered cut early (by decide)).mp nested) (by decide)

end Trace0
