import Trace0.TailKeeps

namespace Trace0.Tails

variable {T R : Type} {c c' : Cell} {r r' : Reader T}

namespace Cell

theorem Kept.odd (kept : c.Kept) (arms : c.pc.arms = true) : c.hot.epoch % 2 = 1 := by
  have knows := kept.knows
  cases here : c.pc with
  | arming stores next epoch =>
    rw [here] at knows
    obtain ⟨_,rfl,odd,_⟩ := knows
    rw [odd]
    apply UInt64.toNat_inj.mp
    have one : (1 : UInt64).toNat = 1 := rfl
    have two : (2 : UInt64).toNat = 2 := rfl
    rw [UInt64.toNat_mod,UInt64.toNat_add,UInt64.toNat_ofNat',one,two]
    omega
  | _ =>
    rw [here] at arms
    cases arms

end Cell

namespace Reader

def Asked (r : Reader T) (c : Cell) : Prop := c.pc.switchTo = none → c.hot.queueId = r.queue

structure Measured (c : Cell) (cursor endAt : Nat) : Prop where
  same : endAt = c.hot.endAt
  positive : endAt - batchN < cursor
  within : cursor ≤ c.hot.cursor

def Pushed (c : Cell) (queue : Nat) (events : List PackedEvent) : Prop :=
  ∀ last, c.armed.getLast? = some last →
    ∃ front, front <+: last.events ∧ events = front.map (·.2) ∧ ∀ e ∈ front, e.1 = queue

def Sees (r : Reader T) (c : Cell) : ReadPc → Prop
  | .epoch | .queue | .returned _ => True
  | .cursor => r.Asked c
  | .endAt cursor => r.Asked c ∧ cursor ≤ c.hot.cursor
  | .baseTicks cursor endAt => r.Asked c ∧ Measured c cursor endAt
  | .tid cursor endAt baseTicks => r.Asked c ∧ Measured c cursor endAt ∧ baseTicks = c.hot.baseTicks
  | .slots cursor endAt baseTicks tid events => r.Asked c ∧ Measured c cursor endAt ∧
      baseTicks = c.hot.baseTicks ∧ tid = c.hot.tid ∧ (r.strayed = false → Pushed c r.queue events)

structure Ok (r : Reader T) (c : Cell) : Prop where
  since : r.since ≤ c.arms
  epoch : r.epoch = .ofNat (2*r.since)
  sees : c.arms = r.since → c.pc.arms = false → r.Sees c r.pc

theorem Asked.grown (asked : r.Asked c) (grown : c.Grown c') : r.Asked c' := by
  intro settled
  obtain ⟨before,queueId⟩ := grown.queue settled
  exact queueId.trans (asked before)

theorem Pushed.grown {queue : Nat} {events : List PackedEvent} (some_ : c.armed.getLast? ≠ none)
    (pushed : Pushed c queue events) (grown : c.Grown c') : Pushed c' queue events := by
  obtain ⟨last,newest⟩ := Option.ne_none_iff_exists'.mp some_
  obtain ⟨more,later⟩ := grown.armed last newest
  intro other here
  rw [later,Option.some.injEq] at here
  subst other
  obtain ⟨front,first,same,own⟩ := pushed last newest
  exact ⟨front,first.trans (List.prefix_append _ _),same,own⟩

theorem Measured.grown {cursor endAt : Nat} (measured : Measured c cursor endAt) (grown : c.Grown c') :
    Measured c' cursor endAt :=
  ⟨measured.same.trans grown.endAt.symm,measured.positive,measured.within.trans grown.cursor⟩

theorem Measured.shows {cursor endAt : Nat} (kept : c.Kept) (even : c.pc.arms = false) (measured : Measured c cursor endAt) :
    ∃ last, c.armed.getLast? = some last ∧ c.Shows last := by
  refine (kept.window even).resolve_left ?_
  rintro ⟨blank,_⟩
  have positive := measured.positive
  have within := measured.within
  omega

theorem Sees.grown (kept : c.Kept) (even : c.pc.arms = false) {pc : ReadPc} (sees : r.Sees c pc) (grown : c.Grown c') :
    r.Sees c' pc := by
  cases pc with
  | cursor => exact Asked.grown sees grown
  | endAt cursor => exact ⟨sees.1.grown grown,sees.2.trans grown.cursor⟩
  | baseTicks cursor endAt => exact ⟨sees.1.grown grown,sees.2.grown grown⟩
  | tid cursor endAt baseTicks =>
    exact ⟨sees.1.grown grown,sees.2.1.grown grown,sees.2.2.trans grown.baseTicks.symm⟩
  | slots cursor endAt baseTicks tid events =>
    obtain ⟨asked,measured,base,own,pushed⟩ := sees
    obtain ⟨last,newest,_⟩ := measured.shows kept even
    have armed : c.armed.getLast? ≠ none := by rw [newest]; simp
    exact ⟨asked.grown grown,measured.grown grown,base.trans grown.baseTicks.symm,own.trans grown.tid.symm,
      fun clean => (pushed clean).grown armed grown⟩
  | _ => trivial

theorem Ok.later (kept : c.Kept) (ok : r.Ok c) (later : c.Later c') : r.Ok c' := by
  refine ⟨ok.since.trans later.arms,ok.epoch,?_⟩
  intro current even
  have before : c.arms = r.since := Nat.le_antisymm (current ▸ later.arms) ok.since
  obtain ⟨wasEven,grown⟩ := later.still (current.trans before.symm) even
  exact (ok.sees before wasEven).grown kept wasEven grown

theorem step_frame (stepped : r.step c = some r') : r'.thread = r.thread ∧ r'.queue = r.queue := by
  unfold step retry at stepped
  repeat' split at stepped
  all_goals cases stepped
  all_goals exact ⟨rfl,rfl⟩

theorem tail_eq {batch : EventBatch} (returned : r.tail = some batch) : r.pc = .returned (some batch) := by
  unfold tail at returned
  split at returned
  · rename_i tail here
    rw [here,returned]
  · cases returned

theorem Ok.retry (ok : r.Ok c) : r.retry.Ok c := by
  unfold Reader.retry
  split <;> exact ⟨ok.since,ok.epoch,fun _ _ => trivial⟩

theorem Pushed.slot {cursor endAt : Nat} {events : List PackedEvent} (kept : c.Kept) (even : c.pc.arms = false)
    (asked : r.Asked c) (measured : Measured c cursor endAt) (still : c.dangles = false)
    (more : events.length < cursor - (endAt - batchN)) (pushed : Pushed c r.queue events) :
    Pushed c r.queue (events ++ [c.slots (endAt - batchN + events.length)]) := by
  obtain ⟨last,newest,shows⟩ := measured.shows kept even
  have positive := measured.positive
  have within := measured.within
  have owned : c.pc.freed = false := by
    cases freed : c.pc.freed with
    | false => rfl
    | true =>
      have cursor_ : c.hot.cursor = 0 := by simpa [Cell.dangles,freed] using still
      omega
  have own := shows.queue (switchTo_of_owned owned)
  rw [asked (switchTo_of_owned owned)] at own
  have count := shows.count
  have place := measured.same
  have filled : events.length < last.events.length := by omega
  intro other here
  rw [newest,Option.some.injEq] at here
  subst other
  obtain ⟨front,⟨rest,whole⟩,same,_⟩ := pushed last newest
  have length : events.length = front.length := by rw [same,List.length_map]
  cases rest with
  | nil =>
    rw [← whole,List.append_nil] at filled
    omega
  | cons e rest =>
    have next : last.events[front.length]? = some e := by
      rw [← whole,List.getElem?_append_right (Nat.le_refl _),Nat.sub_self,List.getElem?_cons_zero]
    have slot := shows.slots owned front.length e next
    refine ⟨front ++ [e],⟨rest,by rw [List.append_assoc]; exact whole⟩,?_,?_⟩
    · rw [List.map_append,← same,place,length,slot]
      rfl
    · intro member present
      apply own
      rw [← whole]
      rcases List.mem_append.mp present with before | now
      · exact List.mem_append_left _ before
      · rw [List.mem_singleton.mp now]
        exact List.mem_append_right _ (List.mem_cons_self ..)

theorem step_ok (kept : c.Kept) (ok : r.Ok c) (stepped : r.step c = some r') : r'.Ok c := by
  have sees := ok.sees
  unfold step at stepped
  cases here : r.pc with
  | epoch =>
    rw [here] at stepped
    dsimp only at stepped
    split at stepped
    · cases stepped
      exact ok.retry
    · rename_i notOdd
      cases stepped
      refine ⟨Nat.le_refl _,?_,fun _ _ => trivial⟩
      cases arms : c.pc.arms with
      | false => exact kept.even arms
      | true => exact absurd (kept.odd arms) notOdd
  | queue =>
    rw [here] at stepped
    cases stepped
    refine ⟨ok.since,ok.epoch,fun _ _ => ?_⟩
    dsimp only
    split
    · rename_i own
      exact fun _ => own
    · trivial
  | cursor =>
    rw [here] at stepped sees
    cases stepped
    exact ⟨ok.since,ok.epoch,fun current even => ⟨sees current even,Nat.le_refl _⟩⟩
  | endAt cursor =>
    rw [here] at stepped sees
    dsimp only at stepped
    split at stepped
    · cases stepped
      exact ⟨ok.since,ok.epoch,fun _ _ => trivial⟩
    · split at stepped
      · cases stepped
        exact ok.retry
      · rename_i inside
        rw [not_or,Nat.not_le] at inside
        cases stepped
        refine ⟨ok.since,ok.epoch,fun current even => ?_⟩
        obtain ⟨asked,upTo⟩ := sees current even
        exact ⟨asked,rfl,inside.1,upTo⟩
  | baseTicks cursor endAt =>
    rw [here] at stepped sees
    cases stepped
    refine ⟨ok.since,ok.epoch,fun current even => ?_⟩
    obtain ⟨asked,measured⟩ := sees current even
    exact ⟨asked,measured,rfl⟩
  | tid cursor endAt baseTicks =>
    rw [here] at stepped sees
    cases stepped
    refine ⟨ok.since,ok.epoch,fun current even => ?_⟩
    obtain ⟨asked,measured,base⟩ := sees current even
    exact ⟨asked,measured,base,rfl,fun _ last _ => ⟨[],List.nil_prefix,rfl,by simp⟩⟩
  | slots cursor endAt baseTicks tid events =>
    rw [here] at stepped sees
    dsimp only at stepped
    split at stepped
    · rename_i more
      cases stepped
      refine ⟨ok.since,ok.epoch,fun current even => ?_⟩
      obtain ⟨asked,measured,base,own,pushed⟩ := sees current even
      refine ⟨asked,measured,base,own,fun clean => ?_⟩
      obtain ⟨before,still⟩ := Bool.or_eq_false_iff.mp clean
      exact (pushed before).slot kept even asked measured still more
    · split at stepped
      · cases stepped
        exact ok.retry
      · cases stepped
        exact ⟨ok.since,ok.epoch,fun _ _ => trivial⟩
  | returned tail =>
    rw [here] at stepped
    cases stepped

def Lapped (r : Reader T) (c : Cell) : Prop := ∃ laps, 0 < laps ∧ c.arms = r.since + laps*2^63

theorem same_arm (kept : c.Kept) (ok : r.Ok c) (few : ¬ r.Lapped c) (same : c.hot.epoch = r.epoch) :
    c.arms = r.since ∧ c.pc.arms = false := by
  rw [ok.epoch] at same
  have since := ok.since
  cases arms : c.pc.arms with
  | true =>
    have odd := congrArg UInt64.toNat (kept.odd arms)
    have one : (1 : UInt64).toNat = 1 := rfl
    have two : (2 : UInt64).toNat = 2 := rfl
    rw [same,UInt64.toNat_mod,UInt64.toNat_ofNat',one,two] at odd
    omega
  | false =>
    rw [kept.even arms] at same
    have values := congrArg UInt64.toNat same
    rw [UInt64.toNat_ofNat',UInt64.toNat_ofNat'] at values
    refine ⟨?_,rfl⟩
    by_contra moved
    exact few ⟨(c.arms - r.since)/2^63,by omega,by omega⟩

theorem not_lapped (still : c.arms = r.since) : ¬ r.Lapped c := by
  rintro ⟨laps,more,lapped⟩
  omega

-- The last load of an attempt finds the epoch of the first.
def Closes (r : Reader T) (c : Cell) : Prop :=
  (∃ cursor endAt baseTicks tid events, r.pc = .slots cursor endAt baseTicks tid events ∧
    ¬ events.length < cursor - (endAt - batchN)) ∧ c.hot.epoch = r.epoch

theorem returned_closes (stepped : r.step c = some r') {batch : EventBatch} (returned : r'.tail = some batch) : r.Closes c := by
  have last := tail_eq returned
  unfold step at stepped
  cases here : r.pc with
  | slots cursor endAt baseTicks tid events =>
    rw [here] at stepped
    dsimp only [retry] at stepped
    split at stepped
    · cases stepped
      cases last
    · rename_i all
      split at stepped
      · split at stepped <;> cases stepped <;> cases last
      · rename_i same
        exact ⟨⟨cursor,endAt,baseTicks,tid,events,here,all⟩,not_not.mp same⟩
  | returned tail =>
    rw [here] at stepped
    cases stepped
  | _ =>
    rw [here] at stepped
    dsimp only [retry] at stepped
    repeat' split at stepped
    all_goals (cases stepped; cases last)

theorem returned_shown (kept : c.Kept) (ok : r.Ok c) (stepped : r.step c = some r') {batch : EventBatch}
    (returned : r'.tail = some batch) (few : ¬ r.Lapped c) (clean : r.strayed = false) :
    ∃ last front, c.armed.getLast? = some last ∧ batch.baseTicks = last.baseTicks ∧ batch.tid = last.tid ∧
      front <+: last.events ∧ batch.events = front.map (·.2) ∧ ∀ e ∈ front, e.1 = r.queue := by
  obtain ⟨⟨cursor,endAt,baseTicks,tid,events,here,all⟩,same⟩ := returned_closes stepped returned
  obtain ⟨current,even⟩ := same_arm kept ok few same
  have sees := ok.sees current even
  rw [here] at sees
  obtain ⟨_,measured,base,own,pushed⟩ := sees
  unfold step at stepped
  rw [here] at stepped
  dsimp only at stepped
  rw [if_neg all,if_neg (not_not.mpr same)] at stepped
  cases stepped
  cases returned
  obtain ⟨last,newest,shows⟩ := measured.shows kept even
  obtain ⟨front,first,events_,queue⟩ := pushed clean last newest
  exact ⟨last,front,newest,base.trans shows.baseTicks.symm,own.trans shows.tid.symm,first,events_,queue⟩

end Reader

variable [DecidableEq T] [DecidableEq R]

namespace Sys

structure Sound (s : Sys T R) : Prop where
  cells : ∀ t, (s.cells t).Kept
  readers : ∀ r reader, s.readers r = some reader → reader.Ok (s.cells reader.thread)

variable {s s' : Sys T R}

theorem read_parts {r : R} (stepped : s.step (.read r) = some s') :
    ∃ reader reader', s.readers r = some reader ∧ reader.step (s.cells reader.thread) = some reader' ∧
      s' = {s with readers := Function.update s.readers r (some reader')} := by
  obtain ⟨reader,there,stepped⟩ := Option.bind_eq_some_iff.mp stepped
  obtain ⟨reader',read,same⟩ := Option.bind_eq_some_iff.mp stepped
  exact ⟨reader,reader',there,read,(Option.some.inj same).symm⟩

theorem asked {r : R} {t : T} {queue : Nat} (stepped : s.step (.readTail r t queue) = some s') :
    s' = {s with readers := Function.update s.readers r (some ⟨t,queue,tailRetries,0,0,false,.epoch⟩)} := by
  unfold step at stepped
  dsimp only at stepped
  split at stepped
  · exact (Option.some.inj stepped).symm
  · exact (Option.some.inj stepped).symm
  · cases stepped

omit [DecidableEq R] in
theorem Sound.cell (sound : s.Sound) {t : T} {c : Cell} (kept : c.Kept) (later : (s.cells t).Later c) :
    Sound {s with cells := Function.update s.cells t c} := by
  constructor
  · intro u
    by_cases same : u = t
    · subst u
      dsimp only
      rw [Function.update_self]
      exact kept
    · dsimp only
      rw [Function.update_of_ne same]
      exact sound.cells u
  · intro r reader there
    have ok := sound.readers r reader there
    by_cases same : reader.thread = t
    · dsimp only
      rw [same] at ok ⊢
      rw [Function.update_self]
      exact ok.later (sound.cells t) later
    · dsimp only
      rw [Function.update_of_ne same]
      exact ok

theorem step_sound (sound : s.Sound) (act : Act T R) (stepped : s.step act = some s') : s'.Sound := by
  cases act with
  | writer t a =>
    obtain ⟨c,moved,rfl⟩ := Option.map_eq_some_iff.mp stepped
    obtain ⟨kept,later⟩ := Cell.step_kept (sound.cells t) a moved
    exact sound.cell kept later
  | reuse t memory =>
    obtain ⟨c,moved,rfl⟩ := Option.map_eq_some_iff.mp stepped
    obtain ⟨kept,later⟩ := Cell.reuse_kept (sound.cells t) moved
    exact sound.cell kept later
  | readTail r t queue =>
    have started := asked stepped
    subst started
    refine ⟨sound.cells,?_⟩
    intro other reader there
    by_cases same : other = r
    · subst other
      dsimp only at there
      rw [Function.update_self,Option.some.injEq] at there
      subst reader
      exact ⟨Nat.zero_le _,rfl,fun _ _ => trivial⟩
    · dsimp only at there
      rw [Function.update_of_ne same] at there
      exact sound.readers other reader there
  | read r =>
    obtain ⟨reader,reader',there,read,rfl⟩ := read_parts stepped
    have looking : reader'.thread = reader.thread := (Reader.step_frame read).1
    refine ⟨sound.cells,?_⟩
    intro other found present
    by_cases same : other = r
    · subst other
      dsimp only at present
      rw [Function.update_self,Option.some.injEq] at present
      subst found
      rw [looking]
      exact Reader.step_ok (sound.cells _) (sound.readers _ _ there) read
    · dsimp only at present
      rw [Function.update_of_ne same] at present
      exact sound.readers other found present
  | fork t =>
    cases stepped
    refine ⟨?_,by simp⟩
    intro u
    dsimp only
    split
    · exact sound.cells t
    · exact Cell.fresh_kept

omit [DecidableEq T] [DecidableEq R] in
theorem initial_sound : (initial (T := T) (R := R)).Sound := ⟨fun _ => Cell.fresh_kept,by simp [initial]⟩

theorem runs_sound {ok : Sys T R → Act T R → Prop} {acts : List (Act T R)}
    (run : Machine.Runs step ok initial acts s) : s.Sound :=
  run.invariant initial_sound fun _ act _ sound _ stepped => step_sound sound act stepped

end Sys

end Trace0.Tails
