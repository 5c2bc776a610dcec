import Trace0.World

namespace Trace0

variable {T : Type}

-- `Hot` points into one buffer of `batchN` slots: what every reader and `commit` rely on.
structure Points (l : Local T) (start : Nat) : Prop where
  nonnull : 0 < start
  finish : l.hot.endAt = start + batchN
  low : start ≤ l.hot.cursor
  high : l.hot.cursor ≤ start + batchN

-- The batch in `Cold` is the one `Hot` points into, with the same base and tid.
structure Armed (l : Local T) (o : OpenBatch) : Prop extends Points l o.start where
  held : l.cold.batch = some o
  base : l.hot.baseTicks = o.batch.baseTicks
  tid : l.hot.tid = o.batch.tid
  room : o.batch.capacity = batchN

structure Unseated (l : Local T) : Prop where
  producer : l.cold.producer = none
  batch : l.cold.batch = none
  cursor : l.hot.cursor = 0
  endAt : l.hot.endAt = 0

def entryAt (base : UInt64) (p : PackedEvent) : UInt64 × UInt32 :=
  (base + p.deltaTicks.toUInt64,p.codeKind)

def Local.written (l : Local T) : List (UInt64 × UInt32) := l.window.map (entryAt l.hot.baseTicks)

theorem entries_eq (b : EventBatch) : b.entries = b.events.map (entryAt b.baseTicks) := rfl

theorem window_points {l : Local T} {start : Nat} (points : Points l start) :
    l.window = (List.range (l.hot.cursor - start)).map fun i => l.slots (start + i) := by
  simp [Local.window,points.finish]

theorem window_length {l : Local T} {start : Nat} (points : Points l start) :
    l.window.length = l.hot.cursor - start := by
  simp [window_points points]

theorem Unseated.window {l : Local T} (none : Unseated l) : l.window = [] := by
  simp [Local.window,none.cursor]

theorem Unseated.written {l : Local T} (none : Unseated l) : l.written = [] := by
  simp [Local.written,none.window]

theorem window_empty {l : Local T} {start : Nat} (points : Points l start) (empty : l.window = []) :
    l.hot.cursor = start := by
  have length := window_length points
  have low := points.low
  simp only [empty,List.length_nil] at length
  omega

theorem window_room {l : Local T} {start : Nat} (points : Points l start) (empty : l.window = []) :
    l.hot.cursor < start + batchN := by
  rw [window_empty points empty]
  exact Nat.lt_add_of_pos_right (by decide)

theorem Armed.seated {l : Local T} {o : OpenBatch} (armed : Armed l o) : ¬Unseated l := fun none => by
  have held := armed.held
  simp [none.batch] at held

theorem window_congr {l m : Local T} (hot : m.hot.cursor = l.hot.cursor)
    (finish : m.hot.endAt = l.hot.endAt) (slots : m.slots = l.slots) : m.window = l.window := by
  simp [Local.window,hot,finish,slots]

@[simp] theorem window_cold (l : Local T) (cold : Cold T) :
    ({l with cold := cold} : Local T).window = l.window := by simp [Local.window]

@[simp] theorem written_cold (l : Local T) (cold : Cold T) :
    ({l with cold := cold} : Local T).written = l.written := by simp [Local.written]

theorem delta_decodes {base ticks : UInt64} (near : ticks - base ≤ deltaOverflow) :
    base + (ticks - base).toUInt32.toUInt64 = ticks := by
  have bound : (ticks - base).toNat ≤ 0xFFFFFFFF := UInt64.le_iff_toNat_le.mp near
  have narrow : (ticks - base).toUInt32.toUInt64 = ticks - base := by
    rw [← UInt64.toNat_inj,UInt32.toNat_toUInt64,UInt64.toNat_toUInt32]
    omega
  rw [narrow]
  simp

theorem writeSlot_some {l l' : Local T} {event : PackedEvent}
    (wrote : EventQueue.writeSlot l event = some l') :
    l' = {l with
      slots := Function.update l.slots l.hot.cursor event
      hot := {l.hot with cursor := l.hot.cursor+1}} := by
  unfold EventQueue.writeSlot at wrote
  split at wrote
  · cases wrote
  · exact (Option.some.inj wrote).symm

theorem writeSlot_points {l l' : Local T} {event : PackedEvent} {start : Nat}
    (points : Points l start) (room : l.hot.cursor < start + batchN)
    (wrote : EventQueue.writeSlot l event = some l') :
    Points l' start ∧ l'.window = l.window ++ [event] := by
  have changed := writeSlot_some wrote
  have low := points.low
  have after : Points l' start := by
    subst changed
    exact ⟨points.nonnull,points.finish,Nat.le_succ_of_le low,room⟩
  refine ⟨after,?_⟩
  rw [window_points after,window_points points]
  subst changed
  -- the slot under the cursor is the one past the window; the earlier ones are untouched
  have grows : l.hot.cursor + 1 - start = (l.hot.cursor - start) + 1 := by omega
  rw [grows,List.range_succ,List.map_append,List.map_singleton]
  congr 1
  · refine List.map_congr_left fun i inside => ?_
    have below := List.mem_range.mp inside
    simp only
    rw [Function.update_of_ne (by omega)]
  · have here : start + (l.hot.cursor - start) = l.hot.cursor := by omega
    simp [here]

theorem writeSlot_armed {l l' : Local T} {o : OpenBatch} {event : PackedEvent}
    (armed : Armed l o) (room : l.hot.cursor < o.start + batchN)
    (wrote : EventQueue.writeSlot l event = some l') :
    Armed l' o ∧ l'.written = l.written ++ [entryAt o.batch.baseTicks event] := by
  obtain ⟨points,window⟩ := writeSlot_points armed.toPoints room wrote
  have changed := writeSlot_some wrote
  have base : l'.hot.baseTicks = l.hot.baseTicks := by rw [changed]
  refine ⟨⟨points,?_,base.trans armed.base,?_,armed.room⟩,?_⟩
  · rw [changed]; exact armed.held
  · rw [changed]; exact armed.tid
  · simp [Local.written,window,base,armed.base]

theorem writeSlot_enabled {l : Local T} {o : OpenBatch} (armed : Armed l o) (event : PackedEvent) :
    ∃ l', EventQueue.writeSlot l event = some l' := by
  have low := armed.low
  have nonnull := armed.nonnull
  unfold EventQueue.writeSlot
  rw [if_neg (by omega)]
  exact ⟨_,rfl⟩

theorem commit_armed {l : Local T} {o : OpenBatch} (armed : Armed l o) :
    l.commit = some {l with cold := {l.cold with
      batch := some {o with batch := {o.batch with events := l.window}}}} := by
  have inside : l.hot.endAt = o.start + o.batch.capacity ∧ o.start ≤ l.hot.cursor ∧
      l.hot.cursor ≤ l.hot.endAt :=
    ⟨armed.room ▸ armed.finish,armed.low,armed.finish ▸ armed.high⟩
  unfold Local.commit
  simp only [armed.held]
  rw [if_pos inside,window_points armed.toPoints]

theorem armed_committed {l : Local T} {o : OpenBatch} (armed : Armed l o) :
    Armed {l with cold := {l.cold with
      batch := some {o with batch := {o.batch with events := l.window}}}}
      {o with batch := {o.batch with events := l.window}} :=
  ⟨⟨armed.nonnull,armed.finish,armed.low,armed.high⟩,rfl,armed.base,armed.tid,armed.room⟩

theorem commit_unseated {l : Local T} (none : Unseated l) : l.commit = some l := by
  simp [Local.commit,none.batch]

-- A batch as its creator leaves it for `arm`: no events yet, room for `batchN` of them.
structure Blank (o : OpenBatch) (base : UInt64) (tid : UInt32) : Prop where
  nonnull : 0 < o.start
  base : o.batch.baseTicks = base
  tid : o.batch.tid = tid
  room : o.batch.capacity = batchN

theorem arm_blank {l : Local T} {o : OpenBatch} {base : UInt64} {tid : UInt32}
    (held : l.cold.batch = some o) (blank : Blank o base tid) :
    Armed l.arm o ∧ l.arm.window = [] ∧ l.arm.hot.baseTicks = base ∧ l.arm.hot.tid = tid := by
  have armed : Armed l.arm o := by
    refine ⟨⟨blank.nonnull,?_,?_,?_⟩,?_,?_,?_,blank.room⟩
    all_goals simp [Local.arm,held]
  refine ⟨armed,?_,by rw [armed.base,blank.base],by rw [armed.tid,blank.tid]⟩
  rw [window_points armed.toPoints]
  simp [Local.arm,held]

theorem arm_again {l : Local T} {o : OpenBatch} (armed : Armed l o) :
    Armed l.arm o ∧ l.arm.window = [] := by
  obtain ⟨rearmed,cleared,_⟩ := arm_blank armed.held ⟨armed.nonnull,rfl,rfl,armed.room⟩
  exact ⟨rearmed,cleared⟩

@[simp] theorem arm_frame (l : Local T) : l.arm.cold = l.cold ∧ l.arm.slots = l.slots ∧
    l.arm.brk = l.brk ∧ l.arm.hot.queueId = l.hot.queueId ∧ l.arm.hot.epoch = l.hot.epoch+2 := by
  unfold Local.arm
  split <;> simp

theorem readTail_points {l : Local T} {start : Nat} (points : Points l start)
    (even : l.hot.epoch % 2 ≠ 1) :
    l.readTail l.hot.queueId =
      if l.window = [] then none
      else some ⟨l.hot.baseTicks,l.hot.tid,l.window,l.window.length⟩ := by
  have finish := points.finish
  have low := points.low
  have high := points.high
  have nonnull := points.nonnull
  have length := window_length points
  by_cases empty : l.window = []
  · have here := window_empty points empty
    simp [Local.readTail,even,empty,here,finish]
  · have some_ : 0 < l.window.length := List.length_pos_iff.mpr empty
    have inside : ¬(l.hot.cursor ≤ l.hot.endAt - batchN ∨ l.hot.endAt < l.hot.cursor) := by omega
    have live : ¬(l.hot.cursor = 0 ∨ l.hot.endAt = 0) := by omega
    simp [Local.readTail,even,empty,inside,live]

theorem readTail_unseated {l : Local T} (none : Unseated l) (queueId : Nat) :
    l.readTail queueId = Option.none := by
  simp [Local.readTail,none.cursor]

theorem even_step (epoch : UInt64) : (epoch+2) % 2 = epoch % 2 := by
  rw [← UInt64.toNat_inj,UInt64.toNat_mod,UInt64.toNat_mod,UInt64.toNat_add]
  have two : (2 : UInt64).toNat = 2 := rfl
  rw [two]
  omega

end Trace0
