import Trace0.TailWhole

namespace Trace0.Tails

variable {T R : Type}

def Cell.OfQueue (c : Cell) (queue : Nat) (batch : EventBatch) : Prop :=
  ∃ last ∈ c.armed, ∃ front, front <+: last.events ∧ batch.events = front.map (·.2) ∧ ∀ e ∈ front, e.1 = queue

theorem Cell.OfQueue.later {c c' : Cell} {queue : Nat} {batch : EventBatch} (own : c.OfQueue queue batch) (later : c.Later c') :
    c'.OfQueue queue batch := by
  obtain ⟨last,among,front,first,events,pushed⟩ := own
  obtain ⟨grown,still,more⟩ := later.armed last among
  exact ⟨grown,still,front,first.trans more,events,pushed⟩

theorem returned_own {r r' : Reader T} {c : Cell} (kept : c.Kept) (ok : r.Ok c) (stepped : r.step c = some r')
    {batch : EventBatch} (returned : r'.tail = some batch) (few : ¬ r.Lapped c) (clean : r.strayed = false) :
    c.OfQueue r.queue batch := by
  obtain ⟨last,front,newest,_,_,first,events,own⟩ := Reader.returned_shown kept ok stepped returned few clean
  exact ⟨last,List.mem_of_getLast? newest,front,first,events,own⟩

namespace Sys

def Own (s : Sys T R) : Prop := ∀ r reader batch, s.readers r = some reader → reader.tail = some batch →
  (s.cells reader.thread).OfQueue reader.queue batch

def Settled (s : Sys T R) : Act T R → Prop
  | .read r => ∀ reader, s.readers r = some reader → reader.Closes (s.cells reader.thread) →
      ¬ reader.Lapped (s.cells reader.thread) ∧ reader.strayed = false
  | _ => True

variable [DecidableEq T] [DecidableEq R] {s s' : Sys T R}

omit [DecidableEq R] in
theorem Own.cell (own : s.Own) {t : T} {c : Cell} (later : (s.cells t).Later c) :
    Own {s with cells := Function.update s.cells t c} := by
  intro r reader batch there returned
  have before := own r reader batch there returned
  by_cases same : reader.thread = t
  · dsimp only
    rw [same] at before ⊢
    rw [Function.update_self]
    exact before.later later
  · dsimp only
    rw [Function.update_of_ne same]
    exact before

theorem step_own (sound : s.Sound) (own : s.Own) (act : Act T R) (settled : s.Settled act) (stepped : s.step act = some s') :
    s'.Own := by
  cases act with
  | writer t a =>
    obtain ⟨c,moved,rfl⟩ := Option.map_eq_some_iff.mp stepped
    exact own.cell (Cell.step_kept (sound.cells t) a moved).2
  | reuse t memory =>
    obtain ⟨c,moved,rfl⟩ := Option.map_eq_some_iff.mp stepped
    exact own.cell (Cell.reuse_kept (sound.cells t) moved).2
  | readTail asking t queue =>
    intro r reader batch there returned
    rw [asked stepped] at there ⊢
    by_cases same : r = asking
    · subst r
      dsimp only at there
      rw [Function.update_self,Option.some.injEq] at there
      subst reader
      cases returned
    · dsimp only at there
      rw [Function.update_of_ne same] at there
      exact own r reader batch there returned
  | read reading =>
    intro r reader batch there returned
    obtain ⟨found,next,present,read,rfl⟩ := read_parts stepped
    by_cases same : r = reading
    · subst r
      dsimp only at there
      rw [Function.update_self,Option.some.injEq] at there
      subst reader
      obtain ⟨few,away⟩ := settled found present (Reader.returned_closes read returned)
      obtain ⟨thread,queue⟩ := Reader.step_frame read
      rw [thread,queue]
      exact returned_own (sound.cells _) (sound.readers _ _ present) read returned few away
    · dsimp only at there
      rw [Function.update_of_ne same] at there
      exact own r reader batch there returned
  | fork t =>
    cases stepped
    exact nofun

end Sys

variable [DecidableEq T] [DecidableEq R]

theorem tails_own {acts : List (Act T R)} {s : Sys T R} (run : Machine.Runs Sys.step Sys.Settled Sys.initial acts s) : s.Own := by
  have both := run.invariant (I := fun s => s.Sound ∧ s.Own) ⟨Sys.initial_sound,by simp [Sys.Own,Sys.initial]⟩
    fun m act next valid settled stepped =>
      ⟨Sys.step_sound valid.1 act stepped,Sys.step_own valid.1 valid.2 act settled stepped⟩
  exact both.2

def settledHere (s : Sys Nat Nat) : Act Nat Nat → Bool
  | .read r => match s.readers r with
    | none => true
    | some reader => match reader.pc with
      | .slots _ _ _ _ _ => (s.cells reader.thread).arms = reader.since ∧ reader.strayed = false
      | _ => true
  | _ => true

theorem settledHere_meets (s : Sys Nat Nat) (act : Act Nat Nat) (here : settledHere s act = true) : s.Settled act := by
  cases act with
  | read r =>
    rintro reader there ⟨⟨cursor,endAt,baseTicks,tid,events,last,_⟩,_⟩
    have still : (s.cells reader.thread).arms = reader.since ∧ reader.strayed = false := by
      simpa [settledHere,there,last] using here
    exact ⟨Reader.not_lapped still.1,still.2⟩
  | _ => trivial

theorem tails_own_one : ∃ s : Sys Nat Nat, Machine.Runs Sys.step Sys.Settled Sys.initial (halfRead ++ readRest) s ∧
    (s.readers 0).bind Reader.tail = some ⟨5,7,[⟨0,1⟩],1⟩ ∧ s.Own := by
  have checked : ((Machine.checkedRun Sys.step settledHere (Sys.initial : Sys Nat Nat) (halfRead ++ readRest)).bind fun s =>
      if (s.readers 0).bind Reader.tail = some ⟨5,7,[⟨0,1⟩],1⟩ then some () else none) = some () := by decide +kernel
  obtain ⟨s,ran,checked⟩ := Option.bind_eq_some_iff.mp checked
  have run := Machine.runs_of_checked settledHere_meets ran
  exact ⟨s,run,(Option.ite_none_right_eq_some.mp checked).1,tails_own run⟩

-- The thread that pushed to queue 1 has stored the id of queue 2, and not armed its batch.
def switching : List (Act Nat Nat) :=
  .writer 0 (.push early) :: stepping 16 4096 ++ .writer 0 (.push ⟨2,6,7,2⟩) :: stepping 6 8192 ++
    .readTail 0 0 2 :: List.replicate 8 (.read 0)

theorem tails_mixed : ∃ s : Sys Nat Nat, Machine.Runs Sys.step Machine.anything Sys.initial switching s ∧ ¬ s.Own := by
  have checked : ((Machine.run Sys.step (Sys.initial : Sys Nat Nat) switching).bind fun s =>
      (s.readers 0).bind fun reader =>
        if reader.thread = 0 ∧ reader.queue = 2 ∧ reader.tail = some ⟨5,7,[⟨0,1⟩],1⟩ ∧
          (∀ last ∈ (s.cells 0).armed, ∀ e ∈ last.events, e.1 = 1) then some () else none) = some () := by decide +kernel
  obtain ⟨s,ran,checked⟩ := Option.bind_eq_some_iff.mp checked
  obtain ⟨reader,there,checked⟩ := Option.bind_eq_some_iff.mp checked
  obtain ⟨⟨thread,queue,returned,pushed⟩,_⟩ := Option.ite_none_right_eq_some.mp checked
  refine ⟨s,Machine.runs_of_run ran,fun own => ?_⟩
  obtain ⟨last,among,front,first,events,second⟩ := own 0 reader _ there returned
  rw [thread] at among
  rw [queue] at second
  cases front with
  | nil => cases events
  | cons e rest =>
    have one := pushed last among e (first.subset (List.mem_cons_self ..))
    have two := second e (List.mem_cons_self ..)
    omega

end Trace0.Tails
