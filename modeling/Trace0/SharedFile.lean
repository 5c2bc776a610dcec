import Trace0.Lib.Keyed
import Trace0.Lib.Machine
import Trace0.Exporter

namespace Trace0
namespace SharedFile

inductive Phase where
  | idle
  | writing (rest : List UInt8)
  | cleared
  | dropped
  deriving DecidableEq

structure Writer where
  calls : List OutCall
  buf : List UInt8
  phase : Phase
  deriving DecidableEq

-- The writers open one path, each for itself, so the lock is between them all.
structure System (ι : Type) where
  file : List UInt8
  lock : Option ι
  writers : ι → Writer

-- `acquire`, `append`, `clear` and `release` are the steps of a commit, by `flush` or by
-- `drop`; a single write may take fewer bytes than it is given.
inductive Move where
  | extend
  | pass
  | acquire
  | append (n : Nat)
  | clear
  | release
  | drop
  deriving DecidableEq

variable {ι : Type} [DecidableEq ι]

def System.set (s : System ι) (i : ι) (w : Writer) : System ι := {s with writers := Function.update s.writers i w}

def step (s : System ι) : ι × Move → Option (System ι)
  | (i,.extend) =>
    match (s.writers i).phase,(s.writers i).calls with
    | .idle,.write bytes :: calls => some (s.set i ⟨calls,(s.writers i).buf ++ bytes,.idle⟩)
    | _,_ => none
  | (i,.pass) =>
    match s.writers i with
    | ⟨.flush :: calls,[],.idle⟩ => some (s.set i ⟨calls,[],.idle⟩)
    | _ => none
  | (i,.acquire) =>
    match (s.writers i).phase,(s.writers i).calls,s.lock with
    | .idle,.write _ :: _,_ => none
    | .idle,_,none =>
      if (s.writers i).buf = [] then none
      else some ({s with lock := some i}.set i {s.writers i with phase := .writing (s.writers i).buf})
    | _,_,_ => none
  | (i,.append n) =>
    match (s.writers i).phase with
    | .writing rest =>
      if 0 < n ∧ n ≤ rest.length then
        some ({s with file := s.file ++ rest.take n}.set i {s.writers i with phase := .writing (rest.drop n)})
      else none
    | _ => none
  | (i,.clear) =>
    match (s.writers i).phase with
    | .writing [] => some (s.set i {s.writers i with buf := [],phase := .cleared})
    | _ => none
  | (i,.release) =>
    match (s.writers i).phase with
    | .cleared =>
      some ({s with lock := none}.set i
        ⟨(s.writers i).calls.tail,(s.writers i).buf,if (s.writers i).calls = [] then .dropped else .idle⟩)
    | _ => none
  | (i,.drop) =>
    match s.writers i with
    | ⟨[],[],.idle⟩ => some (s.set i ⟨[],[],.dropped⟩)
    | _ => none

-- `create` starts the file over, whatever was in it, and is alone in making these calls;
-- `append` does not touch the file, so a writer opened later is one that waits.
def performAlone : List UInt8 × List UInt8 → OutCall → List UInt8 × List UInt8
  | (file,buf),.write bytes => (file,buf ++ bytes)
  | (file,buf),.flush => if buf = [] then (file,buf) else (file ++ buf,[])

def create (opening : List OutCall) : List UInt8 × List UInt8 := opening.foldl performAlone ([],[])

def shared (header : List UInt8) (program : ι → List OutCall) : System ι where
  file := header
  lock := none
  writers i := ⟨program i,[],.idle⟩

-- The records of each commit to come, the first of which is under way with what is in the
-- buffer; what is left in it at the end is committed by `drop`.
def Writes : List UInt8 → List OutCall → List (List (List UInt8)) → Prop
  | buf,[],groups => buf = groups.flatten.flatten
  | buf,.write bytes :: calls,groups => Writes (buf ++ bytes) calls groups
  | buf,.flush :: calls,groups => ∃ g gs, groups = g :: gs ∧ buf = g.flatten ∧ Writes [] calls gs

def Owes (w : Writer) (groups : List (List (List UInt8))) : Prop :=
  match w.phase with
  | .idle => Writes w.buf w.calls groups
  | .writing _ => ∃ g gs, groups = g :: gs ∧ w.buf = g.flatten ∧ Writes [] w.calls.tail gs
  | .cleared => w.buf = [] ∧ Writes [] w.calls.tail groups
  | .dropped => groups.flatten = []

def Busy (w : Writer) : Prop := (∃ left, w.phase = .writing left) ∨ w.phase = .cleared

structure Standing (header : List UInt8) (groups : ι → List (List (List UInt8))) (log : List (ι × List UInt8))
    (rest : ι → List (List (List UInt8))) (part : List UInt8) (s : System ι) : Prop where
  file : s.file = header ++ (log.map (·.2)).flatten ++ part
  split : ∀ i, Keyed.ownedBy i log ++ (rest i).flatten = (groups i).flatten
  owes : ∀ i, Owes (s.writers i) (rest i)
  holder : ∀ i, s.lock = some i ↔ Busy (s.writers i)
  underWay : ∀ i left, (s.writers i).phase = .writing left → (s.writers i).buf = part ++ left
  still : (∀ i left, (s.writers i).phase ≠ .writing left) → part = []

inductive Moved (s : System ι) (i : ι) : System ι → Prop where
  | extend (idle : s.writers i = ⟨.write bytes :: calls,buf,.idle⟩) : Moved s i (s.set i ⟨calls,buf ++ bytes,.idle⟩)
  | pass (idle : s.writers i = ⟨.flush :: calls,[],.idle⟩) : Moved s i (s.set i ⟨calls,[],.idle⟩)
  | acquire (idle : s.writers i = ⟨calls,buf,.idle⟩) (commits : ∀ bytes more, calls ≠ .write bytes :: more)
      (some : buf ≠ []) (free : s.lock = none) :
      Moved s i ({s with lock := .some i}.set i ⟨calls,buf,.writing buf⟩)
  | append (writing : s.writers i = ⟨calls,buf,.writing (piece ++ left)⟩) :
      Moved s i ({s with file := s.file ++ piece}.set i ⟨calls,buf,.writing left⟩)
  | clear (written : s.writers i = ⟨calls,buf,.writing []⟩) : Moved s i (s.set i ⟨calls,[],.cleared⟩)
  | release (cleared : s.writers i = ⟨calls,buf,.cleared⟩) :
      Moved s i ({s with lock := none}.set i ⟨calls.tail,buf,if calls = [] then .dropped else .idle⟩)
  | drop (idle : s.writers i = ⟨[],[],.idle⟩) : Moved s i (s.set i ⟨[],[],.dropped⟩)

theorem step_cases {s s' : System ι} {i : ι} {m : Move} (moved : step s (i,m) = some s') : Moved s i s' := by
  rcases own : s.writers i with ⟨calls,buf,phase⟩
  cases m with
  | extend =>
    simp only [step,own] at moved
    split at moved
    · cases moved
      exact .extend own
    · cases moved
  | pass =>
    simp only [step,own] at moved
    split at moved
    · rename_i same
      cases moved
      exact .pass (own.trans same)
    · cases moved
  | acquire =>
    simp only [step,own] at moved
    split at moved
    · cases moved
    · rename_i noWrite free
      split at moved
      · cases moved
      · rename_i some
        cases moved
        exact .acquire own noWrite some free
    · cases moved
  | append n =>
    simp only [step,own] at moved
    split at moved
    · rename_i rest
      split at moved
      · cases moved
        exact .append (by rw [List.take_append_drop]; exact own)
      · cases moved
    · cases moved
  | clear =>
    simp only [step,own] at moved
    split at moved
    · cases moved
      exact .clear own
    · cases moved
  | release =>
    simp only [step,own] at moved
    split at moved
    · cases moved
      exact .release own
    · cases moved
  | drop =>
    simp only [step,own] at moved
    split at moved
    · rename_i same
      cases moved
      exact .drop (own.trans same)
    · cases moved

section moves

variable {header : List UInt8} {groups rest : ι → List (List (List UInt8))} {log : List (ι × List UInt8)}
  {part : List UInt8} {s : System ι} {i : ι}

omit [DecidableEq ι] in
theorem not_busy_of_idle {w : Writer} (idle : w.phase = .idle ∨ w.phase = .dropped) : ¬Busy w := by
  rintro (⟨left,writing⟩ | cleared)
  · rw [writing] at idle
    rcases idle with same | same <;> cases same
  · rw [cleared] at idle
    rcases idle with same | same <;> cases same

theorem Standing.split_on (had : Standing header groups log rest part s) {new : List (List UInt8)}
    {left : List (List (List UInt8))} (split : (rest i).flatten = new ++ left.flatten) (j : ι) :
    Keyed.ownedBy j (log ++ new.map (i,·)) ++ (Function.update rest i left j).flatten = (groups j).flatten := by
  rw [Keyed.ownedBy_append,Keyed.ownedBy_map]
  rcases eq_or_ne j i with rfl | other
  · rw [if_pos rfl,Function.update_self,List.append_assoc,← split]
    exact had.split j
  · rw [if_neg other.symm,Function.update_of_ne other,List.append_nil]
    exact had.split j

theorem Standing.owes_on (had : Standing header groups log rest part s) {w : Writer} {left : List (List (List UInt8))}
    (owes : Owes w left) (j : ι) : Owes (Function.update s.writers i w j) (Function.update rest i left j) := by
  rcases eq_or_ne j i with rfl | other
  · simpa using owes
  · simpa [other] using had.owes j

omit [DecidableEq ι] in
theorem log_flatten (log : List (ι × List UInt8)) (i : ι) (new : List (List UInt8)) :
    ((log ++ new.map (i,·)).map (·.2)).flatten = (log.map (·.2)).flatten ++ new.flatten := by
  simp [Function.comp_def]

theorem Standing.outside (had : Standing header groups log rest part s) {w : Writer} (idle : (s.writers i).phase = .idle)
    (after : w.phase = .idle ∨ w.phase = .dropped) (new : List (List UInt8)) (left : List (List (List UInt8)))
    (split : (rest i).flatten = new ++ left.flatten) (empty : new.flatten = []) (owes : Owes w left) :
    Standing header groups (log ++ new.map (i,·)) (Function.update rest i left) part (s.set i w) where
  file := by
    rw [log_flatten,empty,List.append_nil]
    exact had.file
  split := had.split_on split
  owes := had.owes_on owes
  holder j := by
    rcases eq_or_ne j i with rfl | other
    · have before : ¬Busy (s.writers j) := not_busy_of_idle (.inl idle)
      simpa [System.set] using iff_of_false (mt (had.holder j).mp before) (not_busy_of_idle after)
    · simpa [System.set,other] using had.holder j
  underWay j left writing := by
    rcases eq_or_ne j i with rfl | other
    · simp only [System.set,Function.update_self] at writing
      rw [writing] at after
      rcases after with same | same <;> cases same
    · simp only [System.set,Function.update_of_ne other] at writing ⊢
      exact had.underWay j left writing
  still none := by
    apply had.still
    intro j left writing
    rcases eq_or_ne j i with rfl | other
    · rw [idle] at writing
      cases writing
    · apply none j left
      simpa [System.set,other] using writing

theorem Standing.alone (had : Standing header groups log rest part s) (busy : Busy (s.writers i)) {j : ι}
    (other : j ≠ i) : ¬Busy (s.writers j) := by
  intro also
  have here := (had.holder i).mpr busy
  rw [(had.holder j).mpr also] at here
  cases here
  exact other rfl

theorem Standing.inside (had : Standing header groups log rest part s) {w : Writer} (lock : Option ι)
    (file part' : List UInt8) (new : List (List UInt8)) (left : List (List (List UInt8)))
    (free : ∀ j, j ≠ i → ¬Busy (s.writers j)) (held : lock = if w.phase = .idle ∨ w.phase = .dropped then none else some i)
    (text : file = header ++ (log.map (·.2)).flatten ++ new.flatten ++ part')
    (split : (rest i).flatten = new ++ left.flatten) (owes : Owes w left)
    (underWay : ∀ tail, w.phase = .writing tail → w.buf = part' ++ tail)
    (still : (∀ tail, w.phase ≠ .writing tail) → part' = []) :
    Standing header groups (log ++ new.map (i,·)) (Function.update rest i left) part'
      ({s with file := file,lock := lock}.set i w) where
  file := by
    rw [log_flatten,← List.append_assoc]
    exact text
  split := had.split_on split
  owes := had.owes_on owes
  holder j := by
    rcases eq_or_ne j i with rfl | other
    · simp only [System.set,Function.update_self,held]
      split
      · rename_i quiet
        exact iff_of_false nofun (not_busy_of_idle quiet)
      · rename_i busy
        refine iff_of_true rfl ?_
        cases phase : w.phase with
        | idle => exact absurd (.inl phase) busy
        | writing tail => exact .inl ⟨tail,phase⟩
        | cleared => exact .inr phase
        | dropped => exact absurd (.inr phase) busy
    · simp only [System.set,Function.update_of_ne other,held]
      refine iff_of_false ?_ (free j other)
      split
      · exact nofun
      · intro same
        cases same
        exact other rfl
  underWay j tail writing := by
    rcases eq_or_ne j i with rfl | other
    · simp only [System.set,Function.update_self] at writing ⊢
      exact underWay tail writing
    · simp only [System.set,Function.update_of_ne other] at writing
      exact absurd (.inl ⟨tail,writing⟩) (free j other)
  still none := by
    apply still
    intro tail writing
    apply none i tail
    simpa [System.set] using writing

theorem Moved.standing {s' : System ι} (moved : Moved s i s') (had : Standing header groups log rest part s) :
    ∃ log' rest' part', Standing header groups log' rest' part' s' := by
  have owes := had.owes i
  have idleAlone : s.lock = none → ∀ j, ¬Busy (s.writers j) := by
    intro free j busy
    rw [(had.holder j).mpr busy] at free
    cases free
  have holderAlone : Busy (s.writers i) → ∀ j, j ≠ i → ¬Busy (s.writers j) := fun busy _ => had.alone busy
  cases moved with
  | extend idle =>
    rw [idle] at owes
    exact ⟨_,_,_,had.outside (by rw [idle]) (.inl rfl) [] (rest i) rfl rfl owes⟩
  | pass idle =>
    rw [idle] at owes
    obtain ⟨g,gs,own,empty,later⟩ := owes
    exact ⟨_,_,_,had.outside (by rw [idle]) (.inl rfl) g gs (by rw [own,List.flatten_cons]) empty.symm later⟩
  | drop idle =>
    rw [idle] at owes
    exact ⟨_,_,_,had.outside (by rw [idle]) (.inr rfl) (rest i).flatten [] (by simp) owes.symm rfl⟩
  | @acquire calls buf idle commits some free =>
    rw [idle] at owes
    have still : part = [] := had.still fun j left writing => idleAlone free j (.inl ⟨left,writing⟩)
    obtain ⟨g,gs,own,full,later⟩ : ∃ g gs, (rest i).flatten = [] ++ (g :: gs).flatten ∧ buf = g.flatten ∧
        Writes [] calls.tail gs := by
      cases calls with
      | nil => exact ⟨(rest i).flatten,[],by simp,owes,rfl⟩
      | cons call more =>
        cases call with
        | write bytes => exact absurd rfl (commits bytes more)
        | flush =>
          obtain ⟨g,gs,own,full,later⟩ := owes
          exact ⟨g,gs,by rw [own]; rfl,full,later⟩
    refine ⟨_,_,_,had.inside _ _ [] [] (g :: gs) (fun j _ => idleAlone free j) rfl (by simpa [still] using had.file) own
      ⟨g,gs,rfl,full,later⟩ ?_ ?_⟩
    · intro tail writing
      cases writing
      rfl
    · intro none
      exact absurd rfl (none _)
  | @append calls buf piece left writing =>
    have busy : Busy (s.writers i) := .inl ⟨_,by rw [writing]⟩
    have content := had.underWay i (piece ++ left) (by rw [writing])
    rw [writing] at owes content
    refine ⟨_,_,_,had.inside s.lock _ (part ++ piece) [] (rest i) (holderAlone busy) ?_ ?_ rfl owes ?_ ?_⟩
    · exact (had.holder i).mpr busy
    · rw [had.file,List.flatten_nil,List.append_nil,List.append_assoc _ part]
    · intro tail same
      cases same
      rw [content,List.append_assoc]
    · intro none
      exact absurd rfl (none left)
  | @clear calls buf finished =>
    have busy : Busy (s.writers i) := .inl ⟨_,by rw [finished]⟩
    have content := had.underWay i [] (by rw [finished])
    rw [finished] at owes content
    obtain ⟨g,gs,own,full,later⟩ := owes
    refine ⟨_,_,_,had.inside s.lock s.file [] g gs (holderAlone busy) ?_ ?_
      (by rw [own,List.flatten_cons]) ⟨rfl,later⟩ nofun (fun _ => rfl)⟩
    · exact (had.holder i).mpr busy
    · rw [had.file,← full,List.append_nil]
      rw [List.append_nil] at content
      rw [content]
  | @release calls buf cleared =>
    have busy : Busy (s.writers i) := .inr (by rw [cleared])
    have still : part = [] := by
      apply had.still
      intro j left writing
      rcases eq_or_ne j i with rfl | other
      · rw [cleared] at writing
        cases writing
      · exact had.alone busy other (.inl ⟨left,writing⟩)
    rw [cleared] at owes
    obtain ⟨rfl,later⟩ := owes
    by_cases last : calls = []
    · subst last
      refine ⟨_,_,_,had.inside _ _ [] (rest i).flatten [] (holderAlone busy) rfl ?_ (by simp) rfl nofun (fun _ => rfl)⟩
      have empty : (rest i).flatten.flatten = [] := later.symm
      rw [empty,had.file,still]
      simp
    · rw [if_neg last]
      refine ⟨_,_,_,had.inside _ _ [] [] (rest i) (holderAlone busy) rfl ?_ rfl later nofun (fun _ => rfl)⟩
      rw [had.file,still]
      simp

end moves

variable {header : List UInt8} {groups : ι → List (List (List UInt8))} {program : ι → List OutCall}

theorem shared_standing (fit : ∀ i, Writes [] (program i) (groups i)) :
    Standing header groups [] groups [] (shared header program) where
  file := by simp [shared]
  split _ := rfl
  owes := fit
  holder i := by
    refine iff_of_false nofun ?_
    exact not_busy_of_idle (.inl rfl)
  underWay _ _ writing := by cases writing
  still _ := rfl

theorem run_standing (fit : ∀ i, Writes [] (program i) (groups i))
    (path : Machine.Runs step Machine.anything (shared header program) acts s) :
    ∃ log rest part, Standing header groups log rest part s := by
  refine path.invariant (I := fun s => ∃ log rest part, Standing header groups log rest part s)
    ⟨_,_,_,shared_standing fit⟩ ?_
  rintro m ⟨i,move⟩ m' ⟨log,rest,part,had⟩ - moved
  exact (step_cases moved).standing had

theorem dropped_records (fit : ∀ i, Writes [] (program i) (groups i))
    (path : Machine.Runs step Machine.anything (shared header program) acts s) (free : s.lock = none) :
    ∃ log : List (ι × List UInt8), s.file = header ++ (log.map (·.2)).flatten ∧
      ∀ i, Keyed.ownedBy i log <+: (groups i).flatten ∧
        ((s.writers i).phase = .dropped → Keyed.ownedBy i log = (groups i).flatten) := by
  obtain ⟨log,rest,part,had⟩ := run_standing fit path
  have still : part = [] := by
    apply had.still
    intro i left writing
    have held := (had.holder i).mpr (.inl ⟨left,writing⟩)
    rw [free] at held
    cases held
  refine ⟨log,by simpa [still] using had.file,fun i => ⟨⟨_,had.split i⟩,?_⟩⟩
  intro dropped
  have paid := had.owes i
  unfold Owes at paid
  rw [dropped] at paid
  have split := had.split i
  rwa [paid,List.append_nil] at split

def left (w : Writer) : Nat :=
  10*w.calls.length + match w.phase with
    | .idle => 9
    | .writing [] => 7
    | .writing _ => 8
    | .cleared => 6
    | .dropped => 0

theorem goes_on {s : System ι} (had : Standing header groups log rest part s) {i : ι} (open_ : (s.writers i).phase ≠ .dropped)
    (turn : s.lock = none ∨ s.lock = some i) :
    ∃ m s', step s (i,m) = some s' ∧ left (s'.writers i) < left (s.writers i) ∧ (s'.lock = none ∨ s'.lock = some i) ∧
      ∀ j, j ≠ i → s'.writers j = s.writers j := by
  have goes {m : Move} {t : System ι} {w : Writer} (stepped : step s (i,m) = some (t.set i w)) (same : t.writers = s.writers)
      (less : left w < left (s.writers i)) (held : t.lock = none ∨ t.lock = some i) :
      ∃ m s', step s (i,m) = some s' ∧ left (s'.writers i) < left (s.writers i) ∧ (s'.lock = none ∨ s'.lock = some i) ∧
        ∀ j, j ≠ i → s'.writers j = s.writers j := by
    refine ⟨m,_,stepped,by simpa [System.set] using less,held,?_⟩
    intro j other
    simp [System.set,other,same]
  rcases own : s.writers i with ⟨calls,buf,phase⟩
  rw [own] at open_ goes
  cases phase with
  | idle =>
    have free : s.lock = none := by
      refine turn.resolve_right fun held => ?_
      exact not_busy_of_idle (.inl (by rw [own])) ((had.holder i).mp held)
    match calls,buf with
    | .write bytes :: more,buf =>
      have stepped : step s (i,.extend) = some (s.set i ⟨more,buf ++ bytes,.idle⟩) := by simp [step,own]
      exact goes stepped rfl (by simp [left]) (.inl free)
    | .flush :: more,[] =>
      have stepped : step s (i,.pass) = some (s.set i ⟨more,[],.idle⟩) := by simp [step,own]
      exact goes stepped rfl (by simp [left]) (.inl free)
    | .flush :: more,b :: bytes =>
      have stepped : step s (i,.acquire) =
          some ({s with lock := some i}.set i ⟨.flush :: more,b :: bytes,.writing (b :: bytes)⟩) := by simp [step,own,free]
      exact goes stepped rfl (by simp [left]) (.inr rfl)
    | [],[] =>
      have stepped : step s (i,.drop) = some (s.set i ⟨[],[],.dropped⟩) := by simp [step,own]
      exact goes stepped rfl (by simp [left]) (.inl free)
    | [],b :: bytes =>
      have stepped : step s (i,.acquire) = some ({s with lock := some i}.set i ⟨[],b :: bytes,.writing (b :: bytes)⟩) := by
        simp [step,own,free]
      exact goes stepped rfl (by simp [left]) (.inr rfl)
  | writing tail =>
    have held : s.lock = some i := (had.holder i).mpr (.inl ⟨tail,by rw [own]⟩)
    cases tail with
    | nil =>
      have stepped : step s (i,.clear) = some (s.set i ⟨calls,[],.cleared⟩) := by simp [step,own]
      exact goes stepped rfl (by simp [left]) (.inr held)
    | cons b more =>
      have stepped : step s (i,.append (more.length+1)) =
          some ({s with file := s.file ++ b :: more}.set i ⟨calls,buf,.writing []⟩) := by simp [step,own]
      exact goes stepped rfl (by simp [left]) (.inr held)
  | cleared =>
    have stepped : step s (i,.release) =
        some ({s with lock := none}.set i ⟨calls.tail,buf,if calls = [] then .dropped else .idle⟩) := by simp [step,own]
    refine goes stepped rfl ?_ (.inl rfl)
    cases calls with
    | nil => simp [left]
    | cons call more =>
      simp [left]
      omega
  | dropped => exact absurd rfl open_

theorem turn_ends (fit : ∀ i, Writes [] (program i) (groups i)) {s : System ι}
    (path : Machine.Runs step Machine.anything (shared header program) acts s) (i : ι) (turn : s.lock = none ∨ s.lock = some i) :
    ∃ more s', Machine.Runs step Machine.anything s more s' ∧ s'.lock = none ∧ (s'.writers i).phase = .dropped ∧
      ∀ j, j ≠ i → s'.writers j = s.writers j := by
  induction size : left (s.writers i) using Nat.strong_induction_on generalizing s acts with
  | _ n ih =>
    obtain ⟨log,rest,part,had⟩ := run_standing fit path
    by_cases open_ : (s.writers i).phase = .dropped
    · refine ⟨[],s,.nil,turn.resolve_right fun held => ?_,open_,fun _ _ => rfl⟩
      exact not_busy_of_idle (.inr open_) ((had.holder i).mp held)
    · obtain ⟨m,s₁,stepped,less,turn',others⟩ := goes_on had open_ turn
      obtain ⟨more,s',onward,free,dropped,still⟩ := ih _ (size ▸ less) (path.snoc trivial stepped) turn' rfl
      exact ⟨_,s',.cons trivial stepped onward,free,dropped,fun j other => (still j other).trans (others j other)⟩

theorem all_end (fit : ∀ i, Writes [] (program i) (groups i)) {s : System ι}
    (path : Machine.Runs step Machine.anything (shared header program) acts s) (chosen : List ι) :
    ∃ more s', Machine.Runs step Machine.anything s more s' ∧ s'.lock = none ∧ ∀ i ∈ chosen, (s'.writers i).phase = .dropped := by
  have freed : ∃ more s', Machine.Runs step Machine.anything s more s' ∧ s'.lock = none := by
    cases held : s.lock with
    | none => exact ⟨[],s,.nil,held⟩
    | some j =>
      obtain ⟨more,s',onward,free,_⟩ := turn_ends fit path j (.inr held)
      exact ⟨more,s',onward,free⟩
  obtain ⟨first,s₀,start,free⟩ := freed
  induction chosen with
  | nil => exact ⟨first,s₀,start,free,by simp⟩
  | cons i rest ih =>
    obtain ⟨more,s₁,onward,free,ended⟩ := ih
    obtain ⟨last,s',final,free',dropped,still⟩ := turn_ends fit (path.append onward) i (.inl free)
    refine ⟨_,s',onward.append final,free',?_⟩
    intro j among
    by_cases same : j = i
    · rw [same]
      exact dropped
    · rw [still j same]
      exact ended j (List.mem_of_ne_of_mem same among)

end SharedFile
end Trace0
