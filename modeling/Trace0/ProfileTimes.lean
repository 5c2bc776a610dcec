import Trace0.Pprof
import Trace0.PprofTables

namespace Trace0
namespace Pprof
open PprofExporter Keyed

-- A stream that opens and closes every call, each close that of the innermost call, in the order of time.
def Closed (stream : List Event) : Prop := Brackets.replay [] ((stream.map timed).map (·.1)) = some []

def Rising (stream : List Event) : Prop := stream.Pairwise fun a b => a.tsNs ≤ b.tsNs

instance (stream : List Event) : Decidable (Closed stream) := inferInstanceAs (Decidable (_ = _))

instance (stream : List Event) : Decidable (Rising stream) := inferInstanceAs (Decidable (List.Pairwise _ _))

structure Interleaved (threads : Finset UInt32) (streams : UInt32 → List Event) (events : List Event) : Prop where
  covered : ∀ ev ∈ events, ev.tid ∈ threads
  own : ∀ tid ∈ threads, events.filter (·.tid = tid) = streams tid

theorem Interleaved.same (left : Interleaved threads streams events) (right : Interleaved threads streams others)
    (tid : UInt32) : events.filter (·.tid = tid) = others.filter (·.tid = tid) := by
  by_cases known : tid ∈ threads
  · rw [left.own tid known,right.own tid known]
  · have none {items : List Event} (covered : ∀ ev ∈ items, ev.tid ∈ threads) : items.filter (·.tid = tid) = [] := by
      rw [List.filter_eq_nil_iff]
      intro ev mem same
      exact known (of_decide_eq_true same ▸ covered ev mem)
    rw [none left.covered,none right.covered]

theorem toInt64_ofNat (v : UInt64) : v.toInt64 = Int64.ofNat v.toNat :=
  congrArg Int64.ofUInt64 (UInt64.ofNat_toNat).symm

theorem sum_skipped (Q : List UInt32 → Prop) [DecidablePred Q] (none : ¬Q []) (charges : List (List UInt32 × ℕ)) :
    (((charges.filter fun c => 0 < c.2 ∧ c.1 ≠ []).filter (Q ·.1)).map (·.2)).sum =
      ((charges.filter (Q ·.1)).map (·.2)).sum := by
  induction charges with
  | nil => rfl
  | cons c charges ih =>
    obtain ⟨path,elapsed⟩ := c
    by_cases counts : Q path
    · have somewhere : path ≠ [] := fun same => none (same ▸ counts)
      by_cases positive : 0 < elapsed
      · simp [counts,somewhere,positive] at ih ⊢
        exact ih
      · have zero : elapsed = 0 := Nat.eq_zero_of_not_pos positive
        simp [counts,zero] at ih ⊢
        exact ih
    · by_cases kept : 0 < elapsed ∧ path ≠ []
      · simp [counts,kept] at ih ⊢
        exact ih
      · simp only [List.filter_cons,kept,counts,decide_false,Bool.false_eq_true,if_false] at ih ⊢
        exact ih

-- A thread's first event charges nothing, so its stream may as well start with an empty stack at that time.
theorem thread_charged {stream : List Event} (rising : Rising stream) : ∃ last, Timed.Rising last (stream.map timed) ∧
    ∀ (Q : List UInt32 → Prop) [DecidablePred Q], ¬Q [] →
      (((inNat (threadCharges .none stream)).filter (Q ·.1)).map (·.2)).sum =
        (((Timed.charges [] last (stream.map timed)).filter (Q ·.1)).map (·.2)).sum := by
  cases stream with
  | nil => exact ⟨0,List.pairwise_singleton _ _,fun _ _ _ => rfl⟩
  | cons ev stream =>
    have first : (ev.tsNs :: (ev :: stream).map (·.tsNs)).Pairwise (· ≤ ·) := by
      have inside : ((ev :: stream).map (·.tsNs)).Pairwise (· ≤ ·) := List.pairwise_map.mpr rising
      apply List.pairwise_cons.mpr ⟨?_,inside⟩
      intro ts mem
      rcases List.mem_cons.mp mem with rfl | mem
      · exact UInt64.le_refl _
      · exact (List.pairwise_cons.mp inside).1 ts mem
    refine ⟨ev.tsNs.toNat,?_,?_⟩
    · have nat := List.pairwise_map.mpr (first.imp UInt64.le_iff_toNat_le.mp)
      rw [List.map_cons,List.map_map] at nat
      rw [Timed.Rising,List.map_map]
      exact nat
    · intro Q _ none
      have timed := thread_timed ⟨[],ev.tsNs⟩ (ev :: stream) first
      have same : threadCharges .none (ev :: stream) = threadCharges (some ⟨[],ev.tsNs⟩) (ev :: stream) := rfl
      rw [same,timed]
      exact sum_skipped Q none _

section

variable {threads : Finset UInt32} {streams : UInt32 → List Event} {events : List Event}
  (interleaved : Interleaved threads streams events)
include interleaved

theorem charged_threads (f : List UInt32 × UInt64 → ℕ) :
    ((chargesFrom (fun _ => none) events).map fun c => f c.2).sum =
      ∑ tid ∈ threads, ((threadCharges none (streams tid)).map f).sum := by
  have covered : ∀ c ∈ chargesFrom (fun _ => none) events, c.1 ∈ threads := by
    intro c mem
    obtain ⟨ev,present,same⟩ := charges_tid mem
    exact same ▸ interleaved.covered ev present
  rw [tally_owners f covered]
  apply Finset.sum_congr rfl
  intro tid known
  rw [owned_charges,interleaved.own tid known]

theorem charged_sum (rising : ∀ tid ∈ threads, Rising (streams tid)) (Q : List UInt32 → Prop) [DecidablePred Q]
    (none : ¬Q []) {time : List (Brackets.Bracket UInt32 × ℕ) → ℕ}
    (counted : ∀ tid ∈ threads, ∀ last, Timed.Rising last ((streams tid).map timed) →
      (((Timed.charges [] last ((streams tid).map timed)).filter (Q ·.1)).map (·.2)).sum = time ((streams tid).map timed)) :
    ((chargesFrom (fun _ => .none) events).map fun c => Timed.mark (Q c.2.1) * c.2.2.toNat).sum =
      ∑ tid ∈ threads, time ((streams tid).map timed) := by
  rw [charged_threads interleaved fun c => Timed.mark (Q c.1) * c.2.toNat]
  apply Finset.sum_congr rfl
  intro tid known
  obtain ⟨last,start,same⟩ := thread_charged (rising tid known)
  rw [← counted tid known last start,← same Q none,← Timed.sum_marked (fun c : List UInt32 × ℕ => Q c.1) (·.2),inNat,
    List.map_map]
  rfl

end

-- The sums of nanoseconds, before they are cut to 64 bits.
def ledger (events : List Event) : List (List UInt32 × ℕ) :=
  Ledger.credits [] ((chargesFrom (fun _ => none) events).map fun c => (c.2.1,c.2.2.toNat))

theorem selfNs_ledger (batches : List (List Event)) :
    (batches.foldl writeBatch .new).selfNs = (ledger batches.flatten).map fun e => (e.1,Int64.ofNat e.2) := by
  have cut : amounts (chargesFrom (fun _ => none) batches.flatten) =
      ((chargesFrom (fun _ => none) batches.flatten).map fun c => (c.2.1,c.2.2.toNat)).map
        fun e => (e.1,Int64.ofNat e.2) := by
    rw [List.map_map]
    apply List.map_congr_left
    intro c _
    exact congrArg (Prod.mk c.2.1) (toInt64_ofNat c.2.2)
  rw [ledger,Ledger.credits_map Int64.ofNat_add,batches_flatten,(events_charged _ _).1]
  exact congrArg _ cut

theorem ledger_worth (weight : List UInt32 → ℕ) (events : List Event) :
    ((ledger events).map fun e => weight e.1 * e.2).sum =
      ((chargesFrom (fun _ => none) events).map fun c => weight c.2.1 * c.2.2.toNat).sum := by
  rw [ledger,Ledger.credits_worth,List.map_map]
  exact Nat.zero_add _

section

variable {threads : Finset UInt32} {streams : UInt32 → List Event} {events : List Event}
  (interleaved : Interleaved threads streams events) (closed : ∀ tid ∈ threads, Closed (streams tid))
  (rising : ∀ tid ∈ threads, Rising (streams tid))
include interleaved closed rising

theorem ledger_at {p : List UInt32} (some : p ≠ []) : (((ledger events).filter (p <+: ·.1)).map (·.2)).sum =
    ∑ tid ∈ threads, Timed.timeAt p ((streams tid).map timed) := by
  have none : ¬p <+: [] := fun within => some (List.prefix_nil.mp within)
  rw [← charged_sum interleaved rising (p <+: ·) none fun tid known _ start =>
    Timed.charged_at (closed tid known) start some]
  rw [← Timed.sum_marked (fun e : List UInt32 × ℕ => p <+: e.1) (·.2)]
  exact ledger_worth (fun q => Timed.mark (p <+: q)) events

theorem ledger_small (mem : e ∈ ledger events) : e.2 ≤ ∑ tid ∈ threads, Timed.timeOf ((streams tid).map timed) := by
  have whole := charged_sum interleaved rising (· ≠ []) (fun same => same rfl) fun tid known _ start =>
    Timed.charged_all (closed tid known) start
  rw [← whole,← ledger_worth (fun q => Timed.mark (q ≠ []))]
  have key : e.1 ∈ (ledger events).map (·.1) := List.mem_map_of_mem mem
  rw [ledger,Ledger.credits_keys] at key
  rcases key with none | charged
  · cases none
  · rw [List.map_map] at charged
    obtain ⟨c,present,same⟩ := List.mem_map.mp charged
    have somewhere : e.1 ≠ [] := same ▸ charges_stack present
    apply List.single_le_sum (fun _ _ => Nat.zero_le _)
    apply List.mem_map.mpr
    exact ⟨e,mem,by rw [Timed.mark,if_pos somewhere,Nat.one_mul]⟩

end

def shown (codes : CodeLookup) (e : List UInt32 × ℕ) : List Frame × Int64 :=
  (e.1.reverse.map (frameOf codes),Int64.ofNat e.2)

theorem frames_prefix (codes : CodeLookup) (p q : List UInt32) :
    p.map (frameOf codes) <+: (q.reverse.map (frameOf codes)).reverse ↔ p <+: q := by
  rw [← List.map_reverse,List.reverse_reverse,List.prefix_map_iff]
  constructor
  · rintro ⟨r,within,same⟩
    exact List.map_injective_iff.mpr (fun _ _ => frameOf_inj codes) same ▸ within
  · intro within
    exact ⟨p,within,rfl⟩

theorem shown_distinct (codes : CodeLookup) {entries : List (List UInt32 × ℕ)} (distinct : (entries.map (·.1)).Nodup) :
    ((entries.map (shown codes)).map (·.1)).Nodup := by
  have paths : (entries.map (shown codes)).map (·.1) =
      (entries.map (·.1)).map fun q => q.reverse.map (frameOf codes) := by
    rw [List.map_map,List.map_map]
    rfl
  rw [paths]
  apply distinct.map
  intro q r same
  exact List.reverse_injective (List.map_injective_iff.mpr (fun _ _ => frameOf_inj codes) same)

theorem shown_sum (codes : CodeLookup) (p : List UInt32) {entries : List (List UInt32 × ℕ)}
    (small : ∀ e ∈ entries, e.2 < 2 ^ 63) :
    (((entries.map (shown codes)).filter (p.map (frameOf codes) <+: ·.1.reverse)).map (·.2.toInt)).sum =
      (((entries.filter (p <+: ·.1)).map (·.2)).sum : ℕ) := by
  induction entries with
  | nil => rfl
  | cons e entries ih =>
    have rest := ih fun f mem => small f (List.mem_cons_of_mem _ mem)
    have here : (shown codes e).2.toInt = e.2 := Int64.toInt_ofNat_of_lt (small e List.mem_cons_self)
    have same : p.map (frameOf codes) <+: (shown codes e).1.reverse ↔ p <+: e.1 := frames_prefix codes p e.1
    by_cases below : p <+: e.1
    · rw [List.map_cons,List.filter_cons,if_pos (decide_eq_true (same.mpr below)),List.filter_cons,
        if_pos (decide_eq_true below),List.map_cons,List.sum_cons,rest,here,List.map_cons,List.sum_cons,Nat.cast_add]
    · rw [List.map_cons,List.filter_cons,if_neg fun yes => below (same.mp (of_decide_eq_true yes)),List.filter_cons,
        if_neg fun yes => below (of_decide_eq_true yes),rest]

theorem profile_accounts (encode : pb.Profile → List UInt8) (codes : CodeLookup) (dropped : UInt64)
    (threads : Finset UInt32) (streams : UInt32 → List Event) (closed : ∀ tid ∈ threads, Closed (streams tid))
    (rising : ∀ tid ∈ threads, Rising (streams tid))
    (total : ∑ tid ∈ threads, Timed.timeOf ((streams tid).map timed) < 2 ^ 63) (batches : List (List Event))
    (interleaved : Interleaved threads streams batches.flatten) :
    let ex := batches.foldl writeBatch .new
    let built := profile ex.selfNs codes dropped
    (finish encode ex codes dropped).out = [.write (encode built),.flush] ∧ Consistent built ∧
      (∃ samples, readProfile built = some samples ∧ (samples.map (·.1)).Nodup ∧
        ∀ p, p ≠ [] → ((samples.filter (p.map (frameOf codes) <+: ·.1.reverse)).map (·.2.toInt)).sum =
          (∑ tid ∈ threads, Timed.timeAt p ((streams tid).map timed) : ℕ)) ∧
      ∀ other : List (List Event), Interleaved threads streams other.flatten →
        profile (other.foldl writeBatch .new).selfNs codes dropped = built := by
  intro ex built
  have sums : ex.selfNs = (ledger batches.flatten).map fun e => (e.1,Int64.ofNat e.2) := selfNs_ledger batches
  have describes : Built codes ex.selfNs built := profile_built ex.selfNs codes dropped
  have reads : readProfile built = some ((ledger batches.flatten).map (shown codes)) := by
    rw [describes.reads,sums,List.map_map]
    rfl
  refine ⟨?_,describes.consistent,⟨_,reads,?_,?_⟩,?_⟩
  · have kept : ex.out = [] := by
      have run : ex = batches.flatten.foldl writeEvent .new := batches_flatten _ _
      rw [run]
      exact (events_charged _ _).2
    rw [finish,kept]
    rfl
  · exact shown_distinct codes (Ledger.credits_ordered List.Pairwise.nil _).distinct
  · intro p some
    rw [← ledger_at interleaved closed rising some]
    apply shown_sum
    intro e mem
    exact Nat.lt_of_le_of_lt (ledger_small interleaved closed rising mem) total
  · intro other again
    have same : (other.foldl writeBatch .new).selfNs = ex.selfNs := by
      rw [sums,selfNs_ledger,ledger,ledger]
      have perm := charges_perm (fun _ => none) (again.same interleaved)
      rw [Ledger.credits_perm (perm.map _)]
    rw [same]

-- Two threads in one function, which calls another in the first of them; its times are 100 and 20.
def demoStreams (tid : UInt32) : List Event :=
  if tid = 1 then [.new 0 1 0 .Begin,.new 30 1 1 .Begin,.new 80 1 1 .Yield,.new 100 1 0 .End]
  else [.new 50 2 0 .Resume,.new 70 2 0 .Unwind]

def demoBatches : List (List Event) :=
  [[.new 0 1 0 .Begin,.new 30 1 1 .Begin,.new 50 2 0 .Resume],[],
    [.new 80 1 1 .Yield,.new 70 2 0 .Unwind,.new 100 1 0 .End]]

theorem profile_accounts_two :
    let codes : CodeLookup := fun id => if id = 0 then some ⟨"fib","demo.py",12⟩ else none
    let built := profile (demoBatches.foldl writeBatch .new).selfNs codes 0
    Consistent built ∧ ∃ samples, readProfile built = some samples ∧ (samples.map (·.1)).Nodup ∧
      ((samples.filter ([0].map (frameOf codes) <+: ·.1.reverse)).map (·.2.toInt)).sum = 120 ∧
      ((samples.filter ([0,1].map (frameOf codes) <+: ·.1.reverse)).map (·.2.toInt)).sum = 50 := by
  intro codes built
  have both {P : UInt32 → Prop} (one : P 1) (two : P 2) : ∀ tid ∈ ({1,2} : Finset UInt32), P tid := by
    simpa using ⟨one,two⟩
  have nested : ∀ tid ∈ ({1,2} : Finset UInt32), Closed (demoStreams tid) := both (by decide) (by decide)
  have rising : ∀ tid ∈ ({1,2} : Finset UInt32), Rising (demoStreams tid) := both (by decide) (by decide)
  have total : ∑ tid ∈ ({1,2} : Finset UInt32), Timed.timeOf ((demoStreams tid).map timed) < 2 ^ 63 := by decide
  have covered : (demoBatches.flatten.all fun ev => ev.tid ∈ ({1,2} : Finset UInt32)) = true := by decide
  have interleaved : Interleaved {1,2} demoStreams demoBatches.flatten :=
    ⟨fun ev mem => of_decide_eq_true (List.all_eq_true.mp covered ev mem),both (by decide) (by decide)⟩
  obtain ⟨_,consistent,⟨samples,reads,distinct,sums⟩,_⟩ :=
    profile_accounts (fun _ => []) codes 0 {1,2} demoStreams nested rising total demoBatches interleaved
  have outer : ∑ tid ∈ ({1,2} : Finset UInt32), Timed.timeAt [0] ((demoStreams tid).map timed) = 120 := by decide
  have inner : ∑ tid ∈ ({1,2} : Finset UInt32), Timed.timeAt [0,1] ((demoStreams tid).map timed) = 50 := by decide
  refine ⟨consistent,samples,reads,distinct,?_,?_⟩
  · rw [sums [0] (List.cons_ne_nil _ _),outer]
    rfl
  · rw [sums [0,1] (List.cons_ne_nil _ _),inner]
    rfl

end Pprof
end Trace0
