import Mathlib.Data.UInt
import Mathlib.Algebra.Order.Field.Rat
import Mathlib.Tactic.Linarith
import Mathlib.Tactic.Ring
import Mathlib.Tactic.FieldSimp
import Mathlib.Tactic.Positivity

namespace Trace0

-- `measured` carries the conversion of the calibrated counter, a library outside this
-- repository, as a parameter.
inductive Source where
  | selfDescribing (nanosNum nanosDen : UInt64)
  | measured (deltaAsNanos : UInt64 → UInt64 → UInt64)

structure Clock where
  source : Source
  startTicks : UInt64

namespace Clock

def isDirect (clock : Clock) : Bool :=
  match clock.source with
  | .selfDescribing _ _ => true
  | .measured _ => false

def nsSinceStart (clock : Clock) (ticks : UInt64) : UInt64 :=
  match clock.source with
  | .selfDescribing nanosNum nanosDen =>
    let delta := ticks.toNat - clock.startTicks.toNat
    .ofNat (delta * nanosNum.toNat / nanosDen.toNat)
  | .measured deltaAsNanos => deltaAsNanos clock.startTicks ticks

-- The test clock of the repository: one tick is one nanosecond.
def mock : Clock := ⟨.measured fun start ticks => .ofNat (ticks.toNat - start.toNat),0⟩

end Clock

-- What keeps a call from returning: arithmetic the machine refuses, or a loop that goes on.
inductive Stop where
  | panic
  | unfinished
  deriving DecidableEq

def ticksMax : UInt64 := .ofNat (2^64-1)

def saturatingAdd (a b : UInt64) : UInt64 := if a.toNat+b.toNat < 2^64 then a+b else ticksMax

def checkedMul (a b : UInt64) : Option UInt64 := if a.toNat*b.toNat < 2^64 then some (a*b) else none

def add (a b : UInt64) : Except Stop UInt64 := if a.toNat+b.toNat < 2^64 then .ok (a+b) else .error .panic

def sub (a b : UInt64) : Except Stop UInt64 := if b ≤ a then .ok (a-b) else .error .panic

namespace Clock

def widen (clock : Clock) (ns : UInt64) : Nat → UInt64 → Except Stop (Option UInt64)
  | 0,_ => .error .unfinished
  | fuel+1,span =>
    if clock.nsSinceStart (saturatingAdd clock.startTicks span) < ns then
      match checkedMul span 2 with
      | none => .ok none
      | some doubled => clock.widen ns fuel doubled
    else .ok (some span)

def search (clock : Clock) (ns : UInt64) : Nat → UInt64 → UInt64 → Except Stop UInt64
  | 0,_,_ => .error .unfinished
  | fuel+1,lo,hi =>
    if lo < hi then do
      let width ← sub hi lo
      let mid ← add lo (width/2)
      if clock.nsSinceStart mid < ns then
        let lo ← add mid 1
        clock.search ns fuel lo hi
      else clock.search ns fuel lo mid
    else .ok lo

def ticksFromNs (clock : Clock) (ns : UInt64) (fuel : Nat) : Except Stop UInt64 :=
  match clock.source with
  | .selfDescribing nanosNum nanosDen =>
    if nanosNum = 0 then .error .panic
    else
      let ticks := ns.toNat*nanosDen.toNat/nanosNum.toNat
      .ok (saturatingAdd clock.startTicks (.ofNat ticks))
  | .measured _ => do
    match ← clock.widen ns fuel 1 with
    | none => .ok ticksMax
    | some span =>
      let lo := saturatingAdd clock.startTicks (span/2)
      let hi := saturatingAdd clock.startTicks span
      clock.search ns fuel lo hi

def Least (clock : Clock) (ns ticks : UInt64) : Prop :=
  clock.startTicks ≤ ticks ∧ ns ≤ clock.nsSinceStart ticks ∧
    ∀ earlier, clock.startTicks ≤ earlier → ns ≤ clock.nsSinceStart earlier → ticks ≤ earlier

def Inverse (clock : Clock) (ns ticks : UInt64) : Prop :=
  clock.Least ns ticks ∨ ticks = ticksMax ∧ ∀ other, clock.startTicks ≤ other → clock.nsSinceStart other < ns

end Clock

@[simp] theorem ticksMax_toNat : ticksMax.toNat = 2^64-1 := by decide

@[simp] theorem saturatingAdd_toNat (a b : UInt64) : (saturatingAdd a b).toNat = min (a.toNat+b.toNat) (2^64-1) := by
  unfold saturatingAdd
  split
  · rw [UInt64.toNat_add]
    omega
  · rw [ticksMax_toNat]
    omega

theorem le_ticksMax (a : UInt64) : a ≤ ticksMax := by
  have fits := a.toNat_lt
  rw [UInt64.le_iff_toNat_le,ticksMax_toNat]
  omega

namespace Clock

variable {clock : Clock} {ns : UInt64}

def Rises (clock : Clock) : Prop := ∀ a b, a ≤ b → clock.nsSinceStart a ≤ clock.nsSinceStart b

-- The window the search narrows: nothing before it is late enough, its end is.
structure Straddles (clock : Clock) (ns lo hi : UInt64) : Prop where
  order : lo ≤ hi
  early : ∀ earlier, earlier < lo → clock.startTicks ≤ earlier → clock.nsSinceStart earlier < ns
  late : ns ≤ clock.nsSinceStart hi

theorem straddles_least {ticks : UInt64} (started : clock.startTicks ≤ ticks) (straddles : clock.Straddles ns ticks ticks) :
    clock.Least ns ticks := by
  refine ⟨started,straddles.late,?_⟩
  intro earlier since reached
  by_contra before
  exact UInt64.not_lt.mpr reached (straddles.early earlier (UInt64.not_le.mp before) since)

theorem half_toNat {lo hi : UInt64} (order : lo ≤ hi) : ((hi-lo)/2).toNat = (hi.toNat - lo.toNat)/2 := by
  rw [UInt64.toNat_div,UInt64.toNat_sub_of_le _ _ order]
  rfl

theorem mid_toNat {lo hi : UInt64} (order : lo ≤ hi) :
    (lo+(hi-lo)/2).toNat = lo.toNat + (hi.toNat - lo.toNat)/2 := by
  have fits := hi.toNat_lt
  have less := UInt64.le_iff_toNat_le.mp order
  rw [UInt64.toNat_add,half_toNat order]
  omega

theorem succ_toNat {mid : UInt64} (hi : UInt64) (below : mid.toNat < hi.toNat) : (mid+1).toNat = mid.toNat+1 := by
  have fits := hi.toNat_lt
  have one : (1 : UInt64).toNat = 1 := rfl
  rw [UInt64.toNat_add]
  omega

theorem search_next {lo hi : UInt64} (apart : lo < hi) (fuel : Nat) :
    clock.search ns (fuel+1) lo hi =
      if clock.nsSinceStart (lo+(hi-lo)/2) < ns then clock.search ns fuel (lo+(hi-lo)/2+1) hi
      else clock.search ns fuel lo (lo+(hi-lo)/2) := by
  have order : lo ≤ hi := UInt64.le_of_lt apart
  have less := UInt64.lt_iff_toNat_lt.mp apart
  have fits := hi.toNat_lt
  have one : (1 : UInt64).toNat = 1 := rfl
  have subtracted : sub hi lo = .ok (hi-lo) := if_pos order
  have middle : add lo ((hi-lo)/2) = .ok (lo+(hi-lo)/2) := if_pos (by rw [half_toNat order]; omega)
  have advanced : add (lo+(hi-lo)/2) 1 = .ok (lo+(hi-lo)/2+1) := if_pos (by rw [mid_toNat order]; omega)
  rw [search,if_pos apart,subtracted]
  simp only [bind,Except.bind]
  rw [middle]
  dsimp only
  rw [advanced]

theorem straddles_upper {lo hi mid : UInt64} (rises : clock.Rises) (straddles : clock.Straddles ns lo hi)
    (inside : mid.toNat < hi.toNat) (below : clock.nsSinceStart mid < ns) : clock.Straddles ns (mid+1) hi := by
  have next := succ_toNat hi inside
  refine ⟨UInt64.le_iff_toNat_le.mpr (by omega),?_,straddles.late⟩
  intro earlier before _
  rw [UInt64.lt_iff_toNat_lt] at before
  exact UInt64.lt_of_le_of_lt (rises earlier mid (UInt64.le_iff_toNat_le.mpr (by omega))) below

theorem search_least (rises : clock.Rises) (rounds : Nat) (lo hi : UInt64) (width : hi.toNat - lo.toNat < 2^rounds)
    (started : clock.startTicks ≤ lo) (straddles : clock.Straddles ns lo hi) :
    ∃ ticks, (∀ fuel, rounds < fuel → clock.search ns fuel lo hi = .ok ticks) ∧ clock.Least ns ticks := by
  have closed {lo hi : UInt64} (done : ¬lo < hi) (started : clock.startTicks ≤ lo)
      (straddles : clock.Straddles ns lo hi) :
      (∀ fuel, 0 < fuel → clock.search ns fuel lo hi = .ok lo) ∧ clock.Least ns lo := by
    obtain rfl : lo = hi := UInt64.le_antisymm straddles.order (UInt64.not_lt.mp done)
    refine ⟨?_,straddles_least started straddles⟩
    intro fuel enough
    obtain ⟨fuel,rfl⟩ := Nat.exists_eq_add_one_of_ne_zero (Nat.pos_iff_ne_zero.mp enough)
    rw [search,if_neg done]
  induction rounds generalizing lo hi with
  | zero =>
    have order := UInt64.le_iff_toNat_le.mp straddles.order
    have done : ¬lo < hi := by
      rw [UInt64.lt_iff_toNat_lt]
      omega
    exact ⟨lo,closed done started straddles⟩
  | succ rounds ih =>
    by_cases apart : lo < hi
    · have less := UInt64.lt_iff_toNat_lt.mp apart
      have middle := mid_toNat straddles.order
      have next : (lo+(hi-lo)/2+1).toNat = (lo+(hi-lo)/2).toNat+1 := succ_toNat hi (by omega)
      rw [Nat.pow_succ] at width
      by_cases below : clock.nsSinceStart (lo+(hi-lo)/2) < ns
      · obtain ⟨ticks,found,least⟩ := ih (lo+(hi-lo)/2+1) hi (by omega)
          (UInt64.le_trans started (UInt64.le_iff_toNat_le.mpr (by omega)))
          (straddles_upper rises straddles (by omega) below)
        refine ⟨ticks,?_,least⟩
        intro fuel enough
        obtain ⟨fuel,rfl⟩ := Nat.exists_eq_add_of_lt enough
        rw [search_next apart,if_pos below]
        exact found _ (by omega)
      · obtain ⟨ticks,found,least⟩ := ih lo (lo+(hi-lo)/2) (by omega) started
          ⟨UInt64.le_iff_toNat_le.mpr (by omega),straddles.early,UInt64.not_lt.mp below⟩
        refine ⟨ticks,?_,least⟩
        intro fuel enough
        obtain ⟨fuel,rfl⟩ := Nat.exists_eq_add_of_lt enough
        rw [search_next apart,if_neg below]
        exact found _ (by omega)
    · obtain ⟨found,least⟩ := closed apart started straddles
      exact ⟨lo,fun fuel enough => found fuel (by omega),least⟩

def Short (clock : Clock) (ns span : UInt64) : Prop :=
  span/2 = 0 ∨ clock.nsSinceStart (saturatingAdd clock.startTicks (span/2)) < ns

-- The span doubles until it reaches far enough or cannot double again, which it first
-- cannot at `2^63`.
theorem widen_spans (left : Nat) (span : UInt64) (few : left < 64) (power : span.toNat = 2^(63-left))
    (short : clock.Short ns span) :
    (∀ fuel, left < fuel → clock.widen ns fuel span = .ok none) ∧
        clock.nsSinceStart (saturatingAdd clock.startTicks (.ofNat (2^63))) < ns ∨
      ∃ wide : UInt64, (∀ fuel, left < fuel → clock.widen ns fuel span = .ok (some wide)) ∧ wide.toNat ≤ 2^63 ∧
        clock.Short ns wide ∧ ns ≤ clock.nsSinceStart (saturatingAdd clock.startTicks wide) := by
  have two : (2 : UInt64).toNat = 2 := rfl
  induction left generalizing span with
  | zero =>
    have top : span = .ofNat (2^63) := UInt64.toNat_inj.mp power
    by_cases below : clock.nsSinceStart (saturatingAdd clock.startTicks span) < ns
    · refine .inl ⟨?_,top ▸ below⟩
      intro fuel enough
      obtain ⟨fuel,rfl⟩ := Nat.exists_eq_add_of_lt enough
      have stuck : checkedMul span 2 = none := if_neg (by rw [power,two]; decide)
      rw [widen,if_pos below,stuck]
    · refine .inr ⟨span,?_,power.le,short,UInt64.not_lt.mp below⟩
      intro fuel enough
      obtain ⟨fuel,rfl⟩ := Nat.exists_eq_add_of_lt enough
      rw [widen,if_neg below]
  | succ left ih =>
    have small : 2^(63-(left+1))*2 = 2^(63-left) := by
      rw [← Nat.pow_succ]
      congr 1
      omega
    have bound : 2^(63-left) ≤ 2^63 := Nat.pow_le_pow_right (by decide) (Nat.sub_le 63 left)
    by_cases below : clock.nsSinceStart (saturatingAdd clock.startTicks span) < ns
    · have doubled : checkedMul span 2 = some (span*2) := if_pos (by rw [power,two,small]; omega)
      have twice : (span*2).toNat = 2^(63-left) := by
        rw [UInt64.toNat_mul,power,two,small,Nat.mod_eq_of_lt (by omega)]
      have half : span*2/2 = span := by
        apply UInt64.toNat_inj.mp
        rw [UInt64.toNat_div,twice,two,power,← small]
        exact Nat.mul_div_cancel _ (by decide)
      have unfolds (fuel : Nat) (enough : left+1 < fuel) :
          ∃ rest, left < rest ∧ clock.widen ns fuel span = clock.widen ns rest (span*2) := by
        obtain ⟨fuel,rfl⟩ := Nat.exists_eq_add_of_lt enough
        refine ⟨left+1+fuel,by omega,?_⟩
        rw [widen,if_pos below,doubled]
      rcases ih (span*2) (by omega) twice (.inr (by rw [half]; exact below)) with ⟨gaveUp,late⟩ | ⟨wide,found,rest⟩
      · refine .inl ⟨?_,late⟩
        intro fuel enough
        obtain ⟨rest,more,same⟩ := unfolds fuel enough
        rw [same,gaveUp rest more]
      · refine .inr ⟨wide,?_,rest⟩
        intro fuel enough
        obtain ⟨rest,more,same⟩ := unfolds fuel enough
        rw [same,found rest more]
    · refine .inr ⟨span,?_,by omega,short,UInt64.not_lt.mp below⟩
      intro fuel enough
      obtain ⟨fuel,rfl⟩ := Nat.exists_eq_add_of_lt enough
      rw [widen,if_neg below]

theorem reach_mono (start : UInt64) {a b : UInt64} (le : a.toNat ≤ b.toNat) : saturatingAdd start a ≤ saturatingAdd start b := by
  rw [UInt64.le_iff_toNat_le,saturatingAdd_toNat,saturatingAdd_toNat]
  omega

theorem reach_from (start a : UInt64) : start ≤ saturatingAdd start a := by
  have fits := start.toNat_lt
  rw [UInt64.le_iff_toNat_le,saturatingAdd_toNat]
  omega

theorem short_straddles (rises : clock.Rises) {wide : UInt64} (short : clock.Short ns wide)
    (late : ns ≤ clock.nsSinceStart (saturatingAdd clock.startTicks wide)) :
    clock.Straddles ns (saturatingAdd clock.startTicks (wide/2)) (saturatingAdd clock.startTicks wide) := by
  refine ⟨reach_mono _ ?_,?_,late⟩
  · rw [UInt64.toNat_div]
    exact Nat.div_le_self _ _
  · intro earlier before since
    rcases short with first | early
    · rw [first,UInt64.lt_iff_toNat_lt,saturatingAdd_toNat] at before
      have zero : (0 : UInt64).toNat = 0 := rfl
      rw [UInt64.le_iff_toNat_le] at since
      omega
    · exact UInt64.lt_of_le_of_lt (rises _ _ (UInt64.le_of_lt before)) early

theorem last_inverse (rises : clock.Rises) (early : clock.nsSinceStart (saturatingAdd clock.startTicks (.ofNat (2^63))) < ns) :
    clock.Inverse ns ticksMax ↔ clock.nsSinceStart (ticksMax-1) < ns := by
  have before : (ticksMax-1).toNat = 2^64-2 := by decide
  constructor
  · intro inverse
    by_contra reached
    rw [UInt64.not_lt] at reached
    have since : clock.startTicks ≤ ticksMax-1 := by
      rcases UInt64.le_total (ticksMax-1) (saturatingAdd clock.startTicks (.ofNat (2^63))) with within | beyond
      · exact absurd early (UInt64.not_lt.mpr (UInt64.le_trans reached (rises _ _ within)))
      · exact UInt64.le_trans (reach_from _ _) beyond
    rcases inverse with ⟨_,_,least⟩ | ⟨_,never⟩
    · have later := UInt64.le_iff_toNat_le.mp (least (ticksMax-1) since reached)
      rw [before,ticksMax_toNat] at later
      omega
    · exact UInt64.not_lt.mpr reached (never _ since)
  · intro below
    by_cases reached : ns ≤ clock.nsSinceStart ticksMax
    · refine .inl ⟨le_ticksMax _,reached,?_⟩
      intro earlier _ late
      by_contra less
      rw [UInt64.not_le,UInt64.lt_iff_toNat_lt,ticksMax_toNat] at less
      have within : earlier ≤ ticksMax-1 := UInt64.le_iff_toNat_le.mpr (by omega)
      exact UInt64.not_lt.mpr late (UInt64.lt_of_le_of_lt (rises _ _ within) below)
    · refine .inr ⟨rfl,?_⟩
      intro other _
      exact UInt64.lt_of_le_of_lt (rises _ _ (le_ticksMax other)) (UInt64.not_le.mp reached)

theorem measured_ends (delta : UInt64 → UInt64 → UInt64) (start ns : UInt64)
    (rises : Rises ⟨.measured delta,start⟩) :
    let clock : Clock := ⟨.measured delta,start⟩
    ∃ ticks, (∀ fuel, 64 < fuel → clock.ticksFromNs ns fuel = .ok ticks) ∧
      (clock.Inverse ns ticks ↔ ns ≤ clock.nsSinceStart (saturatingAdd start (.ofNat (2^63))) ∨
        clock.nsSinceStart (ticksMax-1) < ns) := by
  intro clock
  have first : (1 : UInt64).toNat = 2^(63-63) := rfl
  rcases widen_spans 63 1 (by decide) first (.inl rfl : clock.Short ns 1) with
    ⟨gaveUp,early⟩ | ⟨wide,found,bound,short,late⟩
  · refine ⟨ticksMax,?_,?_⟩
    · intro fuel enough
      rw [ticksFromNs]
      simp only [clock,bind,Except.bind]
      rw [gaveUp fuel (by omega)]
    · rw [last_inverse rises early,or_iff_right (UInt64.not_le.mpr early)]
  · have straddles := short_straddles rises short late
    have width : (saturatingAdd clock.startTicks wide).toNat - (saturatingAdd clock.startTicks (wide/2)).toNat < 2^64 := by
      have fits := (saturatingAdd clock.startTicks wide).toNat_lt
      omega
    obtain ⟨ticks,searched,least⟩ := search_least rises 64 _ _ width (reach_from _ _) straddles
    refine ⟨ticks,?_,?_⟩
    · intro fuel enough
      rw [ticksFromNs]
      simp only [clock,bind,Except.bind]
      rw [found fuel (by omega)]
      exact searched fuel enough
    · apply iff_of_true (.inl least)
      have top : (UInt64.ofNat (2^63)).toNat = 2^63 := by decide
      exact .inl (UInt64.le_trans late (rises _ _ (reach_mono _ (by rw [top]; exact bound))))

theorem self_inverts (num den start ns : UInt64) (up : 0 < num) (down : 0 < den)
    (fits : start.toNat + ns.toNat*den.toNat/num.toNat < 2^64) :
    let clock : Clock := ⟨.selfDescribing num den,start⟩
    ∃ ticks, (∀ fuel, clock.ticksFromNs ns fuel = .ok ticks) ∧ clock.nsSinceStart ticks ≤ ns ∧
      (ns.toNat : ℚ) < (clock.nsSinceStart ticks).toNat + (num.toNat : ℚ)/den.toNat + 1 := by
  intro clock
  have up := UInt64.lt_iff_toNat_lt.mp up
  have down := UInt64.lt_iff_toNat_lt.mp down
  have zero : (0 : UInt64).toNat = 0 := rfl
  have small := ns.toNat_lt
  rw [zero] at up down
  have nonzero : num ≠ 0 := by
    rintro rfl
    exact Nat.lt_irrefl _ up
  generalize spent : ns.toNat*den.toNat/num.toNat = quotient at fits
  have lower : quotient*num.toNat ≤ ns.toNat*den.toNat := spent ▸ Nat.div_mul_le_self _ _
  have upper : ns.toNat*den.toNat < (quotient+1)*num.toNat := by
    rw [← spent,Nat.add_mul,Nat.one_mul]
    exact Nat.lt_div_mul_add up
  have back : quotient*num.toNat/den.toNat ≤ ns.toNat := Nat.div_le_of_le_mul (by rw [Nat.mul_comm den.toNat]; exact lower)
  have quotient_toNat : (UInt64.ofNat quotient).toNat = quotient := UInt64.toNat_ofNat_of_lt' (by rw [UInt64.size]; omega)
  have elapsed : (clock.nsSinceStart (saturatingAdd start (.ofNat quotient))).toNat = quotient*num.toNat/den.toNat := by
    simp only [nsSinceStart,clock,saturatingAdd_toNat,quotient_toNat]
    rw [Nat.min_eq_left (by omega),Nat.add_sub_cancel_left]
    exact UInt64.toNat_ofNat_of_lt' (by rw [UInt64.size]; omega)
  refine ⟨saturatingAdd start (.ofNat quotient),?_,?_,?_⟩
  · intro fuel
    rw [ticksFromNs]
    simp only [clock,if_neg nonzero,spent]
  · rw [UInt64.le_iff_toNat_le,elapsed]
    exact back
  · rw [elapsed]
    have rest : quotient*num.toNat < (quotient*num.toNat/den.toNat+1)*den.toNat := by
      rw [Nat.add_mul,Nat.one_mul]
      exact Nat.lt_div_mul_add down
    generalize quotient*num.toNat/den.toNat = ticks at rest
    have total : ns.toNat*den.toNat < (ticks+1)*den.toNat + num.toNat := by
      rw [Nat.add_mul,Nat.one_mul] at upper
      omega
    have positive : (0 : ℚ) < den.toNat := by exact_mod_cast down
    have rational : (ns.toNat : ℚ)*den.toNat < (ticks+1)*den.toNat + num.toNat := by exact_mod_cast total
    calc (ns.toNat : ℚ) < ((ticks+1)*den.toNat + num.toNat)/den.toNat := (lt_div_iff₀ positive).mpr rational
      _ = ticks + (num.toNat : ℚ)/den.toNat + 1 := by
        field_simp
        ring

end Clock

-- The search of a measured clock is exact up to `2^63` ticks after the start; past that it
-- answers with the last tick, which is right only where no earlier one is late enough.
theorem ticks_from_ns_inverts (start ns : UInt64) :
    (∀ delta : UInt64 → UInt64 → UInt64, (∀ a b, a ≤ b → delta start a ≤ delta start b) →
      let clock : Clock := ⟨.measured delta,start⟩
      ∃ ticks, (∀ fuel, 64 < fuel → clock.ticksFromNs ns fuel = .ok ticks) ∧
        (clock.Inverse ns ticks ↔ ns ≤ clock.nsSinceStart (saturatingAdd start (.ofNat (2^63))) ∨
          clock.nsSinceStart (ticksMax-1) < ns)) ∧
      ∀ num den : UInt64, 0 < num → 0 < den → start.toNat + ns.toNat*den.toNat/num.toNat < 2^64 →
        let clock : Clock := ⟨.selfDescribing num den,start⟩
        ∃ ticks, (∀ fuel, clock.ticksFromNs ns fuel = .ok ticks) ∧ clock.nsSinceStart ticks ≤ ns ∧
          (ns.toNat : ℚ) < (clock.nsSinceStart ticks).toNat + (num.toNat : ℚ)/den.toNat + 1 :=
  ⟨fun delta rises => Clock.measured_ends delta start ns rises,
    fun num den up down fits => Clock.self_inverts num den start ns up down fits⟩

-- One nanosecond a tick from tick 0: `2^63+1` ns have passed at that very tick.
theorem ticks_from_ns_gives_up :
    let ns : UInt64 := .ofNat (2^63+1)
    (∀ a b, a ≤ b → Clock.mock.nsSinceStart a ≤ Clock.mock.nsSinceStart b) ∧ Clock.mock.nsSinceStart 0 = 0 ∧
      Clock.mock.ticksFromNs ns 65 = .ok ticksMax ∧ ¬Clock.mock.Inverse ns ticksMax := by
  have elapsed (a : UInt64) : Clock.mock.nsSinceStart a = a := by
    show UInt64.ofNat (a.toNat - 0) = a
    rw [Nat.sub_zero,UInt64.ofNat_toNat]
  refine ⟨?_,rfl,by decide +kernel,?_⟩
  · intro a b le
    rw [elapsed,elapsed]
    exact le
  · rintro (⟨_,_,least⟩ | ⟨_,never⟩)
    · exact absurd (least (.ofNat (2^63+1)) (by decide) (by rw [elapsed]; exact UInt64.le_refl _)) (by decide)
    · exact absurd (never ticksMax (by decide)) (by rw [elapsed]; decide)

theorem ticks_from_ns_inverts_five :
    (∃ ticks, Clock.mock.ticksFromNs 5 65 = .ok ticks ∧ Clock.mock.Inverse 5 ticks) ∧
      ∃ ticks, (∀ fuel, Clock.ticksFromNs ⟨.selfDescribing 1 64,1000⟩ 5 fuel = .ok ticks) ∧
        Clock.nsSinceStart ⟨.selfDescribing 1 64,1000⟩ ticks ≤ 5 := by
  have elapsed (a : UInt64) : UInt64.ofNat (a.toNat - (0 : UInt64).toNat) = a := UInt64.ofNat_toNat
  constructor
  · obtain ⟨ticks,found,exact_⟩ := (ticks_from_ns_inverts 0 5).1 (fun start ticks => .ofNat (ticks.toNat - start.toNat))
      (fun a b le => by rw [elapsed,elapsed]; exact le)
    exact ⟨ticks,found 65 (by decide),exact_.mpr (.inl (by decide))⟩
  · obtain ⟨ticks,found,low,_⟩ := (ticks_from_ns_inverts 1000 5).2 1 64 (by decide) (by decide) (by decide)
    exact ⟨ticks,found,low⟩

end Trace0
