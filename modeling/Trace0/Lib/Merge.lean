import Trace0.Lib.Keyed

-- One reader over what several owners have interleaved, where an item of one owner neither
-- needs nor changes what is known of the others.
namespace Merge

variable {κ α β σ τ : Type*}

def readAll (read : σ → α → Option (σ × List β)) : σ → List α → Option (σ × List β)
  | s,[] => some (s,[])
  | s,a :: rest => do
    let (s,first) ← read s a
    let (s,later) ← readAll read s rest
    some (s,first ++ later)

variable {read : σ → α → Option (σ × List β)}

theorem readAll_cons {s s' : σ} {a : α} {first : List β} (next : read s a = some (s',first)) (rest : List α) :
    readAll read s (a :: rest) = (readAll read s' rest).map fun last => (last.1,first ++ last.2) := by
  simp only [readAll,next,Option.bind_eq_bind,Option.bind_some]
  cases readAll read s' rest <;> rfl

theorem readAll_prefix {s last : σ} {items part : List α} {out : List β} (prior : part <+: items)
    (whole : readAll read s items = some (last,out)) :
    ∃ mid early, readAll read s part = some (mid,early) ∧ early <+: out := by
  obtain ⟨behind,rfl⟩ := prior
  induction part generalizing s out with
  | nil => exact ⟨s,[],rfl,List.nil_prefix⟩
  | cons a rest ih =>
    simp only [List.cons_append,readAll,Option.bind_eq_bind,Option.bind_eq_some_iff,Option.some.injEq,
      Prod.mk.injEq] at whole
    obtain ⟨⟨s',first⟩,next,⟨_,later⟩,remaining,rfl,rfl⟩ := whole
    obtain ⟨mid,early,onward,inside⟩ := ih remaining
    refine ⟨mid,first ++ early,?_,(List.prefix_append_right_inj first).mpr inside⟩
    rw [readAll_cons next,onward]
    rfl

-- A reader of the merged items beside a reader for each owner: `Agree k t s` says that `t`
-- knows of the owner what `s` knows.
structure Apart (merged : τ → α → Option (τ × List β)) (read : σ → α → Option (σ × List β))
    (Own : κ → α → Prop) (Agree : κ → τ → σ → Prop) : Prop where
  follows : ∀ {k t s a s' out}, Own k a → Agree k t s → read s a = some (s',out) →
    ∃ t', merged t a = some (t',out) ∧ Agree k t' s'
  frame : ∀ {k j t t' s a out}, Own k a → j ≠ k → merged t a = some (t',out) → Agree j t s → Agree j t' s

variable [DecidableEq κ] {merged : τ → α → Option (τ × List β)} {Own : κ → α → Prop} {Agree : κ → τ → σ → Prop}

theorem read_merged (apart : Apart merged read Own Agree) {log : List (κ × α)} (owned : ∀ x ∈ log, Own x.1 x.2)
    {t : τ} {start : κ → σ} (agree : ∀ k, Agree k t (start k))
    (alone : ∀ k, ∃ last out, readAll read (start k) (Keyed.ownedBy k log) = some (last,out)) :
    ∃ (t' : τ) (tagged : List (κ × β)), readAll merged t (log.map (·.2)) = some (t',tagged.map (·.2)) ∧
      ∀ k, ∃ last, readAll read (start k) (Keyed.ownedBy k log) = some (last,Keyed.ownedBy k tagged) := by
  induction log generalizing t start with
  | nil => exact ⟨t,[],rfl,fun k => ⟨start k,rfl⟩⟩
  | cons x rest ih =>
    obtain ⟨k,a⟩ := x
    have own : Own k a := owned _ List.mem_cons_self
    have here := alone k
    rw [Keyed.ownedBy_cons,if_pos rfl,List.singleton_append] at here
    obtain ⟨last,out,whole⟩ := here
    simp only [readAll,Option.bind_eq_bind,Option.bind_eq_some_iff,Option.some.injEq,Prod.mk.injEq] at whole
    obtain ⟨⟨s',first⟩,next,⟨last',later⟩,remaining,-,-⟩ := whole
    obtain ⟨mid,stepped,agreed⟩ := apart.follows own (agree k) next
    have onward : ∀ j, Agree j mid (Function.update start k s' j) := by
      intro j
      rcases eq_or_ne j k with rfl | other
      · simpa using agreed
      · simpa [other] using apart.frame own other stepped (agree j)
    have split : ∀ j, Keyed.ownedBy j ((k,a) :: rest) = (if k = j then [a] else []) ++ Keyed.ownedBy j rest :=
      fun j => Keyed.ownedBy_cons j (k,a) rest
    have still : ∀ j, ∃ last out, readAll read (Function.update start k s' j) (Keyed.ownedBy j rest) = some (last,out) := by
      intro j
      rcases eq_or_ne j k with rfl | other
      · exact ⟨last',later,by simpa using remaining⟩
      · have whole := alone j
        rw [split,if_neg other.symm,List.nil_append] at whole
        simpa [other] using whole
    obtain ⟨t',tagged,read_rest,each⟩ := ih (fun y mem => owned y (List.mem_cons_of_mem _ mem)) onward still
    refine ⟨t',first.map (k,·) ++ tagged,?_,?_⟩
    · rw [List.map_cons,readAll_cons stepped,read_rest,List.map_append,List.map_map]
      simp [Function.comp_def]
    · intro j
      obtain ⟨last,ended⟩ := each j
      refine ⟨last,?_⟩
      rw [split,Keyed.ownedBy_append,Keyed.ownedBy_map]
      rcases eq_or_ne j k with rfl | other
      · rw [if_pos rfl,if_pos rfl,List.singleton_append,readAll_cons next]
        rw [Function.update_self] at ended
        rw [ended]
        rfl
      · rw [if_neg other.symm,if_neg other.symm]
        rw [Function.update_of_ne other] at ended
        simpa using ended

end Merge
