import Mathlib.Tactic

namespace Trace0
namespace Assoc

-- Association lists that grow at their end.
variable [BEq K] [LawfulBEq K] {entries : List (K × V)}

theorem mem_of_lookup (found : entries.lookup key = some value) : (key,value) ∈ entries := by
  obtain ⟨before,after,rfl,-⟩ := List.lookup_eq_some_iff.mp found
  exact List.mem_append_right _ List.mem_cons_self

omit [LawfulBEq K] in
theorem lookup_snoc (entries : List (K × V)) (key k : K) (value : V) :
    (entries ++ [(key,value)]).lookup k = (entries.lookup k).or (if k == key then some value else none) := by
  rw [List.lookup_append,List.lookup_cons]
  cases k == key <;> rfl

theorem lookup_isSome : (entries.lookup key).isSome ↔ key ∈ entries.map (·.1) := by
  simp [List.lookup_isSome_iff]

theorem lookup_none : entries.lookup key = none ↔ key ∉ entries.map (·.1) := by
  rw [← lookup_isSome,Option.not_isSome_iff_eq_none]

theorem lookup_of_mem (distinct : (entries.map (·.1)).Nodup) (mem : (key,value) ∈ entries) :
    entries.lookup key = some value := by
  obtain ⟨before,after,rfl⟩ := List.append_of_mem mem
  apply List.lookup_eq_some_iff.mpr
  refine ⟨before,after,rfl,fun other early => ?_⟩
  rw [List.map_append,List.nodup_append] at distinct
  have differs := distinct.2.2 other.1 (List.mem_map_of_mem early) key (by simp)
  simpa using fun same => differs same.symm

def alter [DecidableEq K] (key : K) (f : V → V) (entries : List (K × V)) : List (K × V) :=
  entries.map fun e => if e.1 = key then (key,f e.2) else e

variable [DecidableEq K]

omit [BEq K] [LawfulBEq K] in
@[simp] theorem alter_keys (key : K) (f : V → V) (entries : List (K × V)) :
    (alter key f entries).map (·.1) = entries.map (·.1) := by
  unfold alter
  rw [List.map_map]
  apply List.map_congr_left
  intro e _
  simp only [Function.comp_apply]
  split
  · exact (Eq.symm ‹_›)
  · rfl

theorem alter_lookup (key k : K) (f : V → V) (entries : List (K × V)) :
    (alter key f entries).lookup k = (entries.lookup k).map fun v => if k = key then f v else v := by
  induction entries with
  | nil => rfl
  | cons entry rest ih =>
    obtain ⟨other,value⟩ := entry
    by_cases here : other = key
    · subst here
      by_cases same : k = other
      · subst same
        simp [alter]
      · have differs : (k == other) = false := by simpa using same
        simpa [alter,List.lookup_cons,differs,same] using ih
    · by_cases same : k = other
      · subst same
        simp [alter,here]
      · have differs : (k == other) = false := by simpa using same
        simpa [alter,List.lookup_cons,differs,here] using ih

omit [BEq K] [LawfulBEq K] in
theorem alter_map {g : K × V → W} (kept : ∀ e ∈ entries, e.1 = key → g (key,f e.2) = g e) :
    (alter key f entries).map g = entries.map g := by
  unfold alter
  rw [List.map_map]
  apply List.map_congr_left
  intro e mem
  simp only [Function.comp_apply]
  split
  · exact kept e mem ‹_›
  · rfl

theorem alter_same (distinct : (entries.map (·.1)).Nodup) (known : entries.lookup key = some value) :
    alter key (fun _ => value) entries = entries := by
  have whole : (entries.map fun e => if e.1 = key then (key,value) else e) = entries.map id := by
    apply List.map_congr_left
    intro e mem
    split
    · exact (List.inj_on_of_nodup_map distinct mem (mem_of_lookup known) ‹_›).symm
    · rfl
  rw [alter,whole,List.map_id]

omit [BEq K] [LawfulBEq K] in
theorem alter_renamed [DecidableEq L] {h : K × V → L × W} {key : K} {other : L} {f : V → V} {g : W → W}
    (apart : ∀ e ∈ entries, (h e).1 = other ↔ e.1 = key)
    (image : ∀ e ∈ entries, e.1 = key → h (key,f e.2) = (other,g (h e).2)) :
    alter other g (entries.map h) = (alter key f entries).map h := by
  unfold alter
  rw [List.map_map,List.map_map]
  apply List.map_congr_left
  intro e mem
  simp only [Function.comp_apply,apart e mem]
  split
  · exact (image e mem ‹_›).symm
  · rfl

end Assoc
end Trace0
