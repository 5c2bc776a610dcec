import Mathlib.Logic.Basic

-- Programs that may stop half way and leave what they have done: facts that hold of the state
-- however such a program ends.
namespace Attempt

variable {ε σ : Type u} {α β : Type u} {I : σ → Prop}

def final : EStateM.Result ε σ α → σ
  | .ok _ s => s
  | .error _ s => s

def Keeps (I : σ → Prop) (m : EStateM ε σ α) : Prop := ∀ s, I s → I (final (m s))

theorem bind_ok {m : EStateM ε σ α} {f : α → EStateM ε σ β} {s s' : σ} {a : α} (first : m s = .ok a s') :
    (m >>= f) s = f a s' := by
  show EStateM.bind m f s = f a s'
  rw [EStateM.bind,first]

theorem bind_error {m : EStateM ε σ α} {f : α → EStateM ε σ β} {s s' : σ} {e : ε} (first : m s = .error e s') :
    (m >>= f) s = .error e s' := by
  show EStateM.bind m f s = .error e s'
  rw [EStateM.bind,first]

theorem keeps_pure (a : α) : Keeps I (pure a : EStateM ε σ α) := fun _ inv => inv

theorem keeps_modify {f : σ → σ} (each : ∀ s, I s → I (f s)) :
    Keeps I (modify f : EStateM ε σ PUnit) := fun s inv => each s inv

theorem keeps_bind {m : EStateM ε σ α} {f : α → EStateM ε σ β} (first : Keeps I m) (next : ∀ a, Keeps I (f a)) :
    Keeps I (m >>= f) := by
  intro s inv
  have middle := first s inv
  cases ran : m s with
  | ok a s' =>
    rw [ran] at middle
    rw [bind_ok ran]
    exact next a s' middle
  | error e s' =>
    rw [ran] at middle
    rw [bind_error ran]
    exact middle

theorem keeps_get {f : σ → EStateM ε σ α} (next : ∀ s, I s → I (final (f s s))) : Keeps I (get >>= f) :=
  fun s inv => next s inv

theorem keeps_forM {γ : Type v} {f : γ → EStateM ε σ PUnit} (each : ∀ c, Keeps I (f c)) (items : List γ) :
    Keeps I (items.forM f) := by
  induction items with
  | nil => exact keeps_pure _
  | cons item items ih => exact keeps_bind (each item) fun _ => ih

end Attempt
