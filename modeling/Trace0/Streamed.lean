import Trace0.Pipeline
import Trace0.Streaming
import Trace0.Turns

namespace Trace0

variable {T E : Type} [DecidableEq T]

namespace Interner

variable {i : Interner} {info : CodeInfo} {key : UInt64}

end Interner

section Worlds

variable {tidOf : T → UInt32} {w w' : World T} {p p' : Pipeline T} {t : T}

structure Apart (w w' : World T) : Prop where
  pushed : w'.ledger.pushed = w.ledger.pushed
  floor : w'.queue.recycleFloor = w.queue.recycleFloor
  clock : w'.queue.clock = w.queue.clock
  stage : ∀ t ticks codeKind, InPush (w.stage t) ticks codeKind → w'.stage t = w.stage t

omit [DecidableEq T] in
theorem Apart.refl (w : World T) : Apart w w := ⟨rfl,rfl,rfl,fun _ _ _ _ => rfl⟩

end Worlds

variable {tidOf : T → UInt32} {x : Exporter E} {s s' : Streaming T E} {t : T}

def MidCall (interner : Interner) (stage : Stage) : Callback → Prop
  | .floored _ _ _ floor => floor = 0
  | .resolved key _ _ id => interner.map key = some id
  | .pushing key => ∃ ticks kind id, InPush stage ticks (packCodeKind id kind) ∧ interner.map key = some id
  | _ => True

omit [DecidableEq T] in
theorem MidCall.kept {i i' : Interner} {stage stage' : Stage} {callback : Callback} (calling : MidCall i stage callback)
    (map : ∀ key id, callback.key = some key → i.map key = some id → i'.map key = some id)
    (still : ∀ ticks codeKind, InPush stage ticks codeKind → InPush stage' ticks codeKind) :
    MidCall i' stage' callback := by
  cases callback with
  | floored key kind ticks floor => exact calling
  | resolved key kind ticks id => exact map key id rfl calling
  | pushing key =>
    obtain ⟨ticks,kind,id,inside,mapped⟩ := calling
    exact ⟨ticks,kind,id,still ticks _ inside,map key id rfl mapped⟩
  | _ => trivial

-- A push has the code object it was for under its id, and the name its thread had.
structure Traces (tidOf : T → UInt32) (interner : Interner) (registry : ThreadRegistry) (push : T × UInt64 × UInt32)
    (origin : T × Origin) : Prop where
  same : push.1 = origin.1
  code : interner.code (codeIdOf push.2.2) = some origin.2.info
  name : ∀ name, origin.2.name = some name → registry.name (tidOf origin.1) = some name

-- The floor stays where it began, so no id is handed out twice and a name once right stays so.
structure Coded (tidOf : T → UInt32) (s : Streaming T E) : Prop where
  interner : s.interner.Sound
  floor : s.pipeline.world.queue.recycleFloor = 0
  names : ∀ key id, s.interner.map key = some id → ∃ info, s.live key = some info ∧ s.interner.code id = some info
  origins : List.Forall₂ (Traces tidOf s.interner s.registry) s.pipeline.world.ledger.pushed s.origins
  callbacks : ∀ t, MidCall s.interner (s.pipeline.world.stage t) (s.callbacks t)

structure Knows (s s' : Streaming T E) : Prop where
  codes : ∀ id info, s.interner.code id = some info → s'.interner.code id = some info
  registry : Registers s.registry s'.registry
  origins : s.origins ⊆ s'.origins

omit [DecidableEq T] in
theorem Knows.still (interner : s'.interner = s.interner) (registry : s'.registry = s.registry)
    (origins : s.origins ⊆ s'.origins) : Knows s s' :=
  ⟨fun _ _ same => interner ▸ same,fun _ _ same => registry ▸ same,origins⟩

section Steps

end Steps

end Trace0
