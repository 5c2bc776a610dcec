import Trace0.DumpedTrace
import Trace0.ExitAccounting
import Trace0.Exporters
import Trace0.StreamedFiles

namespace Trace0

section Placing

variable {T E : Type} [DecidableEq T] {tidOf : T → UInt32} {w : World T}

section Dealt

end Dealt

section Placed

variable {s : Streaming T E}

end Placed

end Placing

section Exported

variable {T E : Type} [DecidableEq T] {tidOf : T → UInt32} {x : Exporter E} {Given : List Event → E → Prop}
  {s s' : Streaming T E}

-- No code object goes during a callback for it, and the serializer stops with nothing left in
-- any ring.
def Streaming.Whole (s : Streaming T E) (act : StreamingAct T) : Prop :=
  s.Outlives act ∧ ∀ pipe, act = .pipe pipe → LeavesEmpty s.pipeline pipe

section Delivery

end Delivery

end Exported

namespace Proto

end Proto

end Trace0
