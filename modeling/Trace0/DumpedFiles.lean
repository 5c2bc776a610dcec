import Trace0.Dumped
import Trace0.Exporters

namespace Trace0

variable {T E : Type} [DecidableEq T] {tidOf : T → UInt32} {x : Exporter E}
  {Given : List Event → E → Prop} {m m' : Dumping T E} {next : Tracing T}

end Trace0
