import Trace0.DumpedFiles
import Trace0.SharedTrace

namespace Trace0
namespace Proto
namespace ProtoExporter

variable {encode : TracePacket → List UInt8} {codes : CodeLookup} {names : ThreadNames} {ex next : ProtoExporter}

end ProtoExporter

end Proto
end Trace0
