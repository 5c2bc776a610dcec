import Trace0.Exporter
import Trace0.Json
import Trace0.PprofTables
import Trace0.ProtoSequences

namespace Trace0

namespace Proto

variable {encode : TracePacket → List UInt8}

def exporter (encode : TracePacket → List UInt8) (pid : Int32) (slot : UInt32) : Exporter ProtoExporter where
  start := .new pid slot
  writeBatch ex events codes names := ex.writeBatch encode events codes names
  finish ex _ _ dropped := ex.finish encode dropped
  out := ProtoExporter.out

namespace ProtoExporter

variable {ex : ProtoExporter} {codes codes' : CodeLookup} {names names' : ThreadNames}

theorem Numbered.seated {slot : UInt32} {seen : List UInt32} {tid : UInt32} (there : Numbered slot seen ex)
    (mem : tid ∈ seen) : ex.sequences.lookup tid ≠ none := by
  rw [ne_eq,Assoc.lookup_none]
  exact fun absent => absent ((there.known tid).mpr mem)

end ProtoExporter

open ProtoExporter

end Proto

namespace Json

def exporter (serde : Metadata → List (List UInt8)) (pid : UInt32) : Exporter JsonExporter where
  start := {JsonExporter.new pid with out := JsonExporter.opening}
  writeBatch ex events codes _ := some (ex.writeBatch events codes)
  finish ex _ threads dropped := ex.finish serde threads dropped
  out := JsonExporter.out

end Json

namespace Pprof

def exporter (encode : pb.Profile → List UInt8) : Exporter PprofExporter where
  start := .new
  writeBatch ex events _ _ := some (ex.writeBatch events)
  finish ex codes _ dropped := ex.finish encode codes dropped
  out := PprofExporter.out

namespace PprofExporter

variable {ex : PprofExporter} {seen : List Event}

end PprofExporter

end Pprof

end Trace0
