import Trace0.Event
import Trace0.Intern
import Trace0.Exporter

namespace Trace0
namespace Json

-- `push_u64`: twenty digits hold every value, so the loop always ends by itself.
def digits : Nat → UInt64 → List UInt8
  | 0,v => [0x30 + (v % 10).toUInt8]
  | n+1,v => (0x30 + (v % 10).toUInt8) :: if v / 10 = 0 then [] else digits n (v / 10)

def pushU64 (v : UInt64) : List UInt8 := (digits 19 v).reverse

def pushMicros (tsNs : UInt64) : List UInt8 :=
  let frac := tsNs % 1000
  pushU64 (tsNs / 1000) ++
    [0x2e,0x30 + (frac / 100).toUInt8,0x30 + (frac / 10 % 10).toUInt8,0x30 + (frac % 10).toUInt8]

def hex (b : UInt8) : UInt8 := if b < 10 then 0x30 + b else 0x61 + (b - 10)

def escape (b : UInt8) : List UInt8 :=
  if b = 0x22 then utf8 "\\\""
  else if b = 0x5c then utf8 "\\\\"
  else if b = 0x08 then utf8 "\\b"
  else if b = 0x09 then utf8 "\\t"
  else if b = 0x0a then utf8 "\\n"
  else if b = 0x0c then utf8 "\\f"
  else if b = 0x0d then utf8 "\\r"
  else if b ≤ 0x1f then utf8 "\\u00" ++ [hex (b >>> 4),hex (b &&& 0x0f)]
  else [b]

def pushString (s : String) : List UInt8 := 0x22 :: ((utf8 s).flatMap escape ++ [0x22])

structure Template where
  head : List UInt8
  tail : List UInt8
  deriving DecidableEq

def Template.of (info : CodeInfo) : Template where
  head := utf8 "\x7b\"name\":" ++ pushString (if info.qualname = "" then "<unknown>" else info.qualname) ++
    utf8 ",\"cat\":\"py\",\"ph\":\""
  tail := utf8 ",\"args\":\x7b\"file\":" ++ pushString info.filename ++ utf8 ",\"line\":" ++
    pushU64 info.firstlineno.toUInt64 ++ utf8 ",\"kind\":\""

def asStr : EventKind → String
  | .Begin => "start"
  | .End => "return"
  | .Yield => "yield"
  | .Resume => "resume"
  | .Unwind => "unwind"
  | .Throw => "throw"

inductive Metadata where
  | threadName (pid tid : UInt32) (name : String)
  | droppedEvents (pid : UInt32) (count : UInt64)
  deriving DecidableEq

-- `templates` is a list in the order of insertion.
structure JsonExporter where
  out : List OutCall
  buf : List UInt8
  pid : UInt32
  templates : List (UInt32 × Template)
  deriving DecidableEq

abbrev CodeLookup := UInt32 → Option CodeInfo

namespace JsonExporter

def new (pid : UInt32) : JsonExporter := ⟨[],[],pid,[]⟩

-- What `create` writes to the file before its exporter is there.
def opening : List OutCall := [.write (utf8 "["),.flush]

def template (ex : JsonExporter) (id : UInt32) (codes : CodeLookup) : JsonExporter × Template :=
  match ex.templates.lookup id with
  | some template => (ex,template)
  | none =>
    let template := Template.of ((codes id).getD ⟨"","",0⟩)
    ({ex with templates := ex.templates ++ [(id,template)]},template)

def eventEntry (pid : UInt32) (ev : Event) (template : Template) : List UInt8 :=
  template.head ++ [if ev.kind.opensSlice then 0x42 else 0x45] ++ utf8 "\",\"ts\":" ++ pushMicros ev.tsNs ++
    utf8 ",\"pid\":" ++ pushU64 pid.toUInt64 ++ utf8 ",\"tid\":" ++ pushU64 ev.tid.toUInt64 ++ template.tail ++
    utf8 (asStr ev.kind) ++ utf8 "\"\x7d\x7d"

def pushEvent (ex : JsonExporter) (ev : Event) (template : Template) : JsonExporter :=
  {ex with buf := ex.buf ++ (eventEntry ex.pid ev template ++ utf8 ",")}

def writeEvent (ex : JsonExporter) (ev : Event) (codes : CodeLookup) : JsonExporter :=
  let (ex,template) := ex.template ev.codeId codes
  ex.pushEvent ev template

def writeBatch (ex : JsonExporter) (events : List Event) (codes : CodeLookup) : JsonExporter :=
  let ex := events.foldl (fun ex ev => ex.writeEvent ev codes) {ex with buf := []}
  {ex with out := ex.out ++ [.write ex.buf,.flush]}

-- `to_writer` writes an entry in pieces.
variable (serde : Metadata → List (List UInt8))

def writeEntry (ex : JsonExporter) (entry : Metadata) : JsonExporter :=
  {ex with out := ex.out ++ ((serde entry).map .write ++ [.write (utf8 ",")])}

def finish (ex : JsonExporter) (threads : List (UInt32 × String)) (dropped : UInt64) : JsonExporter :=
  let ex := threads.foldl (fun ex thread => ex.writeEntry serde (.threadName ex.pid thread.1 thread.2)) ex
  let ex := if 0 < dropped then ex.writeEntry serde (.droppedEvents ex.pid dropped) else ex
  {ex with out := ex.out ++ [.flush]}

end JsonExporter

end Json
end Trace0
