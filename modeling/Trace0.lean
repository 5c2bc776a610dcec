import Trace0.BlockAnswers
import Trace0.Bystanders
import Trace0.Clock
import Trace0.CodeIds
import Trace0.Conservation
import Trace0.DrainFairness
import Trace0.DumpDirectory
import Trace0.DumpOnce
import Trace0.DumpedTrace
import Trace0.Entering
import Trace0.ExitAccounting
import Trace0.FanInCalls
import Trace0.Floors
import Trace0.FlushedDump
import Trace0.InternerIds
import Trace0.JsonDecoding
import Trace0.PipelineDelivery
import Trace0.ProfileTimes
import Trace0.ProtoSequences
import Trace0.ProtoTrace
import Trace0.RecorderClose
import Trace0.RingAccounting
import Trace0.RunsApart
import Trace0.SharedOutput
import Trace0.SharedTrace
import Trace0.Signals
import Trace0.SnapshotNesting
import Trace0.SnapshotWindow
import Trace0.StreamOrder
import Trace0.StreamedRuns
import Trace0.TailQueues
