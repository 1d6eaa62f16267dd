import Dezyne.Event
import Dezyne.Otherwise
import Dezyne.Binding
import Dezyne.Lib.Loop
import Dezyne.Lib.Walk
import Dezyne.Lts
import Dezyne.Distance
import Dezyne.Construct
import Dezyne.Assert
import Dezyne.Failures
import Dezyne.Lib.DepthFirst
import Dezyne.Livelock
import Dezyne.Rtc
import Dezyne.Shared
import Dezyne.Constraint
import Dezyne.Compliance
import Dezyne.Traces
import Dezyne.TraceCover
import Dezyne.Vm
import Dezyne.VmScope
import Dezyne.VmLookup
import Dezyne.Expression
import Dezyne.Inline
import Dezyne.Hash
import Dezyne.Switch
import Dezyne.ExternalQueue
import Dezyne.LtsText
import Dezyne.Lib.Probe
import Dezyne.Map
import Dezyne.Stream
import Dezyne.PortLabel
import Dezyne.SharedRun
import Dezyne.Completion
import Dezyne.Purge
import Dezyne.PurgeRun
import Dezyne.Lib.Scopes
import Dezyne.Tick
import Dezyne.TickTarget
import Dezyne.TickNames
import Dezyne.CFlush
import Dezyne.SchemePump
import Dezyne.CoroutineSelf
import Dezyne.CPump
import Dezyne.Lib.Closure
import Dezyne.TailCall
import Dezyne.QueueFull
import Dezyne.CPrune
import Dezyne.FailuresText
import Dezyne.MapMemory
import Dezyne.MapLength
import Dezyne.Lib.Lines
import Dezyne.PcText
import Dezyne.BlockedPrefix
import Dezyne.Lib.Unfold
import Dezyne.RtcLts
import Dezyne.Refusals
import Dezyne.Alpha
import Dezyne.Compounds
import Dezyne.CompoundNames
import Dezyne.CompoundNames
import Dezyne.Lib.AppendMap
import Dezyne.Lib.Lasso
import Dezyne.Systems
import Dezyne.CyclicBindings
import Dezyne.SchemeTimers
import Dezyne.CsTimers
import Dezyne.ContentAlist
import Dezyne.ModelSort
import Dezyne.GraphCyclic
import Dezyne.MissingReturn
import Dezyne.VariableLookup
import Dezyne.DeferFlush
import Dezyne.Lib.Datum
import Dezyne.TestLts
import Dezyne.Lib.Nearest
import Dezyne.TestPath
import Dezyne.TraceMerge
import Dezyne.Lib.Interleave
import Dezyne.ThreadPool
import Dezyne.ThreadPoolRun
import Dezyne.ThreadPoolProgress
import Dezyne.Context
import Dezyne.Handover
import Dezyne.ContextRun
import Dezyne.ContextProgress
import Dezyne.Peg
import Dezyne.PegRun
import Dezyne.PegTermination
import Dezyne.PegCache
import Dezyne.PegGrammar
import Dezyne.PegParse
