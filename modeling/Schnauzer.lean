import Schnauzer.Lib.CString
import Schnauzer.Lib.CausalOrder
import Schnauzer.Lib.CausalHistory
import Schnauzer.Lib.ExpandedHistory
import Schnauzer.Lib.Istream
import Schnauzer.Lib.KeptPlaces
import Schnauzer.Lib.Ledger
import Schnauzer.Lib.LittleEndian
import Schnauzer.Lib.Liveness
import Schnauzer.Lib.LogicalClock
import Schnauzer.Lib.Regions
import Schnauzer.Lib.Regex
import Schnauzer.Lib.Runs
import Schnauzer.Lib.Simulation
import Schnauzer.Lib.SlotLog
import Schnauzer.Lib.Text
import Schnauzer.Common.Event
import Schnauzer.Common.Yaml
import Schnauzer.Common.YamlBlock
import Schnauzer.Common.YamlDumper
import Schnauzer.Common.MtVector
import Schnauzer.Depgraph.VectorClock
import Schnauzer.Depgraph.VarMetaData
import Schnauzer.Depgraph.RaceAnalyze
import Schnauzer.Depgraph.LoadTrace
import Schnauzer.Depgraph.TraceParser
import Schnauzer.Depgraph.HappensBefore
import Schnauzer.Depgraph.ClockUpdate
import Schnauzer.Depgraph.Clocks
import Schnauzer.Depgraph.AccessSets
import Schnauzer.Depgraph.Races
import Schnauzer.Depgraph.Filter
import Schnauzer.Depgraph.BuildGraph
import Schnauzer.Depgraph.ExpandedTrace
import Schnauzer.Depgraph.SyncPairs
import Schnauzer.Depgraph.Swap
import Schnauzer.Depgraph.OwnTick
import Schnauzer.Depgraph.VectorClockCmp
import Schnauzer.Instrument.CollectSrcInfo
import Schnauzer.Instrument.InstrumentIR
import Schnauzer.Detect.InstRace
import Schnauzer.Detect.RaceTable
import Schnauzer.Detect.ThreadSummary
import Schnauzer.Detect.DetectPass
import Schnauzer.Scripts.Race
import Schnauzer.Scripts.Control
import Schnauzer.Scripts.FileNames
import Schnauzer.Detect.RaceFile
import Schnauzer.Common.SrcInfoDB
import Schnauzer.Extlibs.Hijack
import Schnauzer.Core.Logger
import Schnauzer.Core.LogSlots
import Schnauzer.Core.LogBuffers
import Schnauzer.Scs.ScScheduler
import Schnauzer.Scs.HookLog
import Schnauzer.Scs.LibcStores
import Schnauzer.Sched.ScsImpl
import Schnauzer.Core.Tid
import Schnauzer.Core.AliveTable
import Schnauzer.Core.JoinTids
import Schnauzer.Core.CreateWrapper
import Schnauzer.Scs.Machine
import Schnauzer.Scs.Balance
import Schnauzer.Scs.Budget
import Schnauzer.Scs.Marker
import Schnauzer.Scs.MoneyGate
import Schnauzer.Scs.LogRuns
import Schnauzer.Core.RealOrder
import Schnauzer.Core.Interface
import Schnauzer.Core.InterfaceLog
import Schnauzer.Core.ExitFlush
import Schnauzer.Core.HookShape
import Schnauzer.Core.History
import Schnauzer.Core.Ownership
import Schnauzer.Core.LabelSlots
import Schnauzer.Core.SlotEvents
import Schnauzer.Core.SavedTrace
import Schnauzer.Core.Loadable
import Schnauzer.Core.ClockOrder
import Schnauzer.Core.LockDiscipline
import Schnauzer.Core.SlotContents
import Schnauzer.Core.LegalOrder
import Schnauzer.Core.SyncInTrace
import Schnauzer.Core.MissingOrder
import Schnauzer.Core.SpuriousOrder
import Schnauzer.Core.StackFilter
import Schnauzer.Depgraph.FileRaces
import Schnauzer.Depgraph.TracePrefix
import Schnauzer.Depgraph.Renaming
import Schnauzer.Core.ReportedRaces
import Schnauzer.Depgraph.EventBytes
import Schnauzer.Detect.ReadBack
import Schnauzer.Detect.TotalRaces
import Schnauzer.Detect.Main
import Schnauzer.Detect.Campaign
import Schnauzer.Detect.EndToEnd
import Schnauzer.Instrument.Meaning
import Schnauzer.Instrument.Woven
import Schnauzer.Instrument.Recording
import Schnauzer.Instrument.ReplaceFunctionCall
import Schnauzer.Instrument.RunOnModule
import Schnauzer.Instrument.CallStack
import Schnauzer.Lib.Sessions
import Schnauzer.Common.ModuleTable
import Schnauzer.Instrument.Build
import Schnauzer.Common.Config
import Schnauzer.Lib.CriticalSections
import Schnauzer.Core.TidCalls
