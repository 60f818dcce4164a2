import AdFilter.Lib.Ring
import AdFilter.Lib.Runs
import AdFilter.Lib.Pool
import AdFilter.Lib.Holdings
import AdFilter.Lib.Chained
import AdFilter.Lib.Linked
import AdFilter.Lib.Buckets
import AdFilter.Lib.Reclaim
import AdFilter.Lib.Handover
import AdFilter.Lib.SecondaryIndex
import AdFilter.Lib.Window
import AdFilter.Lib.Excerpts
import AdFilter.Lib.LossLog
import AdFilter.Lib.FirstOfKey
import AdFilter.Lib.BufferChain
import AdFilter.Lib.Regex
import AdFilter.Lib.Queues
import AdFilter.Lib.Framed
import AdFilter.Nt
import AdFilter.Slre.Match
import AdFilter.Slre.Plain
import AdFilter.Slre.Alternation
import AdFilter.Slre.Steps
import AdFilter.Slre.Bounds
import AdFilter.Slre.Syntax
import AdFilter.Slre.Reading
import AdFilter.Slre.Repetition
import AdFilter.Slre.Branches
import AdFilter.Slre.Soundness
import AdFilter.Slre.Search
import AdFilter.Tdi.Ipc
import AdFilter.Driver.HostList
import AdFilter.Driver.Filter
import AdFilter.Driver.Abstract
import AdFilter.Driver.Ownership
import AdFilter.Driver.Represent
import AdFilter.Driver.LoadFile
import AdFilter.Driver.FileLines
import AdFilter.Driver.Windows
import AdFilter.Driver.LoadBounds
import AdFilter.Driver.LoadProgress
import AdFilter.Driver.Dispatch
import AdFilter.Driver.PoolRuns
import AdFilter.Driver.Reach
import AdFilter.Driver.Refine
import AdFilter.Driver.BufferBounds
import AdFilter.Driver.Deletion
import AdFilter.Driver.Reports
import AdFilter.Tdi.Objects
import AdFilter.Tdi.ConnState
import AdFilter.Tdi.ObjTbl
import AdFilter.Tdi.Tables
import AdFilter.Tdi.Datagrams
import AdFilter.Tdi.Connections
import AdFilter.Tdi.Creation
import AdFilter.Tdi.Machine
import AdFilter.Tdi.Views
import AdFilter.Tdi.ConnTable
import AdFilter.Tdi.Effects
import AdFilter.Tdi.HandlerEffects
import AdFilter.Tdi.StackGarbage
import AdFilter.Tdi.EventHandlers
import AdFilter.Tdi.CloseRuns
import AdFilter.Tdi.History
import AdFilter.Tdi.AddressLife
import AdFilter.Tdi.CtxIndex
import AdFilter.Tdi.TcpStates
import AdFilter.Tdi.GracefulClose
import AdFilter.Tdi.ConnBuckets
import AdFilter.Tdi.Sweep
import AdFilter.Tdi.ConnHash
import AdFilter.Tdi.Enumerate
import AdFilter.Tdi.LogQueue
import AdFilter.Tdi.LogLoss
import AdFilter.Tdi.LogOwnership
import AdFilter.Tdi.DnsBounds
import AdFilter.Tdi.PidPname
import AdFilter.Tdi.PidEvents
import AdFilter.Tdi.Packet
import AdFilter.Tdi.PacketBounds
import AdFilter.Tdi.ListenTable
import AdFilter.Tdi.Primitives
import AdFilter.Tdi.ListenRuns
import AdFilter.Tdi.ConnRuns
import AdFilter.Tdi.CheckPacket
import AdFilter.Tdi.PacketPath
import AdFilter.Tdi.Sids
import AdFilter.Tdi.RuleChains
import AdFilter.Tdi.Requests
import AdFilter.Tdi.ChainRuns
import AdFilter.Tdi.SidRuns
import AdFilter.App.Adf
import AdFilter.App.ViewModel
import AdFilter.App.ReportedAdd
import AdFilter.App.Blocking
import AdFilter.App.ExactMatch
import AdFilter.App.UnionEntries
import AdFilter.App.NameDecoding
import AdFilter.App.Readers
import AdFilter.App.WrittenFile
import AdFilter.App.Agreement
import AdFilter.App.Editing
import AdFilter.App.FailedLoad
import AdFilter.App.PatternEntries
