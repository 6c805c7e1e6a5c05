import Maitland.Cache.Client
import Maitland.Cache.Submit
import Maitland.Cache.Table
import Maitland.Library.BitStream
import Maitland.Library.ByteMemory
import Maitland.Library.Decimal
import Maitland.Library.Fifo
import Maitland.Library.Halting
import Maitland.Library.HeapLife
import Maitland.Library.Isolation
import Maitland.Library.Layout
import Maitland.Library.LinkedList
import Maitland.Library.Lz77
import Maitland.Library.MachineInt
import Maitland.Library.Ring
import Maitland.Library.Run
import Maitland.Library.Semaphore
import Maitland.Library.SlidingWindow
import Maitland.Malpage.Hooks
import Maitland.Malpage.Irq
import Maitland.Malpage.PfnList
import Maitland.Malpage.Process
import Maitland.Malpage.Report
import Maitland.Malpage.TableScan
import Maitland.Malpage.Thread
import Maitland.Malpage.Walk
import Maitland.Message
import Maitland.Monitor.Driver
import Maitland.Monitor.Irq
import Maitland.Monitor.Read
import Maitland.Monitor.Register
import Maitland.Monitor.Table
import Maitland.Packer.BitBuffer
import Maitland.Packer.Compress
import Maitland.Packer.Decompress
import Maitland.Packer.Exepak
import Maitland.Packer.OutputSize
import Maitland.Packer.Parse
import Maitland.Packer.Prefix
import Maitland.Packer.RoundTrip
import Maitland.Packer.Stub
import Maitland.Packer.Window
import Maitland.Packer.WindowBounds
import Maitland.Packer.WindowMemory
import Maitland.Packer.WindowSearch
import Maitland.Protocol.AnonPass
import Maitland.Protocol.BusyScanner
import Maitland.Protocol.DeviceRead
import Maitland.Protocol.DomainLifecycle
import Maitland.Protocol.FailedRegistration
import Maitland.Protocol.FlowControl
import Maitland.Protocol.GuestStrings
import Maitland.Protocol.Handshake
import Maitland.Protocol.Isolation
import Maitland.Protocol.MessageLayout
import Maitland.Protocol.NodeLife
import Maitland.Protocol.PageWalk
import Maitland.Protocol.ProcessOps
import Maitland.Protocol.Queue
import Maitland.Protocol.Registration
import Maitland.Protocol.ReportHandover
import Maitland.Protocol.ReportPipeline
import Maitland.Protocol.ReportQueue
import Maitland.Protocol.ReportReading
import Maitland.Protocol.ReportSafety
import Maitland.Protocol.Requests
import Maitland.Protocol.ResponseContents
import Maitland.Protocol.Responses
import Maitland.Protocol.RunLength
import Maitland.Protocol.ServerSemaphore
import Maitland.Protocol.SignalCauses
import Maitland.Protocol.StackGarbage
import Maitland.Protocol.System
import Maitland.Protocol.TableBounds
import Maitland.Protocol.TableScan
import Maitland.Protocol.ThreadGroups
import Maitland.Protocol.Tracing
import Maitland.Protocol.UniqueFrames
import Maitland.Protocol.VerdictCache
import Maitland.Protocol.VerdictInjection
import Maitland.Protocol.VerdictRouting
import Maitland.Protocol.WatchHandover
import Maitland.Protocol.WatchTable
import Maitland.Scripts.Search
import Maitland.Server.Callbacks
import Maitland.Server.Dump
import Maitland.Server.Lifecycle
import Maitland.Server.Register
import Maitland.Server.Report
import Maitland.Server.Watch
import Maitland.Store
