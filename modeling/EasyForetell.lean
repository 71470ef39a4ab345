import EasyForetell.Memory.Block
import EasyForetell.Memory.Access
import EasyForetell.Theory.RingBuffer
import EasyForetell.Theory.Transition
import EasyForetell.Theory.LineFraming
import EasyForetell.Theory.Counting
import EasyForetell.Theory.StringRewriting
import EasyForetell.Theory.Template
import EasyForetell.Theory.Expansion
import EasyForetell.Theory.Packed
import EasyForetell.Theory.KeyedStore
import EasyForetell.Theory.Heap
import EasyForetell.Logger
import EasyForetell.Queue
import EasyForetell.SocketCallback
import EasyForetell.Framing
import EasyForetell.FramingBounds
import EasyForetell.ParseErrors
import EasyForetell.JobAccounting
import EasyForetell.Shutdown
import EasyForetell.StringUtils
import EasyForetell.ConfigUtils
import EasyForetell.SleepUtils
import EasyForetell.MainSettings
import EasyForetell.CommandLine
import EasyForetell.Packing
import EasyForetell.Substitution
import EasyForetell.SubstitutionOrder
import EasyForetell.Action
import EasyForetell.ActionTable
import EasyForetell.ActionPages
import EasyForetell.ActionFailure
import EasyForetell.ActionAccess
import EasyForetell.Command
import EasyForetell.UpdatePipeline
import EasyForetell.CurlClient
import EasyForetell.MemcachedClient
import EasyForetell.Worker
import EasyForetell.WorkerBounds
import EasyForetell.SettingBounds
import EasyForetell.LineBounds
import EasyForetell.FileUtils
import EasyForetell.JobLine
import EasyForetell.JobIndependence
import EasyForetell.KeyBytes
import EasyForetell.LogBounds
import EasyForetell.SignalDeadlock
import EasyForetell.ShiftBounds
import EasyForetell.ListReaders
import EasyForetell.Progress
import EasyForetell.Quiescence
import EasyForetell.JobEffects
import EasyForetell.Service
import EasyForetell.PageCache
import EasyForetell.SingleInstance
import EasyForetell.SocketFile
import EasyForetell.DaemonUtils
import EasyForetell.Lifetime
import EasyForetell.PipeFull
import EasyForetell.Ownership
import EasyForetell.ActionMemory
import EasyForetell.ActionOwnership
import EasyForetell.QueueMemory
import EasyForetell.WorkerResources
import EasyForetell.JobCommands
import EasyForetell.Delivery
import EasyForetell.Refresh
import EasyForetell.ServiceRest
import EasyForetell.EveryLine
