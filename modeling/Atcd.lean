import Atcd.Core.Bytes
import Atcd.Core.Layout
import Atcd.Cdr.Base
import Atcd.Cdr.Types
import Atcd.Cdr.Output
import Atcd.Cdr.Input
import Atcd.Cdr.Emit
import Atcd.Cdr.RoundTrip
import Atcd.Cdr.Size
import Atcd.Cdr.SizeAgree
import Atcd.Core.Run
import Atcd.Core.HeapOrder
import Atcd.Time.TimeValue
import Atcd.Timer.Node
import Atcd.Timer.Heap
import Atcd.Timer.HeapSift
import Atcd.Timer.HeapIds
import Atcd.Timer.HeapRuns
import Atcd.Timer.Queue
import Atcd.Core.TailInsert
import Atcd.Timer.List
import Atcd.Timer.Expire
import Atcd.Timer.Wheel
import Atcd.Timer.WheelRecalc
import Atcd.Timer.WheelRuns
import Atcd.Timer.Hash
import Atcd.Timer.HashRuns
import Atcd.Core.Ring
import Atcd.Message.Queue
import Atcd.Message.QueueRuns
import Atcd.Message.Strategy
import Atcd.Message.Dynamic
import Atcd.Message.DynamicRuns
import Atcd.Core.Demux
import Atcd.Giop.QueuedData
import Atcd.Giop.Fragments
import Atcd.Reactor.HandleSets
import Atcd.Reactor.Registration
import Atcd.Reactor.Pass
import Atcd.Reactor.PassRuns
import Atcd.Reactor.TpReactor
import Atcd.Reactor.TpRuns
import Atcd.Reactor.Notify
import Atcd.Reactor.NotifyRuns
import Atcd.Message.Sharing
import Atcd.Message.SharingRuns
import Atcd.Orb.LeaderFollower
import Atcd.Orb.LeaderFollowerRuns
import Atcd.Orb.Outgoing
import Atcd.Orb.OutgoingRuns
import Atcd.Giop.Framing
import Atcd.Orb.Incoming
import Atcd.Orb.IncomingRuns
import Atcd.Rmcast.Fragment
import Atcd.Rmcast.FragmentRuns
import Atcd.Rmcast.ConcurrentSend
import Atcd.Core.Table
import Atcd.Rmcast.Acknowledge
import Atcd.Rmcast.AcknowledgeRuns
import Atcd.Rmcast.Link
import Atcd.Rmcast.LinkLayout
import Atcd.Rmcast.LinkRuns
import Atcd.Tokens.Local
import Atcd.Tokens.RwRuns
import Atcd.Core.Search
import Atcd.Tokens.Manager
import Atcd.Tokens.ManagerRuns
import Atcd.Synch.Token
import Atcd.Synch.TokenRuns
import Atcd.Maps.ActiveMap
import Atcd.Maps.ActiveMapRuns
import Atcd.Poa.ActiveObjectMap
import Atcd.Core.Index
import Atcd.Poa.ActiveObjectMapRuns
import Atcd.Tmcast.Controller
import Atcd.Tmcast.ControllerRuns
import Atcd.Concurrency.LockSet
import Atcd.Concurrency.LockSetRuns
import Atcd.Core.Pieces
import Atcd.Core.WordSet
import Atcd.Event.MessageSender
import Atcd.Event.MessageReceiver
import Atcd.Event.SenderRuns
import Atcd.Event.ReceiverRuns
import Atcd.Core.Store
import Atcd.Strings.StringBase
import Atcd.Strings.StringRuns
import Atcd.Core.Ledger
import Atcd.Sequences.GenericSequence
import Atcd.Sequences.SequenceRuns
import Atcd.Sequences.Ownership
import Atcd.Core.SortedRing
import Atcd.Core.Tiling
import Atcd.Malloc.Malloc
import Atcd.Malloc.MallocRuns
import Atcd.Maps.HashMap
import Atcd.Maps.HashMapRuns
import Atcd.Maps.HashMapWalk
import Atcd.Notify.RoutingSlip
import Atcd.Notify.RoutingSlipRuns
import Atcd.Core.WriteLog
import Atcd.Core.Follows
import Atcd.Core.Shares
import Atcd.Notify.Persistence
import Atcd.Rmcast.PacketSize
import Atcd.Rmcast.Window
import Atcd.Rmcast.ParseBounds
import Atcd.Rmcast.Overrun
import Atcd.Maps.ActiveMapKeys
import Atcd.Orb.Progress
import Atcd.Giop.Giop11
import Atcd.Giop.NodeOwnership
import Atcd.Orb.SendTimeout
import Atcd.Orb.Completion
import Atcd.Notify.PersistenceRuns
import Atcd.Tokens.ProxyQueue
import Atcd.Poa.KeyText
import Atcd.Poa.ObjectKey
import Atcd.Orb.TransportCache
import Atcd.Orb.CachePurge
import Atcd.Synch.TokenFailures
import Atcd.Giop.RequestHeader
import Atcd.Giop.RequestRoundTrip
import Atcd.Giop.RequestBounds
import Atcd.Core.Rounding
import Atcd.Idl.Expression
import Atcd.Idl.Folding
import Atcd.Idl.Operators
import Atcd.Idl.FoldingExact
import Atcd.Cdr.WideStrings
import Atcd.Giop.Fragmentation
import Atcd.Giop.FragmentationRuns
import Atcd.Tokens.WriterCount
import Atcd.Malloc.Obstack
import Atcd.Maps.SlotSets
import Atcd.Maps.OrderedMultiSet
import Atcd.Concurrency.QueueService
import Atcd.Naming.StringifiedName
import Atcd.Time.TimeValueRuns
import Atcd.Config.IniImport
import Atcd.Notify.BitVector
import Atcd.Event.ConjunctionFilter
import Atcd.Notify.SlipQueue
import Atcd.Notify.FileAllocator
import Atcd.Event.RequestWindow
import Atcd.Event.ReceiverBounds
import Atcd.Stats.SquareRoot
import Atcd.Giop.ArrayBounds
import Atcd.Idl.UnionDefault
import Atcd.Message.Deadline
import Atcd.Cdr.Growth
import Atcd.Timer.HashScan
import Atcd.Timer.HeapSizes
import Atcd.Codecs.Base64
import Atcd.Idl.Coercion
