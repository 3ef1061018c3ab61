import FreeFlow.Runs
import FreeFlow.Mailbox
import FreeFlow.Wire
import FreeFlow.SlotProtocol
import FreeFlow.KeyValue
import FreeFlow.PodMirror
import FreeFlow.DottedQuad
import FreeFlow.IpHunter
import FreeFlow.VipResolution
import FreeFlow.ObjectNames
import FreeFlow.RemoteMapping
import FreeFlow.SharedObjects
import FreeFlow.PagedMemory
import FreeFlow.RegisteredMemory
import FreeFlow.DeviceWrites
import FreeFlow.ReceiveRecords
import FreeFlow.CellRecords
import FreeFlow.PostSend
import FreeFlow.RequestHandler
import FreeFlow.PostRecv
import FreeFlow.SlotHistory
import FreeFlow.ControlLoop
import FreeFlow.DestroyRace
import FreeFlow.QpLifecycle
import FreeFlow.ClientRegistration
import FreeFlow.ByteMemory
import FreeFlow.MappingBroadcast
import FreeFlow.TableBounds
import FreeFlow.ObjectLifetimes
import FreeFlow.LocalKeys
import FreeFlow.ReceiveRing
import FreeFlow.BadWr
import FreeFlow.RegistrationEffects
import FreeFlow.EventChannels
import FreeFlow.PollPaths
import FreeFlow.ReceiveCopies
import FreeFlow.SrqRouting
import FreeFlow.RingAccess
import FreeFlow.RingRace
import FreeFlow.RingEntries
import FreeFlow.SrqRing
import FreeFlow.CqPass
import FreeFlow.DestroyRequests
import FreeFlow.OneSidedSends
import FreeFlow.QpSrq
import FreeFlow.ReadLoop
import FreeFlow.RequestReads
import FreeFlow.ResponseReads
import FreeFlow.SlotBytes
import FreeFlow.SlotRelease
import FreeFlow.AddressRewriting
import FreeFlow.Base64
import FreeFlow.BucketArithmetic
import FreeFlow.BucketWindows
import FreeFlow.CmFailures
import FreeFlow.MappingServer
import FreeFlow.NodeEntries
import FreeFlow.WatchCallbacks
import FreeFlow.WatchRange
import FreeFlow.AnonymousNames
import FreeFlow.ExtendedPoll
import FreeFlow.LockPrograms
import FreeFlow.MemPool
import FreeFlow.QpStateView
import FreeFlow.RouterLocks
import FreeFlow.SlotLifetimes
import FreeFlow.ByteOrder
import FreeFlow.CircularStream
import FreeFlow.CreditWindow
import FreeFlow.DoubleBuffer
import FreeFlow.LaidOut
import FreeFlow.Rsocket
import FreeFlow.RsocketAdapter
import FreeFlow.RsocketClosing
import FreeFlow.RsocketIomap
import FreeFlow.ForkRangeCalls
import FreeFlow.ForkRangeFailures
import FreeFlow.ForkRegistrations
import FreeFlow.BucketThreads
import FreeFlow.CmEventCounts
import FreeFlow.CmEventAccounts
import FreeFlow.CmEventReturns
import FreeFlow.RingRecords
