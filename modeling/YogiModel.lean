import YogiModel.Base.Except
import YogiModel.Core.ConnectionStart
import YogiModel.Base.Register
import YogiModel.Base.ObjectRegister
import YogiModel.Base.Index
import YogiModel.Core.Fsm
import YogiModel.Mapping.Automaton
import YogiModel.Mapping.Object
import YogiModel.Mapping.Invariant
import YogiModel.Mapping.Receive
import YogiModel.Mapping.Refinement
import YogiModel.Mapping.Link
import YogiModel.Mapping.Delivery
import YogiModel.Mapping.Birth
import YogiModel.Core.Leaf
import YogiModel.Mapping.Endpoint
import YogiModel.Core.LeafEndpoint
import YogiModel.Core.LeafInvariant
import YogiModel.Core.LeafOperations
import YogiModel.Core.LeafConnection
import YogiModel.Base.Machine
import YogiModel.System.TwoLeafs
import YogiModel.Core.SubscribableLeaf
import YogiModel.System.SubscribableTwoLeafs
import YogiModel.Core.Node
import YogiModel.Core.LeafView
import YogiModel.Core.LeafActions
import YogiModel.Base.Codec
import YogiModel.Base.RingBuffer
import YogiModel.Wire.Serialization
import YogiModel.Wire.Message
import YogiModel.Tcp.Frame
import YogiModel.Tcp.Receiver
import YogiModel.Tcp.Reassembly
import YogiModel.Tcp.Sender
import YogiModel.Tcp.Stranded
import YogiModel.Core.PublishSubscribeLeaf
import YogiModel.Core.DataDelivery
import YogiModel.ScatterGather.LeafLogic
import YogiModel.ScatterGather.Operations
import YogiModel.ScatterGather.Agreement
import YogiModel.ScatterGather.Pending
import YogiModel.ScatterGather.Answers
import YogiModel.ScatterGather.Service
import YogiModel.ScatterGather.Bookkeeping
import YogiModel.ScatterGather.Consistency
import YogiModel.ScatterGather.Finished
import YogiModel.Base.LockFreeRingBuffer
import YogiModel.Base.RingBufferWords
import YogiModel.Base.RingBufferFifo
import YogiModel.Base.RingBufferRefinement
import YogiModel.Web.AccountService
import YogiModel.Web.Login
import YogiModel.Web.Promises
import YogiModel.AccountManager.SessionManager
import YogiModel.Base.Json
import YogiModel.AccountManager.FileAccountProvider
import YogiModel.AccountManager.AccountStrings
import YogiModel.AccountManager.LoadAccounts
import YogiModel.Configuration.LaterWins
import YogiModel.Tcp.Handshake
import YogiModel.Local.Delivery
import YogiModel.Web.Session
import YogiModel.Web.SessionInvariant
import YogiModel.Core.DataOrigin
import YogiModel.Core.CachedData
import YogiModel.Hub.TerminalSearch
import YogiModel.Hub.TerminalTree
import YogiModel.Hub.SessionRequests
import YogiModel.Hub.SessionBounds
import YogiModel.Base.JsonValue
import YogiModel.Hub.JsonTexts
import YogiModel.Base.LexicalPath
import YogiModel.Hub.HttpServer
import YogiModel.Hub.HttpReceive
import YogiModel.Hub.HttpStream
import YogiModel.Hub.FileService
import YogiModel.Hub.CustomCommand
import YogiModel.Wire.Varint
import YogiModel.Base.AsyncOperation
import YogiModel.Base.IdentifiedObjectRegister
import YogiModel.Supervisor.FileWatcher
import YogiModel.Supervisor.Command
import YogiModel.Supervisor.DeviceGroup
import YogiModel.Base.RegisterElements
import YogiModel.Core.KnownTerminals
import YogiModel.Core.NodeSafety
import YogiModel.Core.NodeSteps
import YogiModel.Core.LiveConnections
import YogiModel.ScatterGather.RelayedAnswers
