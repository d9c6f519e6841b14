import Netsrv.Lib.ByteCodec
import Netsrv.Lib.PrefixParser
import Netsrv.Lib.TtlMap
import Netsrv.Lib.SafePrime
import Netsrv.Lib.Slots
import Netsrv.Lib.Strtol
import Netsrv.Lib.Machine
import Netsrv.Lib.Buffer
import Netsrv.Lib.Custody
import Netsrv.Lib.SharedLock
import Netsrv.Lib.EventLoop
import Netsrv.Lib.EventLoopShut
import Netsrv.Lib.EventLoopServing
import Netsrv.Net.ByteIo
import Netsrv.Net.ServerRole
import Netsrv.Net.Framing
import Netsrv.Net.FrameStream
import Netsrv.Net.SessionLife
import Netsrv.Net.Segments
import Netsrv.Net.Datagram
import Netsrv.Net.LoginProtocol
import Netsrv.Net.MasterProtocol
import Netsrv.Security.Crypto
import Netsrv.Security.Srp6
import Netsrv.Security.SrpCompleteness
import Netsrv.Security.SrpHiding
import Netsrv.Security.SrpSafety
import Netsrv.Security.InternalSecret
import Netsrv.Store.SharedStore
import Netsrv.Store.StoreTrace
import Netsrv.Store.StoreThreads
import Netsrv.Store.StoreWire
import Netsrv.Store.StoreHandler
import Netsrv.Store.StoreGate
import Netsrv.Store.StoreClient
import Netsrv.Store.RemoteStore
import Netsrv.Store.StoreReplay
import Netsrv.Registry.WorldRegistry
import Netsrv.Registry.Readers
import Netsrv.Handlers.MasterHandler
import Netsrv.Handlers.LoginHandler
import Netsrv.Handlers.WorldListing
import Netsrv.Handlers.WorldHandler
import Netsrv.Handlers.LoginRun
import Netsrv.Handlers.AccountHiding
import Netsrv.Handlers.SessionMap
import Netsrv.Tools.ClientSim
import Netsrv.System.Backend
import Netsrv.System.Cluster
import Netsrv.System.Messages
import Netsrv.System.Gates
import Netsrv.System.Provenance
import Netsrv.System.Admission
import Netsrv.System.Authentication
import Netsrv.System.TokenPut
import Netsrv.System.Lifetimes
import Netsrv.System.RegistryFrame
import Netsrv.System.SentFrames
import Netsrv.System.Addresses
import Netsrv.System.LoginTurns
import Netsrv.System.Agreement
import Netsrv.System.Visit
import Netsrv.Process.Workers
import Netsrv.Process.Shutdown
import Netsrv.Process.WorkerStop
import Netsrv.Process.Listening
import Netsrv.Process.Connections
import Netsrv.Process.Drain
import Netsrv.Security.SrpBinding
