import TinyKeeper.Changelog.Crash
import TinyKeeper.Changelog.Retry
import TinyKeeper.Changelog.Truncation
import TinyKeeper.KeeperServer.Atomic
import TinyKeeper.Path
import TinyKeeper.KeeperServer.Payloads
import TinyKeeper.Lib.Run
import TinyKeeper.Lib.Versioned
import TinyKeeper.Lib.RwLock
import TinyKeeper.KeeperServer.Recovery
import TinyKeeper.KeeperServer.Watches
import TinyKeeper.KeeperServer.Owners
import TinyKeeper.KeeperServer.LogFiles
import TinyKeeper.KeeperServer.Writes
import TinyKeeper.KeeperServer.SelfReplay
import TinyKeeper.KeeperServer.SingleBatch
import TinyKeeper.KeeperServer.WatchSessions
import TinyKeeper.KeeperServer.Reads
import TinyKeeper.WatchState.Calls
import TinyKeeper.KeeperServer.Chronicle
import TinyKeeper.KeeperServer.Stamps
import TinyKeeper.KeeperServer.Zxids
import TinyKeeper.KeeperServer.SessionIds
import TinyKeeper.KeeperServer.ExpiryLoop
import TinyKeeper.KeeperServer.Refusals
import TinyKeeper.KeeperServer.Durability
import TinyKeeper.KeeperServer.Versions
import TinyKeeper.KeeperServer.Sequential
import TinyKeeper.Storage.WellFormed
import TinyKeeper.SessionExpiryQueue.Calls
import TinyKeeper.ConnectionHandler.Delivery
import TinyKeeper.Protocol.Jute
import TinyKeeper.KeeperDispatcher
import TinyKeeper.KeeperDispatcher.Tasks
import TinyKeeper.KeeperDispatcher.Turns
import TinyKeeper.KeeperDispatcher.WatchOrder
import TinyKeeper.KeeperDispatcher.Load
import TinyKeeper.KeeperDispatcher.Deadlock
import TinyKeeper.KeeperDispatcher.Sockets
import TinyKeeper.KeeperDispatcher.Notices
import TinyKeeper.KeeperDispatcher.Watches
import TinyKeeper.KeeperServer.Crashes
import TinyKeeper.KeeperServer.ExpiryPass
import TinyKeeper.KeeperDispatcher.Clients
import TinyKeeper.KeeperServer.Lifetimes
import TinyKeeper.ConnectionHandler.Handshake
import TinyKeeper.KeeperServer.Orders
import TinyKeeper.KeeperDispatcher.Restarts
import TinyKeeper.KeeperDispatcher.Caches
