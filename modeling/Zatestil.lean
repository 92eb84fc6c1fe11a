import Zatestil.Library.Machine
import Zatestil.Database.Session
import Zatestil.Database.MapRefinement
import Zatestil.Database.Locking
import Zatestil.Messaging.Invariant
import Zatestil.Messaging.Changes
import Zatestil.Messaging.Matching
import Zatestil.Messaging.Waiters
import Zatestil.Messaging.Ownership
import Zatestil.Database.Scan
import Zatestil.Database.Ranges
import Zatestil.Database.Find
import Zatestil.Database.EndFlag
import Zatestil.Websocket.Delivery
import Zatestil.Websocket.Removal
import Zatestil.Library.Unwind
import Zatestil.Websocket.Server
import Zatestil.Messaging.Lifetimes
import Zatestil.Hashing.Hash
import Zatestil.Hashing.Hasher
import Zatestil.Util.Singleton
import Zatestil.Library.Codec
import Zatestil.Threads.ThreadPool
import Zatestil.Serde
import Zatestil.Websocket.ReadLoop
import Zatestil.Database.Nesting
import Zatestil.Database.Typed
import Zatestil.Database.LiveScan
import Zatestil.Messaging.Settling
import Zatestil.Websocket.Draining
import Zatestil.Util.SingletonProgress
import Zatestil.Application.Service
import Zatestil.Websocket.Opening
