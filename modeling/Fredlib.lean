import Fredlib.Lib.System
import Fredlib.Lib.Monitor
import Fredlib.Lib.DList
import Fredlib.SafeList.ListHook
import Fredlib.SafeList.Basic
import Fredlib.SafeList.Spec
import Fredlib.SafeList.Runs
import Fredlib.SafeList.PushFront
import Fredlib.SafeList.Threads
import Fredlib.Lib.Atomic
import Fredlib.SafeList.Linearizable
import Fredlib.SafeList.Removals
import Fredlib.SafeList.Iterator
import Fredlib.SafeList.Traversal
import Fredlib.Threading.SyncPoint
import Fredlib.Threading.FanInPoint
import Fredlib.Threading.PausePoint
import Fredlib.Threading.SyncRounds
import Fredlib.Threading.LostWakeup
import Fredlib.Threading.ThreadControl
import Fredlib.Threading.Crew
import Fredlib.Threading.CrewControl
import Fredlib.Threading.PauseHandshake
import Fredlib.Lib.BigEndian
import Fredlib.Hash.HashKey
import Fredlib.Lib.Blocks
import Fredlib.Hash.Memory
import Fredlib.Hash.XXHash64
import Fredlib.Hash.XXhash64Engine
import Fredlib.Hash.City
import Fredlib.Hash.City256Engine
import Fredlib.Hash.Engines
import Fredlib.Lib.LeftTree
import Fredlib.Lib.SubtreeStack
import Fredlib.Hash.Blake3.Compress
import Fredlib.Hash.Blake3.Dispatch
import Fredlib.Hash.Blake3.Tree
import Fredlib.Hash.Blake3.ChunkState
import Fredlib.Hash.Blake3.Subtree
import Fredlib.Hash.Blake3.Hasher
import Fredlib.Hash.Blake3.Finalize
import Fredlib.Lib.Words
import Fredlib.Hash.Blake3.Rounds
import Fredlib.Lib.Collide
import Fredlib.Hash.Blake3.Collision
import Fredlib.Lib.Scratch
import Fredlib.Hash.ThreadLocalEngines
import Fredlib.Lib.Reading
import Fredlib.Hash.CityReads
import Fredlib.Hash.HashKeyText
import Fredlib.Hash.XXHash64Digest
import Fredlib.SafeList.Intrusive
import Fredlib.SafeList.Objects
import Fredlib.Lib.Cursor
import Fredlib.SafeList.Walk
import Fredlib.SafeList.IntrusiveIterator
import Fredlib.SafeList.IntrusiveAssign
import Fredlib.Lib.Custody
import Fredlib.Lib.Fair
import Fredlib.ThreadPool.GenericThreadPool
import Fredlib.ThreadPool.GenericQueue
import Fredlib.ThreadPool.GenericControl
import Fredlib.ThreadPool.WorkerThreads
import Fredlib.ThreadPool.WorkerControl
import Fredlib.ThreadPool.Deadlock
import Fredlib.ThreadPool.WorkerSync
import Fredlib.ThreadPool.Adders
import Fredlib.ThreadPool.Growth
import Fredlib.ThreadPool.GrowingStop
import Fredlib.ThreadPool.GrowingPause
import Fredlib.ThreadPool.Controller
import Fredlib.ThreadPool.NumThreads
import Fredlib.ThreadPool.Leftover
import Fredlib.ThreadPool.WorkerWait
import Fredlib.ThreadPool.AddThrows
import Fredlib.ThreadPool.Progress
import Fredlib.ThreadPool.Whereabouts
import Fredlib.ThreadPool.Orderly
import Fredlib.ThreadPool.Returns
