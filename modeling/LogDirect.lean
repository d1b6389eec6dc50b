import LogDirect.Lib.TSys
import LogDirect.Lib.Mem
import LogDirect.Lib.Replay
import LogDirect.Lib.Slots
import LogDirect.Lib.Frames
import LogDirect.Lib.Pool
import LogDirect.Lib.Extents
import LogDirect.Lib.History
import LogDirect.Lib.Arena
import LogDirect.Lib.Wire
import LogDirect.Lib.Exchange
import LogDirect.Lib.Inverse
import LogDirect.Lib.Cells
import LogDirect.Lib.Atomic
import LogDirect.Lib.Loops
import LogDirect.Lib.Bfs
import LogDirect.Lib.Owners
import LogDirect.Lib.Programs
import LogDirect.Core.Request
import LogDirect.Core.Backend
import LogDirect.Core.Link
import LogDirect.Hybrid.State
import LogDirect.Hybrid.Model
import LogDirect.Hybrid.Batch
import LogDirect.Hybrid.Handshake
import LogDirect.Hybrid.Serve
import LogDirect.Hybrid.Invariant
import LogDirect.Hybrid.Ring
import LogDirect.Hybrid.Refine
import LogDirect.Hybrid.Coordination
import LogDirect.Hybrid.Drive
import LogDirect.Hybrid.Schedule
import LogDirect.Hybrid.Lap
import LogDirect.Hybrid.Calls
import LogDirect.Hybrid.Durability
import LogDirect.Hybrid.Close
import LogDirect.Hybrid.Log
import LogDirect.Hybrid.Reads
import LogDirect.Hybrid.Server
import LogDirect.Hybrid.Isolation
import LogDirect.Hybrid.Index
import LogDirect.Hybrid.Updates
import LogDirect.Hybrid.Rounds
import LogDirect.BitCask.Coding
import LogDirect.BitCask.File
import LogDirect.BitCask.Db
import LogDirect.BitCask.Map
import LogDirect.BitCask.Recover
import LogDirect.BitCask.Scan
import LogDirect.BitCask.Reopen
import LogDirect.BitCask.Restart
import LogDirect.BitCask.Appends
import LogDirect.BitCask.Writers
import LogDirect.BitCask.Agree
import LogDirect.BitCask.Histories
import LogDirect.BitCask.Crash
import LogDirect.BitCask.Reservations
import LogDirect.BitCask.Callback
import LogDirect.BitCask.Rotation
import LogDirect.Sync.Client
import LogDirect.Sync.Clerk
import LogDirect.Sync.Handshake
import LogDirect.Sync.Progress
import LogDirect.Sync.Server
import LogDirect.Group.Model
import LogDirect.Group.Batch
import LogDirect.Group.Handshake
import LogDirect.Group.Queue
import LogDirect.Group.Books
import LogDirect.Group.Commit
import LogDirect.Group.Progress
import LogDirect.Group.Solo
import LogDirect.Group.Agree
import LogDirect.Handshakes
import LogDirect.Rdma.Verbs
import LogDirect.Cuckoo.Hash
import LogDirect.Cuckoo.Table
import LogDirect.Cuckoo.Threads
import LogDirect.Cuckoo.Migrate
import LogDirect.Cuckoo.Invariant
import LogDirect.Cuckoo.Serve
import LogDirect.Cuckoo.Search
import LogDirect.Cuckoo.Steps
import LogDirect.Cuckoo.Linear
import LogDirect.Cuckoo.Paths
import LogDirect.Cuckoo.Alone
import LogDirect.Cuckoo.Locks
import LogDirect.Cuckoo.Held
import LogDirect.Cuckoo.LockSteps
import LogDirect.Cuckoo.Exclusion
import LogDirect.Cuckoo.Solo
import LogDirect.Cuckoo.Doubling
import LogDirect.BitCask.OnTable
import LogDirect.Store.Cuckoo
import LogDirect.Store.Log
import LogDirect.Store.Batches
import LogDirect.Store.OnTable
import LogDirect.Group.Table
import LogDirect.Group.TableAt
import LogDirect.Group.TableFront
import LogDirect.Group.OnTable
import LogDirect.Cmb.Dmabuf
import LogDirect.Cmb.Attachments
import LogDirect.Cmb.Mappings
import LogDirect.Cmb.Lifecycle
import LogDirect.Cmb.Importer
import LogDirect.RemotePath.Ssd
import LogDirect.RemotePath.Blocks
import LogDirect.Bench.Generator
import LogDirect.CpuAccess.RandSet
import LogDirect.CpuAccess.PointerChase
import LogDirect.CpuAccess.RandomAccess
