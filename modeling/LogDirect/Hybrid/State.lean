import LogDirect.Core.Backend

/-!
# The hybrid front end: state

One `HybridClient`, its `HybridClerk` and the clerk's persist threads
(`frontend/hybrid/client.h`, `server.h`). The two ends share no memory: each
posts RDMA writes, which are delivered whole and in posting order. What a write
can reach is fixed by the buffer layout, so in-flight writes are typed:

* the client's `local_buf_` and the clerk's `send_buf_` are a flag word
  (bytes 0–4), the client's tail word (bytes 4–8) and a message area from
  `RING_HEADER` on, here `header`, `bufTail` and `msg`;
* the clerk's `write_buf_` is the ring, a block of the server's memory.

Fields under "history" are written by the steps and read by none: they name
what the properties are about (which calls returned what, where a record was
placed, which records a batch holds).
-/

namespace LogDirect.Hybrid

open Lib

/-! ## Calls -/

/-- The arguments and calls of a `HybridClient`. -/
abbrev Record := LogDirect.Record .headed

@[inherit_doc Record]
abbrev Key := LogDirect.Key .headed

@[inherit_doc Record]
abbrev Call := LogDirect.Call .headed

/-! ## In-flight RDMA writes -/

/-- From the client to the clerk: into `send_buf_` (`body`, `header`), into the
ring, or the final `IBV_WR_SEND` of `SendClose`. -/
inductive ToClerk
  | body (bs : Bytes)
  | ring (off : Nat) (bs : Bytes)
  | header (w : Nat)
  | send

/-- From the clerk to the client's `local_buf_`. A tail word names the persist
thread that posted it, which its completion releases. -/
inductive ToClient
  | body (bs : Bytes)
  | header (w : Nat)
  | tail (w : Nat) (thread : Nat)

/-! ## The client -/

/-- Where the client stands; every state but `idle` and `closed` is a loop it
spins in or a completion it polls for. -/
inductive ClientPc
  | idle
  | nopWait (r : Record)
  | rewindWait (r : Record)
  | spaceWait (r : Record)
  | writeWait (r : Record) (pos : Nat)
  | getWait (k : Key)
  | syncWait
  | deleteWait (k : Key)
  | closeWait
  | closed

/-- `HybridClient` -/
structure Client where
  pc : ClientPc
  header : Nat
  bufTail : Nat
  msg : Mem
  bufHead : Nat
  -- history: laps begun, calls returned, acknowledged records with their position
  lap : Nat
  history : List (Call × Ret)
  acks : List (Record × Nat)

/-! ## The clerk -/

/-- A write the clerk has taken: the `seq`-th one, and where it lies in the ring. -/
structure Stored where
  seq : Nat
  record : Record
  pos : Nat

/-- How far a persist thread has come: waiting for `mu_`; batch appended to the
log; tail word posted; tail word delivered and `mu_` released. -/
inductive Stage
  | pending | logged | posted | done
  deriving DecidableEq

/-- A call of `persist_func`, detached or (on `CLOSE`) synchronous. -/
structure Thread where
  buffer : Bytes
  tail : Nat
  stage : Stage
  -- history: where the batch began, in which lap, and its records
  start : Nat
  lap : Nat
  recs : List Stored

/-- `closing` carries the synchronous `persist_func` call, if there was one. -/
inductive ClerkPc
  | running
  | closing (sync : Option Nat)
  | closed
  | exited
  deriving DecidableEq

/-- `HybridClerk` with the locals of `Run`. -/
structure Clerk where
  pc : ClerkPc
  header : Nat
  msg : Mem
  writeBuf : Nat
  bufTail : Nat
  keyBatch : List Bytes
  indexBatch : List DBIndex
  batchLength : Nat
  mu : Bool
  threads : List Thread
  received : Bool
  -- history: laps begun, records of the open batch, all records taken, records
  -- in log order, requests answered
  lap : Nat
  openRecs : List Stored
  placed : List Stored
  logged : List Stored
  served : List (Call × Ret)

/-- One connection. -/
structure Conn where
  client : Client
  clerk : Clerk
  toClerk : List ToClerk
  toClient : List ToClient

/-- What all clerks of a server share: memory, `im_index_`, the store and
`pmrlog.log`. `log` is what the threads have written to the file; `ftruncate` has
made it 8 GiB long before, so zeros follow up to there. -/
structure Shared where
  mem : Mem
  index : Bytes → Option DBIndex
  db : DB
  log : Bytes
  -- history: mutations in processing order
  muts : List (Bytes × Option Bytes)

/-- A fresh connection: `HybridClient::Connect` on one side, the constructor of
`HybridClerk` on the other. The buffers hold arbitrary bytes. -/
def Conn.fresh (writeBuf flag : Nat) (clientMsg clerkMsg : Mem) : Conn where
  client :=
    { pc := .idle, header := clientDone, bufTail := ringHeader, msg := clientMsg
      bufHead := ringHeader, lap := 0, history := [], acks := [] }
  clerk :=
    { pc := .running, header := flag, msg := clerkMsg, writeBuf := writeBuf
      bufTail := ringHeader, keyBatch := [], indexBatch := [], batchLength := 0
      mu := false, threads := [], received := false
      lap := 0, openRecs := [], placed := [], logged := [], served := [] }
  toClerk := []
  toClient := []

/-- The records of a list of history entries. -/
def records (l : List Stored) : List Record := l.map Stored.record

@[simp] theorem records_nil : records [] = [] := rfl

@[simp] theorem records_append (l l' : List Stored) :
    records (l ++ l') = records l ++ records l' := by
  simp [records]

/-- The entries' view from the client: record and ring position. -/
def Stored.ack (w : Stored) : Record × Nat := (w.record, w.pos)

end LogDirect.Hybrid
