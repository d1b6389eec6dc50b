import LogDirect.Sync.Handshake

/-!
# The group front end

`frontend/group/group.cc`. A `GroupClerk` that has taken a request to be logged
pushes a `Writer` on `writers_queue` and waits until it is done or at the front
of the queue; the one at the front pauses, lets `BuildBatchGroup` gather the
requests of the queue in the static `batch`, calls `PutBatch` and takes what it
gathered off the queue. What happens under `global_mutex` is one step; the pause
and `PutBatch` are between steps, and a clerk that waits may wake at any time.

There is one clerk for each client `i : ι`, and one `Writer` on the stack of
each clerk: the queue is a list of clerks.
-/

namespace LogDirect.Group

open Lib Exchange
open Sync (Client ClientPc Seen clip reply)

variable {ι σ : Type}

/-- The arguments and calls of a `GroupClient`. -/
abbrev Record := Sync.Record

@[inherit_doc Record]
abbrev Key := Sync.Key

@[inherit_doc Record]
abbrev Call := Sync.Call

/-! ## `BuildBatchGroup` (lines 18–50) -/

/-- `WriteBatch` -/
structure WriteBatch where
  batchLength : Nat
  keys : List Bytes
  dbIndexes : List DBIndex
  buffer : Mem

namespace WriteBatch

/-- The bytes `PutBatch` is given. -/
def bytes (b : WriteBatch) : Bytes := b.buffer.read 0 b.batchLength

/-- Drop what the last group left. -/
def clear (b : WriteBatch) : WriteBatch := { b with batchLength := 0, keys := [], dbIndexes := [] }

/-- Take in one request (lines 36–42). -/
def append (b : WriteBatch) (request : Mem) : WriteBatch where
  batchLength := b.batchLength + Request.length request
  keys := b.keys ++ [Request.key request]
  dbIndexes := b.dbIndexes ++
    [⟨.file 0 (b.batchLength + sizeofRequest), Request.keySize request, Request.valSize request⟩]
  buffer := b.buffer.write b.batchLength (request.read 0 (Request.length request))

end WriteBatch

/-- The loop of `BuildBatchGroup`, with `*last_writer`. -/
def buildLoop (request : ι → Mem) : WriteBatch → Option ι → List ι → WriteBatch × Option ι
  | batch, lastWriter, [] => (batch, lastWriter)
  | batch, _, w :: ws =>
      if (batch.append (request w)).batchLength ≥ batchSize then
        (batch.append (request w), some w)
      else buildLoop request (batch.append (request w)) (some w) ws

def buildBatchGroup (request : ι → Mem) (batch : WriteBatch) (writersQueue : List ι) :
    WriteBatch × Option ι :=
  buildLoop request batch.clear none writersQueue

/-! ## State -/

/-- Where a clerk stands. -/
inductive ClerkPc (ι : Type)
  -- in the loop on `CLIENT_DONE`
  | running
  -- with a request
  | serving
  -- in `w.cv.Wait()`
  | waiting
  -- at the front, in `usleep`
  | pausing
  -- in `PutBatch`, and behind it
  | writing (lastWriter : ι)
  | written (lastWriter : ι)
  -- at `send_reply`
  | replying
  -- waiting for the client's last message
  | closing
  | closed

/-- `GroupClerk` with its `Writer`: `done`, and whether `cv` has been signalled. -/
structure Clerk (ι : Type) where
  pc : ClerkPc ι
  done : Bool
  signalled : Bool

/-- A client, its clerk and what is between them. -/
structure Conn (ι : Type) where
  client : Client
  clerk : Clerk ι
  link : Link

namespace Conn

/-- A fresh connection. -/
def fresh (flag : Nat) (clientMsg clerkMsg ring : Mem) : Conn ι where
  client := { pc := .idle, bufHead := 0, history := [] }
  clerk := ⟨.running, false, false⟩
  link := { client := ⟨clientDone, clientMsg⟩, clerk := ⟨flag, clerkMsg⟩, ring := ring
            toClerk := [], toClient := [] }

/-- The request in the clerk's message area. -/
def request (c : Conn ι) : Mem := c.link.clerk.msg

def setLink (c : Conn ι) (k : Link) : Conn ι := { c with link := k }

def setClient (c : Conn ι) (p : Client × Link) : Conn ι := { c with client := p.1, link := p.2 }

/-- The clerk goes on. -/
def goto (c : Conn ι) (pc : ClerkPc ι) : Conn ι := { c with clerk := { c.clerk with pc := pc } }

/-- The clerk has its reply. -/
def replies (c : Conn ι) (m : Mem) : Conn ι :=
  { c with clerk := { c.clerk with pc := .replying }, link := c.link.overwrite m }

/-- `Writer w`, pushed on the queue. -/
def push (c : Conn ι) (pc : ClerkPc ι) : Conn ι := { c with clerk := ⟨pc, false, false⟩ }

/-- `ready->done = true; ready->cv.Signal()` -/
def finish (c : Conn ι) : Conn ι :=
  { c with clerk := { c.clerk with done := true, signalled := true } }

/-- `cv.Signal()` -/
def signal (c : Conn ι) : Conn ι := { c with clerk := { c.clerk with signalled := true } }

/-- `cv.Wait()` again. -/
def sleep (c : Conn ι) : Conn ι := { c with clerk := { c.clerk with signalled := false } }

end Conn

/-- The server: its connections, `writers_queue`, `batch` and the store. -/
structure Server (ι σ : Type) where
  conns : ι → Conn ι
  writersQueue : List ι
  batch : WriteBatch
  db : σ

/-! ## Steps -/

/-- Who moves. -/
inductive Label (ι : Type)
  | call (i : ι) (q : Call)
  | client (i : ι)
  | toClerk (i : ι)
  | toClient (i : ι)
  -- the clerk leaves its loop; it looks at the request
  | take (i : ι)
  | serve (i : ι)
  -- it wakes; `BuildBatchGroup`; the return of `PutBatch`; the loop behind it
  | wake (i : ι)
  | build (i : ι)
  | putBatch (i : ι)
  | complete (i : ι)
  -- it posts the reply; it returns from `Run`
  | reply (i : ι)
  | leave (i : ι)

/-- The loop that takes the group off the queue (lines 266–274): what is left of the queue,
and the writers marked. `front` of an empty queue is undefined. -/
def completeLoop [DecidableEq ι] (self lastWriter : ι) : List ι → Option (List ι × List ι)
  | [] => none
  | ready :: queue =>
      if ready = lastWriter then some (queue, if ready = self then [] else [ready])
      else (completeLoop self lastWriter queue).map fun p =>
        (p.1, (if ready = self then [] else [ready]) ++ p.2)

namespace Server

def setDb (s : Server ι σ) (db : σ) : Server ι σ := { s with db := db }

def setBatch (s : Server ι σ) (batch : WriteBatch) : Server ι σ := { s with batch := batch }

@[simp] theorem setDb_conns (s : Server ι σ) (db : σ) : (s.setDb db).conns = s.conns := rfl

variable [DecidableEq ι]

/-- Replace a connection. -/
def set (s : Server ι σ) (i : ι) (c : Conn ι) : Server ι σ :=
  { s with conns := Function.update s.conns i c }

/-- The `GET` branch; a key that is not there leaves `val_size` as it is. -/
def get (B : DBType σ) (s : Server ι σ) (i : ι) : Server ι σ :=
  match B.get s.db (Request.key (s.conns i).request) with
  | (some v, db) =>
      (s.set i ((s.conns i).replies (reply (s.conns i).request .ok v.length (clip v)))).setDb db
  | (none, db) =>
      (s.set i ((s.conns i).replies
        ((s.conns i).request.write 0 (leBytes 4 RequestStatus.notFound.code)))).setDb db

/-- Push the request, and test once whether it is at the front. -/
def push (s : Server ι σ) (i : ι) : Server ι σ :=
  { s with
    conns := Function.update s.conns i ((s.conns i).push
      (if (s.writersQueue ++ [i]).head? = some i then .pausing else .waiting))
    writersQueue := s.writersQueue ++ [i] }

/-- The branches on `request->op` (lines 226–249). -/
def serve (B : DBType σ) (s : Server ι σ) (i : ι) : Server ι σ :=
  match Request.op (s.conns i).request with
  | some .close => s.set i ((s.conns i).goto .closing)
  | some .get => s.get B i
  | some .sync => (s.set i ((s.conns i).goto .replying)).setDb (B.setSync s.db)
  | _ => s.push i

/-- The test of the waiting loop, and what follows it (lines 246–254). -/
def wake (s : Server ι σ) (i : ι) : Server ι σ :=
  if (s.conns i).clerk.done then s.set i ((s.conns i).replies (reply (s.conns i).request .ok 0 []))
  else if s.writersQueue.head? = some i then s.set i ((s.conns i).goto .pausing)
  else s.set i (s.conns i).sleep

/-- Mark the writers that are done, and signal the new front (lines 266–279). -/
def notify (s : Server ι σ) (queue marked : List ι) : Server ι σ :=
  { s with
    conns := fun j =>
      if j ∈ marked then (s.conns j).finish
      else if queue.head? = some j then (s.conns j).signal
      else s.conns j
    writersQueue := queue }

/-- One step. -/
def step (B : DBType σ) (s : Server ι σ) : Label ι → Option (Server ι σ)
  | .call i q =>
      match (s.conns i).client.pc with
      | .idle =>
          some (s.set i ((s.conns i).setClient
            (Sync.GroupClient.send (s.conns i).client (s.conns i).link q)))
      | _ => none
  | .client i =>
      ((s.conns i).client.resume (s.conns i).link).map fun p => s.set i ((s.conns i).setClient p)
  | .toClerk i => (s.conns i).link.deliverClerk.map fun k => s.set i ((s.conns i).setLink k)
  | .toClient i => (s.conns i).link.deliverClient.map fun k => s.set i ((s.conns i).setLink k)
  | .take i =>
      match (s.conns i).clerk.pc with
      | .running =>
          if (s.conns i).link.clerk.header = clientDone then
            some (s.set i (((s.conns i).setLink (s.conns i).link.take).goto .serving))
          else none
      | _ => none
  | .serve i =>
      match (s.conns i).clerk.pc with
      | .serving => some (s.serve B i)
      | _ => none
  | .wake i =>
      match (s.conns i).clerk.pc with
      | .waiting => some (s.wake i)
      | _ => none
  | .build i =>
      match (s.conns i).clerk.pc with
      | .pausing =>
          match buildBatchGroup (fun j => (s.conns j).request) s.batch s.writersQueue with
          | (batch, some lastWriter) =>
              some ((s.set i ((s.conns i).goto (.writing lastWriter))).setBatch batch)
          | (_, none) => none
      | _ => none
  | .putBatch i =>
      match (s.conns i).clerk.pc with
      | .writing lastWriter =>
          some ((s.set i ((s.conns i).goto (.written lastWriter))).setDb
            (B.putBatch s.db s.batch.keys s.batch.dbIndexes s.batch.bytes))
      | _ => none
  | .complete i =>
      match (s.conns i).clerk.pc with
      | .written lastWriter =>
          (completeLoop i lastWriter s.writersQueue).map fun p =>
            (s.set i ((s.conns i).goto .replying)).notify p.1 p.2
      | _ => none
  | .reply i =>
      match (s.conns i).clerk.pc with
      | .replying => some (s.set i (((s.conns i).setLink (s.conns i).link.answer).goto .running))
      | _ => none
  | .leave i =>
      match (s.conns i).clerk.pc, (s.conns i).client.pc with
      | .closing, .closed => some (s.set i ((s.conns i).goto .closed))
      | _, _ => none

end Server

/-- A server and its clients. No clerk starts from `CLIENT_DONE`. -/
def system [DecidableEq ι] (B : DBType σ) : TSys (Server ι σ) (Label ι) where
  init s := s.writersQueue = [] ∧ ∀ i, ∃ flag m m' ring, flag ≠ clientDone ∧
    s.conns i = .fresh flag m m' ring
  step := Server.step B

/-! ## What a step does -/

/-- The operations that are logged. -/
def Logged (op : Option Operation) : Prop := op ≠ some .close ∧ op ≠ some .get ∧ op ≠ some .sync

namespace Server

variable [DecidableEq ι]

/-- The steps, case by case. -/
inductive Moves (B : DBType σ) (s : Server ι σ) : Label ι → Server ι σ → Prop
  | call {i q} : (s.conns i).client.pc = .idle →
      Moves B s (.call i q) (s.set i ((s.conns i).setClient
        (Sync.GroupClient.send (s.conns i).client (s.conns i).link q)))
  | client {i p} : (s.conns i).client.resume (s.conns i).link = some p →
      Moves B s (.client i) (s.set i ((s.conns i).setClient p))
  | toClerk {i k} : (s.conns i).link.deliverClerk = some k →
      Moves B s (.toClerk i) (s.set i ((s.conns i).setLink k))
  | toClient {i k} : (s.conns i).link.deliverClient = some k →
      Moves B s (.toClient i) (s.set i ((s.conns i).setLink k))
  | take {i} : (s.conns i).clerk.pc = .running → (s.conns i).link.clerk.header = clientDone →
      Moves B s (.take i) (s.set i (((s.conns i).setLink (s.conns i).link.take).goto .serving))
  | close {i} : (s.conns i).clerk.pc = .serving → Request.op (s.conns i).request = some .close →
      Moves B s (.serve i) (s.set i ((s.conns i).goto .closing))
  | get {i m} (db) : (s.conns i).clerk.pc = .serving → Request.op (s.conns i).request = some .get →
      s.get B i = (s.set i ((s.conns i).replies m)).setDb db →
      Moves B s (.serve i) ((s.set i ((s.conns i).replies m)).setDb db)
  | sync {i} : (s.conns i).clerk.pc = .serving → Request.op (s.conns i).request = some .sync →
      Moves B s (.serve i) ((s.set i ((s.conns i).goto .replying)).setDb (B.setSync s.db))
  | push {i} : (s.conns i).clerk.pc = .serving → Logged (Request.op (s.conns i).request) →
      Moves B s (.serve i) (s.push i)
  | done {i} : (s.conns i).clerk.pc = .waiting → (s.conns i).clerk.done = true →
      Moves B s (.wake i) (s.set i ((s.conns i).replies (reply (s.conns i).request .ok 0 [])))
  | lead {i} : (s.conns i).clerk.pc = .waiting → (s.conns i).clerk.done = false →
      s.writersQueue.head? = some i → Moves B s (.wake i) (s.set i ((s.conns i).goto .pausing))
  | sleep {i} : (s.conns i).clerk.pc = .waiting → (s.conns i).clerk.done = false →
      s.writersQueue.head? ≠ some i → Moves B s (.wake i) (s.set i (s.conns i).sleep)
  | build {i b w} : (s.conns i).clerk.pc = .pausing →
      buildBatchGroup (fun j => (s.conns j).request) s.batch s.writersQueue = (b, some w) →
      Moves B s (.build i) ((s.set i ((s.conns i).goto (.writing w))).setBatch b)
  | putBatch {i w} : (s.conns i).clerk.pc = .writing w →
      Moves B s (.putBatch i) ((s.set i ((s.conns i).goto (.written w))).setDb
        (B.putBatch s.db s.batch.keys s.batch.dbIndexes s.batch.bytes))
  | complete {i w queue marked} : (s.conns i).clerk.pc = .written w →
      completeLoop i w s.writersQueue = some (queue, marked) →
      Moves B s (.complete i) ((s.set i ((s.conns i).goto .replying)).notify queue marked)
  | reply {i} : (s.conns i).clerk.pc = .replying →
      Moves B s (.reply i) (s.set i (((s.conns i).setLink (s.conns i).link.answer).goto .running))
  | leave {i} : (s.conns i).clerk.pc = .closing → (s.conns i).client.pc = .closed →
      Moves B s (.leave i) (s.set i ((s.conns i).goto .closed))

theorem get_eq (B : DBType σ) (s : Server ι σ) (i : ι) : ∃ m,
    s.get B i = (s.set i ((s.conns i).replies m)).setDb
      (B.get s.db (Request.key (s.conns i).request)).2 := by
  unfold get
  obtain ⟨_ | v, db⟩ := B.get s.db (Request.key (s.conns i).request)
  · exact ⟨_, rfl⟩
  · exact ⟨_, rfl⟩

theorem serve_moves {B : DBType σ} {s : Server ι σ} {i : ι}
    (hpc : (s.conns i).clerk.pc = .serving) : s.Moves B (.serve i) (s.serve B i) := by
  unfold serve
  split
  · rename_i hop
    exact .close hpc hop
  · rename_i hop
    obtain ⟨m, hm⟩ := s.get_eq B i
    rw [hm]
    exact .get _ hpc hop hm
  · rename_i hop
    exact .sync hpc hop
  · rename_i h₁ h₂ h₃
    exact .push hpc ⟨h₁, h₂, h₃⟩

theorem wake_moves {B : DBType σ} {s : Server ι σ} {i : ι}
    (hpc : (s.conns i).clerk.pc = .waiting) : s.Moves B (.wake i) (s.wake i) := by
  unfold wake
  split
  · rename_i hdone
    exact .done hpc hdone
  · rename_i hdone
    have hdone : (s.conns i).clerk.done = false := by simpa using hdone
    split
    · rename_i hfront
      exact .lead hpc hdone hfront
    · rename_i hfront
      exact .sleep hpc hdone hfront

theorem step_moves {B : DBType σ} {s s' : Server ι σ} {l : Label ι} (h : s.step B l = some s') :
    s.Moves B l s' := by
  cases l with
  | call i q =>
    simp only [step] at h
    split at h
    · rename_i hidle
      cases h
      exact .call hidle
    · cases h
  | client i =>
    obtain ⟨p, hp, rfl⟩ := Option.map_eq_some_iff.mp h
    exact .client hp
  | toClerk i =>
    obtain ⟨k, hk, rfl⟩ := Option.map_eq_some_iff.mp h
    exact .toClerk hk
  | toClient i =>
    obtain ⟨k, hk, rfl⟩ := Option.map_eq_some_iff.mp h
    exact .toClient hk
  | take i =>
    simp only [step] at h
    split at h
    · rename_i hpc
      split at h
      · rename_i hflag
        cases h
        exact .take hpc hflag
      · cases h
    · cases h
  | serve i =>
    simp only [step] at h
    split at h
    · rename_i hpc
      cases h
      exact serve_moves hpc
    · cases h
  | wake i =>
    simp only [step] at h
    split at h
    · rename_i hpc
      cases h
      exact wake_moves hpc
    · cases h
  | build i =>
    simp only [step] at h
    split at h
    · rename_i hpc
      split at h
      · rename_i b w hb
        cases h
        exact .build hpc hb
      · cases h
    · cases h
  | putBatch i =>
    simp only [step] at h
    split at h
    · rename_i w hpc
      cases h
      exact .putBatch hpc
    · cases h
  | complete i =>
    simp only [step] at h
    split at h
    · rename_i w hpc
      obtain ⟨⟨queue, marked⟩, hloop, rfl⟩ := Option.map_eq_some_iff.mp h
      exact .complete hpc hloop
    · cases h
  | reply i =>
    simp only [step] at h
    split at h
    · rename_i hpc
      cases h
      exact .reply hpc
    · cases h
  | leave i =>
    simp only [step] at h
    split at h
    · rename_i hpc hclosed
      cases h
      exact .leave hpc hclosed
    · cases h

end Server

end LogDirect.Group
