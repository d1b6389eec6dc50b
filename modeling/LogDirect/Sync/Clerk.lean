import LogDirect.Core.Backend
import LogDirect.Sync.Client

/-!
# Clerks that answer from the store

`SyncClerk::Run` and `PMemClerk::Run` differ in the buffers they use and in
nothing else: a turn of the loop takes the request in the message area, calls
the store, writes the reply over the request and posts it. `sync` and `pmem` are
the systems of one client and its clerk.
-/

namespace LogDirect.Sync

open Lib Exchange

variable {σ : Type}

/-! ## A turn of the loop -/

/-- What a turn comes to. -/
inductive Turn (σ : Type)
  | reply (m : Mem) (db : σ)
  | close
  | exit

/-- Write a reply over the request. -/
def reply (m : Mem) (status : RequestStatus) (valSize : Nat) (value : Bytes) : Mem :=
  m.write 0 (Reply.encode status valSize value)

/-- The value that follows the key. -/
def requestVal (m : Mem) : Bytes := m.read (sizeofRequest + Request.keySize m) (Request.valSize m)

/-- The `UPDATE` and `PUT` labels. -/
def servePut (B : DBType σ) (db : σ) (m : Mem) : Turn σ :=
  let (ok, db) := B.put db (Request.key m) (requestVal m)
  .reply (reply m (if ok then .ok else .error) 0 []) db

/-- The `GET` label. -/
def serveGet (B : DBType σ) (db : σ) (m : Mem) : Turn σ :=
  match B.get db (Request.key m) with
  | (some v, db) => .reply (reply m .ok v.length (v.take (v.length % 2 ^ 32))) db
  | (none, db) => .reply (reply m .notFound 0 []) db

/-- The `DELETE` label. -/
def serveDelete (B : DBType σ) (db : σ) (m : Mem) : Turn σ :=
  let (found, db) := B.delete db (Request.key m)
  .reply (reply m (if found then .ok else .notFound) 0 []) db

/-- The switch of `Run`. `SYNC` leaves the reply as it finds it. -/
def serve (B : DBType σ) (db : σ) (m : Mem) : Turn σ :=
  match Request.op m with
  | some .update => servePut B db m
  | some .put => servePut B db m
  | some .get => serveGet B db m
  | some .sync => .reply m (B.setSync db)
  | some .delete => serveDelete B db m
  | some .close => .close
  | some .nop => .exit
  | none => .exit

/-! ## One connection -/

/-- `closing`: the clerk waits for the client's last message. -/
inductive ClerkPc
  | running
  | closing
  | closed
  | exited
  deriving DecidableEq

/-- A client, its clerk and what is between them. -/
structure Conn where
  client : Client
  clerk : ClerkPc
  link : Link

/-- A fresh connection. The buffers hold arbitrary bytes. -/
def Conn.fresh (flag : Nat) (clientMsg clerkMsg ring : Mem) : Conn where
  client := { pc := .idle, bufHead := 0, history := [] }
  clerk := .running
  link := { client := ⟨clientDone, clientMsg⟩, clerk := ⟨flag, clerkMsg⟩, ring := ring
            toClerk := [], toClient := [] }

/-- Who moves. -/
inductive Label
  | call (q : Call)
  | client
  | toClerk
  | toClient
  | serve
  | leave

/-- The clerk leaves its loop on `CLIENT_DONE` and takes a turn. -/
def Conn.serve (B : DBType σ) (c : Conn) (db : σ) : Conn × σ :=
  match Sync.serve B db c.link.clerk.msg with
  | .reply m db => ({ c with link := (c.link.take.overwrite m).answer }, db)
  | .close => ({ c with clerk := .closing, link := c.link.take }, db)
  | .exit => ({ c with clerk := .exited, link := c.link.take }, db)

/-- One step. -/
def step (send : Send) (B : DBType σ) (s : Conn × σ) : Label → Option (Conn × σ)
  | .call q =>
      match s.1.client.pc with
      | .idle =>
          let (cl, k) := send s.1.client s.1.link q
          some ({ s.1 with client := cl, link := k }, s.2)
      | _ => none
  | .client =>
      (s.1.client.resume s.1.link).map fun p => ({ s.1 with client := p.1, link := p.2 }, s.2)
  | .toClerk => s.1.link.deliverClerk.map fun k => ({ s.1 with link := k }, s.2)
  | .toClient => s.1.link.deliverClient.map fun k => ({ s.1 with link := k }, s.2)
  | .serve =>
      if s.1.clerk = .running ∧ s.1.link.clerk.header = clientDone then some (s.1.serve B s.2)
      else none
  | .leave =>
      match s.1.clerk, s.1.client.pc with
      | .closing, .closed => some ({ s.1 with clerk := .closed }, s.2)
      | _, _ => none

/-- One client and its clerk. The flag word the clerk starts from is not `CLIENT_DONE`. -/
def system (send : Send) (B : DBType σ) : TSys (Conn × σ) Label where
  init s := ∃ flag m m' ring, flag ≠ clientDone ∧ s.1 = .fresh flag m m' ring
  step := step send B

/-- `SyncClient` and `SyncClerk`. -/
def sync (B : DBType σ) : TSys (Conn × σ) Label := system SyncClient.send B

/-- `PMemClient` and `PMemClerk`. -/
def pmem (B : DBType σ) : TSys (Conn × σ) Label := system PMemClient.send B

/-! ## What is seen of a run -/

/-- The questions and answers of a turn. -/
def turnEvents (m : Mem) : Turn σ → List (Event Seen Bytes)
  | .reply m' _ => [.take (.ofMem m), .answer (Reply.wire m')]
  | .close => [.take (.ofMem m)]
  | .exit => [.take (.ofMem m)]

/-- The client reads the reply when it leaves its loop. -/
def Client.readEvents (c : Client) (k : Link) : List (Event Seen Bytes) :=
  match c.pc with
  | .waiting _ => [.read (Reply.wire k.client.msg)]
  | _ => []

/-- The questions and answers of a step. -/
def stepEvents (B : DBType σ) (s : Conn × σ) : Label → List (Event Seen Bytes)
  | .call q => [.ask (.ofCall q)]
  | .client => s.1.client.readEvents s.1.link
  | .serve => turnEvents s.1.link.clerk.msg (serve B s.2 s.1.link.clerk.msg)
  | .toClerk => []
  | .toClient => []
  | .leave => []

/-- The questions and answers of a run. -/
def events (B : DBType σ) (tr : List ((Conn × σ) × Label)) : List (Event Seen Bytes) :=
  tr.flatMap fun p => stepEvents B p.1 p.2

@[simp] theorem events_snoc (B : DBType σ) (tr : List ((Conn × σ) × Label)) (s : Conn × σ)
    (l : Label) : events B (tr ++ [(s, l)]) = events B tr ++ stepEvents B s l := by
  simp [events]

/-- The call a step enters. -/
def Label.calls : Label → List Call
  | .call q => [q]
  | .client => []
  | .toClerk => []
  | .toClient => []
  | .serve => []
  | .leave => []

/-- The calls of a run. -/
def calls (tr : List ((Conn × σ) × Label)) : List Call := tr.flatMap fun p => p.2.calls

@[simp] theorem calls_snoc (tr : List ((Conn × σ) × Label)) (s : Conn × σ) (l : Label) :
    calls (tr ++ [(s, l)]) = calls tr ++ l.calls := by
  simp [calls]

end LogDirect.Sync
