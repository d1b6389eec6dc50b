import LogDirect.Hybrid.State
import LogDirect.Lib.TSys

/-!
# The hybrid front end: steps

`frontend/hybrid/hybrid.cc`. The client's functions are cut at the loops they
spin in: `Client.call` runs a `Send*` function up to its first loop,
`Client.resume` leaves a loop and runs on to the next one or to the return.
`Clerk.serve` is one turn of the loop in `HybridClerk::Run`. A step of a
connection is one of these, one delivery, or one step of a persist thread. A
detached thread may outlive its clerk; it is then let run all the same.

The build flags are those of the file: `COPY2DRAM` and `BG_SYNC` are on.
-/

namespace LogDirect.Hybrid

open Lib

/-! ## The client -/

namespace Client

/-- Begin the next lap (line 74). -/
def rewind (c : Client) : Client := { c with bufHead := ringHeader, lap := c.lap + 1 }

/-- Fill in the record, post it to the clerk and to the ring, raise the flag
(lines 83–96). -/
def postRecord (c : Client) (r : Record) : Client × List ToClerk :=
  let msg := c.msg.write 0
    (Request.header r.op (keyLen r) (valLen r) ++ r.key.take (keyLen r) ++ r.val.take (valLen r))
  ({ c with pc := .writeWait r c.bufHead, msg := msg, bufHead := c.bufHead + totalLen r },
   [.body (msg.read 0 (metaLen r)), .ring c.bufHead (msg.read 0 (totalLen r)),
    .header c.header])

/-- `SendWrite` up to its first loop (lines 57–81). -/
def sendWrite (c : Client) (r : Record) : Client × List ToClerk :=
  if c.bufHead + totalLen r ≥ maxAsyncSize then
    -- only the operation is set: the size fields keep what the last reply left
    let msg := c.msg.write 0 (leBytes 1 Operation.nop.code)
    ({ c with pc := .nopWait r, msg := msg },
     [.body (msg.read 0 sizeofRequest), .header c.header])
  else ({ c with pc := .spaceWait r }, [])

/-- `SendGet` and `SendDelete` up to their loop: a header with the key. -/
def sendKey (c : Client) (op : Operation) (k : Key) (pc : ClientPc) : Client × List ToClerk :=
  let msg := c.msg.write 0 (Request.header op (strlen k.bytes) 0 ++ k.bytes.take (strlen k.bytes))
  ({ c with pc := pc, msg := msg },
   [.body (msg.read 0 (u16 (sizeofRequest + u16 (strlen k.bytes)))), .header c.header])

/-- `SendSync` and `SendClose` up to their loop: a bare header. -/
def sendBare (c : Client) (op : Operation) (pc : ClientPc) : Client × List ToClerk :=
  let msg := c.msg.write 0 (Request.header op 0 0)
  ({ c with pc := pc, msg := msg }, [.body (msg.read 0 sizeofRequest), .header c.header])

def sendGet (c : Client) (k : Key) : Client × List ToClerk := c.sendKey .get k (.getWait k)

def sendDelete (c : Client) (k : Key) : Client × List ToClerk :=
  c.sendKey .delete k (.deleteWait k)

def sendSync (c : Client) : Client × List ToClerk := c.sendBare .sync .syncWait

def sendClose (c : Client) : Client × List ToClerk := c.sendBare .close .closeWait

/-- Enter a call. -/
def call (c : Client) : Call → Client × List ToClerk
  | .write r => c.sendWrite r
  | .get k => c.sendGet k
  | .sync => c.sendSync
  | .delete k => c.sendDelete k
  | .close => c.sendClose

/-- Leave the loop on `*header_ != CLERK_DONE` and return from the call. -/
def finish (c : Client) (q : Call) : Option Client :=
  if c.header = clerkDone then
    some { c with pc := .idle, header := clientDone, history := c.history ++ [(q, q.ret c.msg)] }
  else none

/-- Leave the loop the client is in, if its condition allows. -/
def resume (c : Client) : Option (Client × List ToClerk) :=
  match c.pc with
  | .idle => none
  | .nopWait r =>
      if c.header = clerkDone then
        some ({ c with pc := .rewindWait r, header := clientDone }, [])
      else none
  | .rewindWait r =>
      if c.bufHead ≤ c.bufTail then none
      else some (c.rewind.postRecord r)
  | .spaceWait r =>
      if c.bufHead < c.bufTail ∧ c.bufHead + totalLen r ≥ c.bufTail then none
      else some (c.postRecord r)
  | .writeWait r pos =>
      (c.finish (.write r)).map fun c => ({ c with acks := c.acks ++ [(r, pos)] }, [])
  | .getWait k => (c.finish (.get k)).map fun c => (c, [])
  | .syncWait => (c.finish .sync).map fun c => (c, [])
  | .deleteWait k => (c.finish (.delete k)).map fun c => (c, [])
  | .closeWait => some ({ c with pc := .closed }, [.send])
  | .closed => none

end Client

/-- The call a request in flight belongs to; a `NOP` belongs to none. -/
def ClientPc.call : ClientPc → Option Call
  | .writeWait r _ => some (.write r)
  | .getWait k => some (.get k)
  | .syncWait => some .sync
  | .deleteWait k => some (.delete k)
  | _ => none

/-! ## The clerk -/

namespace Clerk

/-- Write a reply over the request. -/
def reply (k : Clerk) (status : RequestStatus) (valSize : Nat) (value : Bytes) : Clerk :=
  { k with msg := k.msg.write 0 (Reply.encode status valSize value) }

/-- Take a record into the batch and into `im_index_` (lines 246–253). -/
def append (k : Clerk) (sh : Shared) (tag : List Stored) : Clerk × Shared :=
  let key := Request.key k.msg
  let idx : DBIndex :=
    ⟨.file 0 (k.batchLength + sizeofRequest), Request.keySize k.msg, Request.valSize k.msg⟩
  let memIdx : DBIndex :=
    ⟨.mem (k.writeBuf + k.bufTail + k.batchLength + sizeofRequest), Request.keySize k.msg,
      Request.valSize k.msg⟩
  ({ k with
      keyBatch := k.keyBatch ++ [key]
      indexBatch := k.indexBatch ++ [idx]
      batchLength := k.batchLength + Request.length k.msg
      openRecs := k.openRecs ++ tag
      placed := k.placed ++ tag },
   { sh with
      index := Function.update sh.index key (some memIdx)
      muts := sh.muts ++ tag.map fun w => (w.record.key, some w.record.val) })

/-- Whether a flush moves `buf_tail_` back to the start of the ring (line 270). -/
def Rewinds (k : Clerk) : Prop :=
  k.batchLength < batchSize ∨ k.bufTail + k.batchLength = maxAsyncSize

instance (k : Clerk) : Decidable k.Rewinds := inferInstanceAs (Decidable (_ ∨ _))

/-- `buf_tail_` after a flush (lines 269–271). -/
def nextTail (k : Clerk) : Nat :=
  if k.Rewinds then ringHeader else k.bufTail + k.batchLength

/-- Advance `buf_tail_` and hand the copied batch to `persist_func`. -/
def spawn (k : Clerk) (tmpBuf : Bytes) : Clerk :=
  { k with
    bufTail := k.nextTail
    threads := k.threads ++
      [{ buffer := tmpBuf, tail := k.nextTail, stage := .pending
         start := k.bufTail, lap := k.lap, recs := k.openRecs }]
    lap := if k.Rewinds then k.lap + 1 else k.lap
    openRecs := [] }

/-- The `COPY2DRAM` copy of the open batch. -/
def tmpBuf (k : Clerk) (sh : Shared) : Bytes :=
  sh.mem.read (k.writeBuf + k.bufTail) k.batchLength

/-- Flush the batch (lines 257–283). -/
def flush (k : Clerk) (sh : Shared) : Clerk × Shared :=
  ({ k.spawn (k.tmpBuf sh) with keyBatch := [], indexBatch := [], batchLength := 0 },
   { sh with
      db := sh.db.putBatch k.keyBatch k.indexBatch (k.tmpBuf sh)
      index := eraseAll sh.index k.keyBatch })

/-- The `NOP`, `UPDATE` and `PUT` labels (lines 243–289). -/
def write (k : Clerk) (sh : Shared) (op : Operation) (tag : List Stored) : Clerk × Shared :=
  let (k, sh) := if op = .nop then (k, sh) else k.append sh tag
  let (k, sh) :=
    if k.batchLength ≥ batchSize ∨ k.bufTail + k.batchLength = maxAsyncSize ∨ op = .nop then
      k.flush sh
    else (k, sh)
  (k.reply .ok 0 [], sh)

/-- The `GET` label (lines 290–307). -/
def get (k : Clerk) (sh : Shared) : Clerk :=
  match sh.index (Request.key k.msg) with
  | some i =>
      k.reply .ok i.valueSize (sh.mem.read (i.memaddr + Request.keySize k.msg) i.valueSize)
  | none =>
      match sh.db (Request.key k.msg) with
      | some v => k.reply .ok v.length (v.take (v.length % 2 ^ 32))
      | none => k.reply .notFound 0 []

/-- The `DELETE` label (lines 312–322). -/
def delete (k : Clerk) (sh : Shared) : Clerk × Shared :=
  let key := Request.key k.msg
  let (found, db) := sh.db.delete key
  (k.reply (if found then .ok else .notFound) 0 [],
   { sh with db := db, muts := sh.muts ++ [(key, none)] })

/-- The `CLOSE` label up to the call of `persist_func` (lines 323–338). -/
def close (k : Clerk) (sh : Shared) : Clerk × Shared :=
  if k.batchLength > 0 then
    ({ k.spawn (k.tmpBuf sh) with pc := .closing (some k.threads.length) },
     { sh with db := sh.db.putBatch k.keyBatch k.indexBatch (k.tmpBuf sh) })
  else ({ k with pc := .closing none }, sh)

/-- One turn of the loop of `Run` once `CLIENT_DONE` is there (lines 236–351).
`SYNC` only reaches `DBType::SetSync` and leaves the reply as it finds it. -/
def serve (k : Clerk) (sh : Shared) (tag : List Stored) : Clerk × Shared :=
  let k := { k with header := clerkDone }
  match Request.op k.msg with
  | some .nop => k.write sh .nop tag
  | some .update => k.write sh .update tag
  | some .put => k.write sh .put tag
  | some .get => (k.get sh, sh)
  | some .sync => (k, sh)
  | some .delete => k.delete sh
  | some .close => k.close sh
  | none => ({ k with pc := .exited }, sh)

/-- The synchronous `persist_func` of `CLOSE` has returned. -/
def syncDone (k : Clerk) : Option Nat → Bool
  | none => true
  | some i => (k.threads[i]?.map (·.stage)) == some .done

/-- Move a persist thread to a stage. -/
def setStage (k : Clerk) (i : Nat) (st : Stage) : Clerk :=
  { k with threads := k.threads.modify i fun t => { t with stage := st } }

end Clerk

/-! ## Steps of a connection -/

/-- Who moves. -/
inductive Label
  | call (q : Call)
  | client
  | toClerk
  | toClient
  | serve
  | callback
  | persist (i : Nat)
  | post (i : Nat)

namespace Conn

/-- The history entry of the write the clerk is about to take. -/
def tag (c : Conn) : List Stored :=
  match c.client.pc with
  | .writeWait r pos => [⟨c.clerk.placed.length, r, pos⟩]
  | _ => []

/-- Deliver an RDMA write at the clerk. -/
def landClerk (c : Conn) (sh : Shared) : ToClerk → Conn × Shared
  | .body bs => ({ c with clerk := { c.clerk with msg := c.clerk.msg.write 0 bs } }, sh)
  | .ring off bs => (c, { sh with mem := sh.mem.write (c.clerk.writeBuf + off) bs })
  | .header w => ({ c with clerk := { c.clerk with header := w } }, sh)
  | .send => ({ c with clerk := { c.clerk with received := true } }, sh)

/-- Deliver an RDMA write at the client. The completion of a tail word is what
`persist_func` polls for before it releases `mu_`. -/
def landClient (c : Conn) : ToClient → Conn
  | .body bs => { c with client := { c.client with msg := c.client.msg.write 0 bs } }
  | .header w => { c with client := { c.client with header := w } }
  | .tail w i =>
      { c with
        client := { c.client with bufTail := w }
        clerk := { c.clerk.setStage i .done with mu := false } }

/-- The clerk takes a request and, unless it was `CLOSE`, posts the reply and
the flag (lines 354–358). -/
def serve (c : Conn) (sh : Shared) : Conn × Shared :=
  let (k, sh) := c.clerk.serve sh c.tag
  if k.pc = .running then
    ({ c with
        clerk := { k with
          served := k.served ++ c.client.pc.call.toList.map fun q => (q, q.ret k.msg) }
        toClient := c.toClient ++ [.body (Reply.wire k.msg), .header k.header] }, sh)
  else ({ c with clerk := k }, sh)

/-- One step. `client` waits for the completion of what the client posted
(`poll_one_completion`) before it looks at its loop's condition. `persist` and `post`
do not ask whether `Run` has returned: a detached thread holds a reference to `clk`,
which `Run` destroys, and what the thread then does through it is undefined in the
code. Here it does what it would do with the clerk still there. -/
def step (c : Conn) (sh : Shared) : Label → Option (Conn × Shared)
  | .call q =>
      match c.client.pc with
      | .idle =>
          let (cl, out) := c.client.call q
          some ({ c with client := cl, toClerk := c.toClerk ++ out }, sh)
      | _ => none
  | .client =>
      match c.toClerk with
      | [] => c.client.resume.map fun (cl, out) => ({ c with client := cl, toClerk := out }, sh)
      | _ :: _ => none
  | .toClerk =>
      match c.toClerk with
      | [] => none
      | w :: ws => some ({ c with toClerk := ws }.landClerk sh w)
  | .toClient =>
      match c.toClient with
      | [] => none
      | w :: ws => some ({ c with toClient := ws }.landClient w, sh)
  | .serve =>
      if c.clerk.pc = .running ∧ c.clerk.header = clientDone then some (c.serve sh) else none
  | .callback =>
      match c.clerk.pc with
      | .closing sync =>
          if c.clerk.syncDone sync ∧ c.clerk.received then
            some ({ c with clerk := { c.clerk with pc := .closed } }, sh)
          else none
      | _ => none
  | .persist i =>
      match c.clerk.threads[i]? with
      | none => none
      | some t =>
          if t.stage = .pending ∧ c.clerk.mu = false then
            some ({ c with
              clerk := { c.clerk.setStage i .logged with
                mu := true, logged := c.clerk.logged ++ t.recs } },
              { sh with log := sh.log ++ t.buffer })
          else none
  | .post i =>
      match c.clerk.threads[i]? with
      | none => none
      | some t =>
          if t.stage = .logged then
            some ({ c with
              clerk := c.clerk.setStage i .posted
              toClient := c.toClient ++ [.tail t.tail i] }, sh)
          else none

end Conn

/-! ## What a step does -/

namespace Conn

variable {c c' : Conn} {sh sh' : Shared} {i : Nat}

/-- Entering a call. -/
theorem call_step {q : Call} (h : c.step sh (.call q) = some (c', sh')) :
    c.client.pc = .idle ∧ sh' = sh ∧ c' = { c with
      client := (c.client.call q).1, toClerk := c.toClerk ++ (c.client.call q).2 } := by
  simp only [step] at h
  split at h
  · rename_i hidle
    cases h
    exact ⟨hidle, rfl, rfl⟩
  · cases h

/-- A delivery at the clerk. -/
theorem toClerk_step (h : c.step sh .toClerk = some (c', sh')) :
    ∃ w ws, c.toClerk = w :: ws ∧ c' = ({ c with toClerk := ws }.landClerk sh w).1 ∧
      sh' = ({ c with toClerk := ws }.landClerk sh w).2 := by
  unfold step at h
  generalize hq : c.toClerk = q at h
  rcases q with _ | ⟨w, ws⟩
  · cases h
  · have h := Option.some.inj h
    exact ⟨w, ws, rfl, by rw [h], by rw [h]⟩

/-- A delivery at the client. -/
theorem toClient_step (h : c.step sh .toClient = some (c', sh')) :
    ∃ w ws, c.toClient = w :: ws ∧ c' = { c with toClient := ws }.landClient w ∧ sh' = sh := by
  unfold step at h
  generalize hq : c.toClient = q at h
  rcases q with _ | ⟨w, ws⟩
  · cases h
  · have h := Option.some.inj h
    exact ⟨w, ws, rfl, (congrArg Prod.fst h).symm, (congrArg Prod.snd h).symm⟩

/-- A turn of the clerk's loop. -/
theorem serve_step {s' : Conn × Shared} (h : c.step sh .serve = some s') :
    c.clerk.pc = .running ∧ c.clerk.header = clientDone ∧ s' = c.serve sh := by
  simp only [step] at h
  split at h
  · rename_i hg
    exact ⟨hg.1, hg.2, (Option.some.inj h).symm⟩
  · cases h

/-- The callback waits for the synchronous thread and for the client's last send. -/
theorem callback_step (h : c.step sh .callback = some (c', sh')) :
    ∃ sync, c.clerk.pc = .closing sync ∧ (c.clerk.syncDone sync ∧ c.clerk.received) ∧
      sh' = sh ∧ c' = { c with clerk := { c.clerk with pc := .closed } } := by
  simp only [step] at h
  split at h
  · rename_i sync hpc
    split at h
    · rename_i hg
      cases h
      exact ⟨sync, hpc, hg, rfl, rfl⟩
    · cases h
  · cases h

/-- A persist thread appends its batch. -/
theorem persist_step (h : c.step sh (.persist i) = some (c', sh')) :
    ∃ t, c.clerk.threads[i]? = some t ∧ t.stage = .pending ∧ c.clerk.mu = false ∧
      c' = { c with clerk := { c.clerk.setStage i .logged with
        mu := true, logged := c.clerk.logged ++ t.recs } } ∧
      sh' = { sh with log := sh.log ++ t.buffer } := by
  simp only [step] at h
  split at h
  · cases h
  · rename_i t ht
    split at h
    · rename_i hg
      cases h
      exact ⟨t, ht, hg.1, hg.2, rfl, rfl⟩
    · cases h

/-- A persist thread posts its tail word. -/
theorem post_step (h : c.step sh (.post i) = some (c', sh')) :
    ∃ t, c.clerk.threads[i]? = some t ∧ t.stage = .logged ∧ sh' = sh ∧
      c' = { c with
        clerk := c.clerk.setStage i .posted, toClient := c.toClient ++ [.tail t.tail i] } := by
  simp only [step] at h
  split at h
  · cases h
  · rename_i t ht
    split at h
    · rename_i hg
      cases h
      exact ⟨t, ht, hg, rfl, rfl⟩
    · cases h

end Conn

/-! ## The system of one connection -/

/-- A fresh server side: nothing indexed or logged, any store whose values fit
the 32-bit size field of a reply. -/
structure Shared.Fresh (sh : Shared) : Prop where
  index : sh.index = fun _ => none
  log : sh.log = []
  muts : sh.muts = []
  small : ∀ k v, sh.db k = some v → v.length < 2 ^ 32

/-- One client, one clerk. The flag word the clerk starts from is whatever the
allocation holds, but not `CLIENT_DONE`. -/
def system : TSys (Conn × Shared) Label where
  init s := s.2.Fresh ∧ ∃ writeBuf flag m m', flag ≠ clientDone ∧
    s.1 = Conn.fresh writeBuf flag m m'
  step s l := s.1.step s.2 l

end LogDirect.Hybrid
