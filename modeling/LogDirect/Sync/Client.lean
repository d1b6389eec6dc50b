import LogDirect.Core.Link
import LogDirect.Lib.Exchange

/-!
# Clients that wait for the store

`SyncClient`, `GroupClient` and `PMemClient` (`frontend/sync`, `group`, `pmem`).
Every call writes its request into `local_buf_`, posts it and waits for the
reply. `SendPut` and `SendUpdate` are `SendWrite`; with persistent memory
`SendWrite` also posts the record to the clerk's write buffer.
-/

namespace LogDirect.Sync

open Lib Exchange

/-! ## Requests -/

/-- The arguments and calls of a `SyncClient`, a `GroupClient` or a `PMemClient`. -/
abbrev Record := LogDirect.Record .whole

@[inherit_doc Record]
abbrev Key := LogDirect.Key .whole

@[inherit_doc Record]
abbrev Call := LogDirect.Call .whole

/-- The size of the write buffer in persistent memory (`flags.h`). -/
def bufsize : Nat := 1024 * 1024 * 1024

/-- The request in `local_buf_[RING_HEADER:]`. -/
def prepare (m : Mem) : Call → Mem
  | .write r => m.write 0
      (Request.header r.op (keyLen r) (valLen r) ++ r.key.take (keyLen r) ++ r.val.take (valLen r))
  | .get k => m.write 0 (Request.header .get (strlen k.bytes) 0 ++ k.bytes.take (strlen k.bytes))
  | .sync => m.write 0 (Request.header .sync 0 0)
  | .delete k =>
      m.write 0 (Request.header .delete (strlen k.bytes) 0 ++ k.bytes.take (strlen k.bytes))
  | .close => m.write 0 (Request.header .close 0 0)

/-- How much of it is posted. -/
def bodyLen : Call → Nat
  | .write r => totalLen r
  | .get k => u16 (sizeofRequest + u16 (strlen k.bytes))
  | .sync => sizeofRequest
  | .delete k => u16 (sizeofRequest + u16 (strlen k.bytes))
  | .close => sizeofRequest

/-- The bytes of a request. -/
def body : Call → Bytes
  | .write r => r.encode
  | .get k => Request.header .get k.bytes.length 0 ++ k.bytes
  | .sync => Request.header .sync 0 0
  | .delete k => Request.header .delete k.bytes.length 0 ++ k.bytes
  | .close => Request.header .close 0 0

theorem read_prepare_key (m : Mem) (op : Operation) (k : Key) :
    (m.write 0 (Request.header op (strlen k.bytes) 0 ++ k.bytes.take (strlen k.bytes))).read 0
      (u16 (sizeofRequest + u16 (strlen k.bytes))) =
    Request.header op k.bytes.length 0 ++ k.bytes := by
  have hlt := k.length_lt
  have hlen : u16 k.bytes.length = k.bytes.length := u16_eq (by omega)
  rw [k.strlen_eq, List.take_length, hlen, u16_eq hlt]
  exact Mem.read_write_eq _ _ _ (by simp)

/-- A request is posted whole. -/
theorem read_prepare (m : Mem) (q : Call) : (prepare m q).read 0 (bodyLen q) = body q := by
  cases q with
  | write r =>
    have hbytes : Request.header r.op (keyLen r) (valLen r) ++ r.key.take (keyLen r) ++
        r.val.take (valLen r) = r.encode := by
      simp [Record.encode, Record.metaPart]
    rw [prepare, hbytes, bodyLen, totalLen_eq]
    exact Mem.read_write_eq _ _ _ (by simp)
  | get k => exact read_prepare_key m .get k
  | sync => exact Mem.read_write_eq _ _ _ (by simp [bodyLen])
  | delete k => exact read_prepare_key m .delete k
  | close => exact Mem.read_write_eq _ _ _ (by simp [bodyLen])

/-- Write the request, post it, post the record to the ring if there is one, post the flag. -/
def post (k : Link) (q : Call) (ring : Option Nat) : Link :=
  { k with
    client := { k.client with msg := prepare k.client.msg q }
    toClerk := k.toClerk ++ .body ((prepare k.client.msg q).read 0 (bodyLen q)) ::
      ((ring.map fun off => (off, (prepare k.client.msg q).read 0 (bodyLen q))).toList.map
        Write.ofRecord ++ [.header k.client.header]) }

theorem rest_post {k : Link} (h : k.Rest) (q : Call) (ring : Option Nat) :
    (post k q ring).Asked ⟨body q, ring.map fun off => (off, body q)⟩ := by
  have hk := h.ask ⟨body q, ring.map fun off => (off, body q)⟩ (prepare k.client.msg q)
  unfold post
  rw [h.toClerk, read_prepare, h.client_flag]
  exact hk

/-! ## What the clerk sees -/

/-- A request as the clerk reads it. -/
structure Seen where
  op : Option Operation
  key : Bytes
  val : Bytes
  deriving DecidableEq

/-- The request in a message area. -/
def Seen.ofMem (m : Mem) : Seen :=
  ⟨Request.op m, Request.key m,
    m.read (sizeofRequest + Request.keySize m) (Request.valSize m)⟩

/-- The request of a call. -/
def Seen.ofCall : Call → Seen
  | .write r => ⟨some r.op, r.key, r.val⟩
  | .get k => ⟨some .get, k.bytes, []⟩
  | .sync => ⟨some .sync, [], []⟩
  | .delete k => ⟨some .delete, k.bytes, []⟩
  | .close => ⟨some .close, [], []⟩

/-- The key and the value of a request are read back. -/
theorem Seen.ofMem_eq {m : Mem} {op : Operation} (key val : Bytes)
    (h : m.read 0 (Request.header op key.length val.length ++ (key ++ val)).length =
      Request.header op key.length val.length ++ (key ++ val))
    (hkey : key.length < 2 ^ 24) (hval : val.length < 2 ^ 32) :
    Seen.ofMem m = ⟨some op, key, val⟩ := by
  rw [List.length_append, Request.length_header] at h
  obtain ⟨hop, hks, hvs, hrest⟩ := Request.fields_of_read (key ++ val) h hkey hval
  rw [List.length_append] at hrest
  have hk := Mem.read_left key val hrest
  have hv := Mem.read_right key val hrest
  rw [ofMem, hop, hvs, Request.key, hks, hk, hv]

theorem Seen.ofMem_body {m : Mem} {q : Call} (h : m.read 0 (body q).length = body q) :
    Seen.ofMem m = Seen.ofCall q := by
  have hsmall : ∀ k : Key, k.bytes.length < 2 ^ 24 := by
    intro k
    have := k.length_lt
    omega
  cases q with
  | write r =>
    have henc : r.encode = Request.header r.op r.key.length r.val.length ++ (r.key ++ r.val) := by
      simp [Record.encode, Record.metaPart]
    have hk := r.key_lt
    have hv := r.val_lt
    rw [body, henc] at h
    exact ofMem_eq _ _ h (by omega) (by omega)
  | get k => exact ofMem_eq k.bytes [] (by simpa [body] using h) (hsmall k) (by decide)
  | sync => exact ofMem_eq [] [] (by simpa [body] using h) (by decide) (by decide)
  | delete k => exact ofMem_eq k.bytes [] (by simpa [body] using h) (hsmall k) (by decide)
  | close => exact ofMem_eq [] [] (by simpa [body] using h) (by decide) (by decide)

/-! ## The client -/

/-- Where the client stands. -/
inductive ClientPc
  | idle
  | waiting (q : Call)
  | closing
  | closed

/-- `SyncClient`, `GroupClient`, `PMemClient`; only the last has `buf_head_`. -/
structure Client where
  pc : ClientPc
  bufHead : Nat
  -- history: calls returned
  history : List (Call × Ret)

/-- The loop a call waits in; `SendClose` waits for completions only. -/
def ClientPc.ofCall : Call → ClientPc
  | .close => .closing
  | .write r => .waiting (.write r)
  | .get k => .waiting (.get k)
  | .sync => .waiting .sync
  | .delete k => .waiting (.delete k)

/-- A `Send*` function up to its loop. -/
abbrev Send := Client → Link → Call → Client × Link

/-- `SyncClient`: `SendWrite`, `SendGet`, `SendSync`, `SendDelete`, `SendClose`. -/
def SyncClient.send : Send := fun c k q => ({ c with pc := .ofCall q }, post k q none)

/-- `GroupClient`, the same functions. -/
def GroupClient.send : Send := fun c k q => ({ c with pc := .ofCall q }, post k q none)

/-- `PMemClient`; `SendWrite` starts over when the record would reach the end of the buffer. -/
def PMemClient.send : Send := fun c k q =>
  match q with
  | .write r =>
      let head := if c.bufHead + totalLen r ≥ bufsize then 0 else c.bufHead
      ({ c with pc := .ofCall q, bufHead := head + totalLen r }, post k q (some head))
  | _ => ({ c with pc := .ofCall q }, post k q none)

/-- Once what was posted is complete: leave the loop on `CLERK_DONE` and return, or send
the last message and close. -/
def Client.resume (c : Client) (k : Link) : Option (Client × Link) :=
  match k.toClerk, c.pc with
  | [], .waiting q =>
      if k.client.header = clerkDone then
        some ({ c with pc := .idle, history := c.history ++ [(q, q.ret k.client.msg)] }, k.read)
      else none
  | [], .closing => some ({ c with pc := .closed }, k)
  | _, _ => none

end LogDirect.Sync
