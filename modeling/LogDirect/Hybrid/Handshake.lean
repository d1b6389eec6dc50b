import LogDirect.Hybrid.Batch

/-!
# The request/reply handshake

A connection is always in one of five phases, told apart by which end holds the
flag word:

* `Quiet` — nothing in flight; the client is idle or waits for ring space;
* `Requested` — the client has posted a request, a prefix of which has landed;
  the flag is the last write, so the clerk sees it only after all the others;
* `Replied` — the clerk has answered, and a prefix of the reply has landed;
* `Leaving`, `Closing` — `CLOSE` is waiting for the clerk, or has been taken.

In each phase the two ends agree on the ring position of the next record
(`HeadsBefore`, `HeadsAfter`) and on the calls answered so far (`Settled`,
`Owing`). The lemmas here move a connection from phase to phase by the steps of
the client and of the network; what one turn of the clerk does to a request that
has arrived is in `Serve`.
-/

namespace LogDirect.Hybrid

open Lib

/-! ## What is in flight -/

/-- A write of the clerk's own replies, as opposed to a tail word. -/
def ToClient.isReply : ToClient → Bool
  | .tail _ _ => false
  | _ => true

/-- What the client posts for the request it waits on. -/
inductive Posted : ClientPc → List ToClerk → Prop
  | nop {r : Record} {rest : Bytes} : rest.length = 7 →
      Posted (.nopWait r) [.body (leBytes 1 Operation.nop.code ++ rest), .header clientDone]
  | write {r : Record} {pos : Nat} :
      Posted (.writeWait r pos) [.body r.metaPart, .ring pos r.encode, .header clientDone]
  | get {k : Key} :
      Posted (.getWait k)
        [.body (Request.header .get k.bytes.length 0 ++ k.bytes), .header clientDone]
  | sync : Posted .syncWait [.body (Request.header .sync 0 0), .header clientDone]
  | delete {k : Key} :
      Posted (.deleteWait k)
        [.body (Request.header .delete k.bytes.length 0 ++ k.bytes), .header clientDone]
  | close : Posted .closeWait [.body (Request.header .close 0 0), .header clientDone]

/-- The position a request in flight writes a record to. -/
def ClientPc.ack : ClientPc → List (Record × Nat)
  | .writeWait r pos => [(r, pos)]
  | _ => []

/-- The states in which the client waits for a reply. -/
def ClientPc.Awaits : ClientPc → Prop
  | .nopWait _ | .writeWait _ _ | .getWait _ | .syncWait | .deleteWait _ => True
  | _ => False

variable {pc : ClientPc} {l : List ToClerk}

/-- The client has posted a request: it waits for a reply, or closes. -/
theorem Posted.awaits (h : Posted pc l) : pc.Awaits ∨ pc = .closeWait := by
  cases h with
  | close => exact .inr rfl
  | _ => exact .inl trivial

namespace Conn

/-- The replies among the writes in flight to the client. -/
def replies (c : Conn) : List ToClient := c.toClient.filter ToClient.isReply

/-- The ring position behind the last record the clerk has taken. -/
def clerkHead (c : Conn) : Nat := c.clerk.bufTail + c.clerk.batchLength

/-- A write from the client has taken effect. -/
def Landed (c : Conn) (m : Mem) : ToClerk → Prop
  | .body bs => c.clerk.msg.read 0 bs.length = bs
  | .ring off bs => m.read (c.clerk.writeBuf + off) bs.length = bs
  | .header w => c.clerk.header = w
  | .send => c.clerk.received = true

/-- A write from the clerk has taken effect. -/
def LandedClient (c : Conn) : ToClient → Prop
  | .body bs => c.client.msg.read 0 bs.length = bs
  | .header w => c.client.header = w
  | .tail _ _ => True

/-- The client has rewound the ring, or is about to: the clerk is already at
the start of the next lap. -/
def Rewinding (c : Conn) (r : Record) : Prop :=
  c.clerk.bufTail = ringHeader ∧ c.clerk.batchLength = 0 ∧
    c.client.bufHead < maxAsyncSize ∧ maxAsyncSize ≤ c.client.bufHead + r.length ∧
    c.clerk.lap = c.client.lap + 1

/-- Agreement on ring positions while no answer is pending. -/
def HeadsBefore (c : Conn) : Prop :=
  match c.client.pc with
  | .spaceWait r =>
      c.client.bufHead = c.clerkHead ∧ c.clerk.lap = c.client.lap ∧
        c.client.bufHead + r.length < maxAsyncSize
  | .nopWait r =>
      c.client.bufHead = c.clerkHead ∧ c.clerk.lap = c.client.lap ∧
        maxAsyncSize ≤ c.client.bufHead + r.length
  | .rewindWait r => c.Rewinding r
  | .writeWait r pos =>
      pos = c.clerkHead ∧ c.clerk.lap = c.client.lap ∧
        c.client.bufHead = pos + r.length ∧ c.client.bufHead < maxAsyncSize
  | _ => c.client.bufHead = c.clerkHead ∧ c.clerk.lap = c.client.lap

/-- Agreement on ring positions once the clerk has answered. -/
def HeadsAfter (c : Conn) : Prop :=
  match c.client.pc with
  | .nopWait r => c.Rewinding r
  | _ => c.client.bufHead = c.clerkHead ∧ c.clerk.lap = c.client.lap

/-- Every answer has been returned, every record taken is acknowledged. -/
def Settled (c : Conn) : Prop :=
  c.clerk.served = c.client.history ∧ c.clerk.placed.map Stored.ack = c.client.acks

/-- The answer to the request in flight has not been returned yet. -/
def Owing (c : Conn) : Prop :=
  c.clerk.served =
      c.client.history ++ c.client.pc.call.toList.map (fun q => (q, q.ret c.clerk.msg)) ∧
    c.clerk.placed.map Stored.ack = c.client.acks ++ c.client.pc.ack

/-! ## Phases -/

/-- Nothing in flight. -/
structure Quiet (c : Conn) : Prop where
  at_rest : c.client.pc = .idle ∨ (∃ r, c.client.pc = .spaceWait r) ∨
    ∃ r, c.client.pc = .rewindWait r
  toClerk : c.toClerk = []
  replies : c.replies = []
  client_flag : c.client.header = clientDone
  clerk_flag : c.clerk.header ≠ clientDone
  running : c.clerk.pc = .running
  heads : c.HeadsBefore
  books : c.Settled

/-- A request is on its way, or waits for the clerk. -/
structure Requested (c : Conn) (m : Mem) (landed : List ToClerk) : Prop where
  posted : Posted c.client.pc (landed ++ c.toClerk)
  landed : ∀ w ∈ landed, c.Landed m w
  clerk_flag : c.toClerk ≠ [] → c.clerk.header ≠ clientDone
  replies : c.replies = []
  client_flag : c.client.header = clientDone
  running : c.clerk.pc = .running
  heads : c.HeadsBefore
  books : c.Settled

/-- The answer is on its way, or waits for the client. -/
structure Replied (c : Conn) (landed : List ToClient) : Prop where
  awaits : c.client.pc.Awaits
  posted : landed ++ c.replies = [.body (Reply.wire c.clerk.msg), .header clerkDone]
  landed : ∀ w ∈ landed, c.LandedClient w
  client_flag : c.replies ≠ [] → c.client.header = clientDone
  toClerk : c.toClerk = []
  clerk_flag : c.clerk.header = clerkDone
  running : c.clerk.pc = .running
  heads : c.HeadsAfter
  books : c.Owing

/-- `SendClose` has returned, the clerk has not taken the request. -/
structure Leaving (c : Conn) : Prop where
  closed : c.client.pc = .closed
  toClerk : c.toClerk = [] ∨ c.toClerk = [.send]
  replies : c.replies = []
  clerk_flag : c.clerk.header = clientDone
  request : Request.op c.clerk.msg = some .close
  running : c.clerk.pc = .running
  heads : c.HeadsBefore
  books : c.Settled

/-- The clerk has taken `CLOSE`. -/
structure Closing (c : Conn) : Prop where
  client : c.client.pc = .closeWait ∨ c.client.pc = .closed
  toClerk : c.toClerk = [] ∨ c.toClerk = [.send]
  replies : c.replies = []
  clerk : (∃ sync, c.clerk.pc = .closing sync) ∨ c.clerk.pc = .closed
  emptied : c.clerk.openRecs = []
  books : c.Settled

/-- The phases. -/
def Phase (c : Conn) (m : Mem) : Prop :=
  c.Quiet ∨ (∃ l, c.Requested m l) ∨ (∃ l, c.Replied l) ∨ c.Leaving ∨ c.Closing

variable {c : Conn} {m : Mem}

/-- A client that has nothing posted is in a quiet connection. -/
theorem Phase.waiting (hph : c.Phase m) (hw : ¬ c.client.pc.Awaits) (hc : c.client.pc ≠ .closeWait)
    (hc' : c.client.pc ≠ .closed) : c.Quiet := by
  rcases hph with hq | ⟨l, hr⟩ | ⟨l, hr⟩ | hl | hcl
  · exact hq
  · rcases hr.posted.awaits with h' | h'
    · exact absurd h' hw
    · exact absurd h' hc
  · exact absurd hr.awaits hw
  · exact absurd hl.closed hc'
  · rcases hcl.client with h' | h'
    · exact absurd h' hc
    · exact absurd h' hc'

/-- The client's idle states are quiet. -/
theorem Phase.quiet (hph : c.Phase m) (hidle : c.client.pc = .idle) : c.Quiet :=
  hph.waiting (by simp [hidle, ClientPc.Awaits]) (by simp [hidle]) (by simp [hidle])

/-- The client's acknowledged records are the first ones the clerk has taken. -/
theorem Phase.acks (hph : c.Phase m) :
    ∃ rest, c.clerk.placed.map Stored.ack = c.client.acks ++ rest := by
  rcases hph with hq | ⟨l, hr⟩ | ⟨l, hr⟩ | hl | hc
  · exact ⟨[], by rw [hq.books.2, List.append_nil]⟩
  · exact ⟨[], by rw [hr.books.2, List.append_nil]⟩
  · exact ⟨_, hr.books.2⟩
  · exact ⟨[], by rw [hl.books.2, List.append_nil]⟩
  · exact ⟨[], by rw [hc.books.2, List.append_nil]⟩

/-- A clerk that has left its loop has taken `CLOSE`. -/
theorem Phase.closing (hph : c.Phase m) (h : c.clerk.pc ≠ .running) : c.Closing := by
  rcases hph with hq | ⟨l, hr⟩ | ⟨l, hr⟩ | hl | hc
  · exact absurd hq.running h
  · exact absurd hr.running h
  · exact absurd hr.running h
  · exact absurd hl.running h
  · exact hc

/-! ## Persist threads run in the background -/

/-- What the persist threads change of a connection: the threads, the mutex and
the log's history, the tail word, and tail words in flight. -/
def background (c : Conn) (tail : Nat) (threads : List Thread) (mu : Bool)
    (logged : List Stored) (toClient : List ToClient) : Conn :=
  { c with
    client := { c.client with bufTail := tail }
    clerk := { c.clerk with threads := threads, mu := mu, logged := logged }
    toClient := toClient }

/-- The handshake does not see them. -/
theorem Phase.background (h : c.Phase m) (tail : Nat) (threads : List Thread) (mu : Bool)
    (logged : List Stored) {out : List ToClient} (hout : out.filter ToClient.isReply = c.replies) :
    (c.background tail threads mu logged out).Phase m := by
  rcases h with h | ⟨l, h⟩ | ⟨l, h⟩ | h | h
  · exact .inl ⟨h.at_rest, h.toClerk, hout.trans h.replies, h.client_flag, h.clerk_flag,
      h.running, h.heads, h.books⟩
  · refine .inr (.inl ⟨l, h.posted, fun w hw => ?_, h.clerk_flag, hout.trans h.replies,
      h.client_flag, h.running, h.heads, h.books⟩)
    have hw := h.landed w hw
    cases w <;> exact hw
  · refine .inr (.inr (.inl ⟨l, h.awaits, ?_, fun w hw => ?_, ?_, h.toClerk, h.clerk_flag,
      h.running, h.heads, h.books⟩))
    · show l ++ out.filter ToClient.isReply = _
      rw [hout]
      exact h.posted
    · have hw := h.landed w hw
      cases w <;> exact hw
    · show out.filter ToClient.isReply ≠ [] → _
      rw [hout]
      exact h.client_flag
  · exact .inr (.inr (.inr (.inl ⟨h.closed, h.toClerk, hout.trans h.replies, h.clerk_flag,
      h.request, h.running, h.heads, h.books⟩)))
  · exact .inr (.inr (.inr (.inr ⟨h.client, h.toClerk, hout.trans h.replies, h.clerk,
      h.emptied, h.books⟩)))

end Conn

/-! ## The client posts -/

namespace Client

/-- `postRecord` posts the record's bytes. -/
theorem postRecord_posted (c : Client) (r : Record) (hflag : c.header = clientDone) :
    (c.postRecord r).2 =
      [.body r.metaPart, .ring c.bufHead r.encode, .header clientDone] := by
  have hbytes : Request.header r.op (keyLen r) (valLen r) ++ r.key.take (keyLen r) ++
      r.val.take (valLen r) = r.encode := by
    simp [Record.encode, Record.metaPart]
  have hall : (c.msg.write 0 r.encode).read 0 r.length = r.encode := by
    rw [← Record.length_encode]
    exact Mem.read_write _ _ _
  have hmeta : (c.msg.write 0 r.encode).read 0 r.metaPart.length = r.metaPart := by
    refine Mem.read_left _ r.val ?_
    rw [← List.length_append]
    exact Mem.read_write _ _ _
  unfold postRecord
  simp only [hbytes, metaLen_eq, totalLen_eq, hall, hmeta, hflag]

/-- `sendKey` posts the header and the key. -/
theorem sendKey_posted (c : Client) (op : Operation) (k : Key) (pc : ClientPc)
    (hflag : c.header = clientDone) :
    (c.sendKey op k pc).2 =
      [.body (Request.header op k.bytes.length 0 ++ k.bytes), .header clientDone] := by
  have hlen : u16 (sizeofRequest + u16 (strlen k.bytes)) =
      (Request.header op k.bytes.length 0 ++ k.bytes).length := by
    have h := k.length_lt
    have h' : u16 k.bytes.length = k.bytes.length := u16_eq (by omega)
    rw [k.strlen_eq, h', u16_eq h]
    simp
  unfold sendKey
  simp only [k.strlen_eq, List.take_length, hflag] at hlen ⊢
  rw [Mem.read_write_eq _ _ _ hlen]

/-- `sendBare` posts the header. -/
theorem sendBare_posted (c : Client) (op : Operation) (pc : ClientPc)
    (hflag : c.header = clientDone) :
    (c.sendBare op pc).2 = [.body (Request.header op 0 0), .header clientDone] := by
  unfold sendBare
  simp only [hflag]
  rw [Mem.read_write_eq _ _ _ (by simp)]

end Client

namespace Conn

/-- A call that posts a request starts the `Requested` phase. -/
theorem Quiet.requested {c : Conn} {m : Mem} (h : c.Quiet) {cl : Client} {out : List ToClerk}
    (hpost : Posted cl.pc out) (hflag : cl.header = clientDone)
    (hhist : cl.history = c.client.history) (hacks : cl.acks = c.client.acks)
    (hheads : { c with client := cl, toClerk := out }.HeadsBefore) :
    { c with client := cl, toClerk := out }.Requested m [] := by
  refine ⟨hpost, by simp, fun _ => h.clerk_flag, h.replies, hflag, h.running, hheads, ?_⟩
  have hb := h.books
  unfold Settled at hb ⊢
  rw [← hhist, ← hacks] at hb
  exact hb

/-- Entering a call. -/
theorem call_phase {c c' : Conn} {sh sh' : Shared} {q : Call} (hph : c.Phase sh.mem)
    (h : c.step sh (.call q) = some (c', sh')) : c'.Phase sh'.mem := by
  obtain ⟨hidle, rfl, rfl⟩ := call_step h
  have hq := hph.quiet hidle
  have hheads := hq.heads
  simp only [HeadsBefore, hidle] at hheads
  rw [hq.toClerk, List.nil_append]
  cases q with
  | write r =>
    by_cases hfull : c.client.bufHead + totalLen r ≥ maxAsyncSize
    · have hsend : c.client.call (.write r) = ({ c.client with
          pc := .nopWait r, msg := c.client.msg.write 0 (leBytes 1 Operation.nop.code) },
          [.body ((c.client.msg.write 0 (leBytes 1 Operation.nop.code)).read 0 sizeofRequest),
            .header clientDone]) := by
        simp only [Client.call, Client.sendWrite, if_pos hfull, hq.client_flag]
      rw [hsend]
      refine .inr (.inl ⟨[], hq.requested ?_ hq.client_flag rfl rfl ?_⟩)
      · have hsplit : (c.client.msg.write 0 (leBytes 1 Operation.nop.code)).read 0 sizeofRequest =
            leBytes 1 Operation.nop.code ++
              (c.client.msg.write 0 (leBytes 1 Operation.nop.code)).read 1 7 := by
          show Mem.read _ 0 (1 + 7) = _
          rw [Mem.read_add]
          congr 1
        rw [hsplit]
        exact .nop (by simp)
      · rw [totalLen_eq] at hfull
        exact ⟨hheads.1, hheads.2, hfull⟩
    · have hsend : c.client.call (.write r) = ({ c.client with pc := .spaceWait r }, []) := by
        simp only [Client.call, Client.sendWrite, if_neg hfull]
      rw [hsend]
      rw [totalLen_eq] at hfull
      exact .inl ⟨.inr (.inl ⟨r, rfl⟩), rfl, hq.replies, hq.client_flag, hq.clerk_flag,
        hq.running, ⟨hheads.1, hheads.2, by simpa using hfull⟩, hq.books⟩
  | get k =>
    have hsend : (c.client.call (.get k)).2 = _ :=
      c.client.sendKey_posted .get k (.getWait k) hq.client_flag
    rw [hsend]
    exact .inr (.inl ⟨[], hq.requested .get hq.client_flag rfl rfl hheads⟩)
  | sync =>
    have hsend : (c.client.call .sync).2 = _ :=
      c.client.sendBare_posted .sync .syncWait hq.client_flag
    rw [hsend]
    exact .inr (.inl ⟨[], hq.requested .sync hq.client_flag rfl rfl hheads⟩)
  | delete k =>
    have hsend : (c.client.call (.delete k)).2 = _ :=
      c.client.sendKey_posted .delete k (.deleteWait k) hq.client_flag
    rw [hsend]
    exact .inr (.inl ⟨[], hq.requested .delete hq.client_flag rfl rfl hheads⟩)
  | close =>
    have hsend : (c.client.call .close).2 = _ :=
      c.client.sendBare_posted .close .closeWait hq.client_flag
    rw [hsend]
    exact .inr (.inl ⟨[], hq.requested .close hq.client_flag rfl rfl hheads⟩)

/-! ## The client leaves a loop -/

end Conn

/-- The client after it has returned from the call `q`. -/
def Client.returned (c : Client) (q : Call) : Client :=
  { c with
    pc := .idle
    header := clientDone
    history := c.history ++ [(q, q.ret c.msg)]
    acks := c.acks ++ c.pc.ack }

/-- The loops the client can leave, and what it posts then. -/
inductive Client.Resumes (c : Client) : Client → List ToClerk → Prop
  | nop {r : Record} (hpc : c.pc = .nopWait r) (hflag : c.header = clerkDone) :
      Resumes c { c with pc := .rewindWait r, header := clientDone } []
  | rewind {r : Record} (hpc : c.pc = .rewindWait r) (hguard : c.bufTail < c.bufHead) :
      Resumes c (c.rewind.postRecord r).1 (c.rewind.postRecord r).2
  | space {r : Record} (hpc : c.pc = .spaceWait r)
      (hguard : ¬ (c.bufHead < c.bufTail ∧ c.bufTail ≤ c.bufHead + r.length)) :
      Resumes c (c.postRecord r).1 (c.postRecord r).2
  | ret {q : Call} (hcall : c.pc.call = some q) (hflag : c.header = clerkDone) :
      Resumes c (c.returned q) []
  | close (hpc : c.pc = .closeWait) : Resumes c { c with pc := .closed } [.send]

/-- `finish` returns from the call the client waits on. -/
theorem Client.finish_eq {c cl : Client} {q : Call} (h : c.finish q = some cl) :
    c.header = clerkDone ∧ cl = { c with
      pc := .idle, header := clientDone, history := c.history ++ [(q, q.ret c.msg)] } := by
  unfold finish at h
  split at h
  · rename_i hflag
    exact ⟨hflag, (Option.some.inj h).symm⟩
  · cases h

theorem Client.resume_resumes {c cl : Client} {out : List ToClerk}
    (h : c.resume = some (cl, out)) : c.Resumes cl out := by
  unfold resume at h
  generalize hpc : c.pc = p at h
  cases p with
  | idle => cases h
  | nopWait r =>
    simp only at h
    split at h
    · rename_i hflag
      cases h
      exact .nop hpc hflag
    · cases h
  | rewindWait r =>
    simp only at h
    split at h
    · cases h
    · rename_i hguard
      have h := Option.some.inj h
      have hr := Resumes.rewind hpc (Nat.lt_of_not_le hguard)
      rwa [h] at hr
  | spaceWait r =>
    simp only at h
    split at h
    · cases h
    · rename_i hguard
      rw [totalLen_eq] at hguard
      have h := Option.some.inj h
      have hr := Resumes.space hpc hguard
      rwa [h] at hr
  | writeWait r pos =>
    simp only [Option.map_eq_some_iff, Prod.mk.injEq] at h
    obtain ⟨cl', hfin, rfl, rfl⟩ := h
    obtain ⟨hflag, rfl⟩ := finish_eq hfin
    have hr := Resumes.ret (q := .write r) (by rw [hpc]; rfl) hflag
    rwa [returned, hpc] at hr
  | getWait k =>
    simp only [Option.map_eq_some_iff, Prod.mk.injEq] at h
    obtain ⟨cl', hfin, rfl, rfl⟩ := h
    obtain ⟨hflag, rfl⟩ := finish_eq hfin
    have hr := Resumes.ret (q := .get k) (by rw [hpc]; rfl) hflag
    simpa only [returned, hpc, ClientPc.ack, List.append_nil] using hr
  | syncWait =>
    simp only [Option.map_eq_some_iff, Prod.mk.injEq] at h
    obtain ⟨cl', hfin, rfl, rfl⟩ := h
    obtain ⟨hflag, rfl⟩ := finish_eq hfin
    have hr := Resumes.ret (q := .sync) (by rw [hpc]; rfl) hflag
    simpa only [returned, hpc, ClientPc.ack, List.append_nil] using hr
  | deleteWait k =>
    simp only [Option.map_eq_some_iff, Prod.mk.injEq] at h
    obtain ⟨cl', hfin, rfl, rfl⟩ := h
    obtain ⟨hflag, rfl⟩ := finish_eq hfin
    have hr := Resumes.ret (q := .delete k) (by rw [hpc]; rfl) hflag
    simpa only [returned, hpc, ClientPc.ack, List.append_nil] using hr
  | closeWait =>
    cases h
    exact .close hpc
  | closed => cases h

/-- The client waits for an answer to the call. -/
theorem ClientPc.awaits_of_call {q : Call} (h : pc.call = some q) : pc.Awaits := by
  cases pc <;> trivial

namespace Conn

variable {c : Conn} {m : Mem}

/-- The client waits for the clerk's flag in every phase but `Replied`. -/
theorem Requested.not_finished {l : List ToClerk} (h : c.Requested m l) :
    c.client.header ≠ clerkDone := by
  rw [h.client_flag]
  exact clerkDone_ne_clientDone.symm

/-- Leaving the wait for space posts the record; the ring has room for it. -/
theorem spaceWait_requested {r : Record} (h : c.Quiet) (hpc : c.client.pc = .spaceWait r) :
    { c with client := (c.client.postRecord r).1
             toClerk := (c.client.postRecord r).2 }.Requested m [] := by
  have hheads := h.heads
  simp only [HeadsBefore, hpc] at hheads
  rw [c.client.postRecord_posted r h.client_flag]
  refine h.requested .write h.client_flag rfl rfl ⟨hheads.1, hheads.2.1, ?_, ?_⟩
  · show c.client.bufHead + totalLen r = c.client.bufHead + r.length
    rw [totalLen_eq]
  · show c.client.bufHead + totalLen r < maxAsyncSize
    rw [totalLen_eq]
    exact hheads.2.2

/-- Leaving the wait for the rewind posts the record at the start of the ring. -/
theorem rewindWait_requested {r : Record} (h : c.Quiet) (hpc : c.client.pc = .rewindWait r) :
    { c with client := (c.client.rewind.postRecord r).1
             toClerk := (c.client.rewind.postRecord r).2 }.Requested m [] := by
  have hheads := h.heads
  simp only [HeadsBefore, hpc] at hheads
  obtain ⟨htail, hlen, -, -, hlap⟩ := hheads
  rw [c.client.rewind.postRecord_posted r h.client_flag]
  refine h.requested .write h.client_flag rfl rfl ⟨?_, hlap, ?_, ?_⟩
  · show ringHeader = c.clerk.bufTail + c.clerk.batchLength
    rw [htail, hlen]
    rfl
  · show ringHeader + totalLen r = ringHeader + r.length
    rw [totalLen_eq]
  · show ringHeader + totalLen r < maxAsyncSize
    have := r.length_le
    rw [totalLen_eq]
    simp only [maxRequest, ringHeader, maxAsyncSize] at this ⊢
    omega

/-- The flag at a client that awaits an answer: the clerk has replied. -/
theorem Phase.replied (hph : c.Phase m) (hw : c.client.pc.Awaits)
    (hflag : c.client.header = clerkDone) : ∃ l, c.Replied l := by
  rcases hph with hq | ⟨l, hr⟩ | ⟨l, hr⟩ | hl | hc
  · rw [hq.client_flag] at hflag
    exact absurd hflag.symm clerkDone_ne_clientDone
  · exact absurd hflag hr.not_finished
  · exact ⟨l, hr⟩
  · rw [hl.closed] at hw
    exact hw.elim
  · rcases hc.client with h' | h' <;> rw [h'] at hw <;> exact hw.elim

/-- A reply that has wholly landed is the clerk's answer. -/
theorem Replied.answer {l : List ToClient} (h : c.Replied l) (hflag : c.client.header = clerkDone) :
    c.replies = [] ∧
      c.client.msg.read 0 (Reply.wire c.clerk.msg).length = Reply.wire c.clerk.msg := by
  have hnil : c.replies = [] := by
    by_contra hne
    rw [h.client_flag hne] at hflag
    exact clerkDone_ne_clientDone hflag.symm
  have hposted := h.posted
  rw [hnil, List.append_nil] at hposted
  exact ⟨hnil, h.landed (.body (Reply.wire c.clerk.msg)) (by simp [hposted])⟩

/-- Returning from a call settles the books. -/
theorem Replied.finish {l : List ToClient} (h : c.Replied l) {q : Call}
    (hcall : c.client.pc.call = some q) (hflag : c.client.header = clerkDone) :
    { c with client := c.client.returned q }.Quiet := by
  obtain ⟨hnil, hwire⟩ := h.answer hflag
  refine ⟨.inl rfl, h.toClerk, hnil, rfl, ?_, h.running, ?_, ?_⟩
  · show c.clerk.header ≠ clientDone
    rw [h.clerk_flag]
    exact clerkDone_ne_clientDone
  · have hheads := h.heads
    unfold HeadsAfter at hheads
    split at hheads
    · rename_i r hr
      rw [hr] at hcall
      cases hcall
    · exact hheads
  · obtain ⟨hserved, hplaced⟩ := h.books
    rw [hcall] at hserved
    refine ⟨?_, hplaced⟩
    show c.clerk.served = c.client.history ++ [(q, q.ret c.client.msg)]
    rw [hserved, q.ret_of_wire hwire]
    rfl

/-- What a step of the client does. -/
theorem client_step {c' : Conn} {sh sh' : Shared} (h : c.step sh .client = some (c', sh')) :
    c.toClerk = [] ∧ sh' = sh ∧ ∃ cl out, c.client.Resumes cl out ∧
      c' = { c with client := cl, toClerk := out } := by
  unfold step at h
  generalize hq : c.toClerk = q at h
  rcases q with _ | ⟨w, ws⟩
  · simp only [Option.map_eq_some_iff, Prod.mk.injEq, Prod.exists] at h
    obtain ⟨cl, out, hres, rfl, rfl⟩ := h
    exact ⟨rfl, rfl, cl, out, Client.resume_resumes hres, rfl⟩
  · cases h

/-- The client leaves a loop. -/
theorem client_phase {c' : Conn} {sh sh' : Shared} (hph : c.Phase sh.mem)
    (h : c.step sh .client = some (c', sh')) : c'.Phase sh'.mem := by
  obtain ⟨hempty, rfl, cl, out, hres, rfl⟩ := client_step h
  cases hres with
  | @nop r hpc hflag =>
    have hw : c.client.pc.Awaits := by rw [hpc]; trivial
    obtain ⟨l, hr⟩ := hph.replied hw hflag
    obtain ⟨hnil, -⟩ := hr.answer hflag
    have hheads := hr.heads
    have hbooks := hr.books
    simp only [HeadsAfter, hpc] at hheads
    simp only [Owing, hpc, ClientPc.call, ClientPc.ack, Option.toList_none, List.map_nil,
      List.append_nil] at hbooks
    refine .inl ⟨.inr (.inr ⟨r, rfl⟩), rfl, hnil, rfl, ?_, hr.running, hheads, hbooks⟩
    rw [hr.clerk_flag]
    exact clerkDone_ne_clientDone
  | @rewind r hpc hguard =>
    have hq := hph.waiting (by simp [hpc, ClientPc.Awaits]) (by simp [hpc]) (by simp [hpc])
    exact .inr (.inl ⟨[], rewindWait_requested hq hpc⟩)
  | @space r hpc hguard =>
    have hq := hph.waiting (by simp [hpc, ClientPc.Awaits]) (by simp [hpc]) (by simp [hpc])
    exact .inr (.inl ⟨[], spaceWait_requested hq hpc⟩)
  | @ret q hcall hflag =>
    obtain ⟨l, hr⟩ := hph.replied (ClientPc.awaits_of_call hcall) hflag
    have hq := hr.finish hcall hflag
    rw [hr.toClerk] at hq
    exact .inl hq
  | close hpc =>
    rcases hph with hq | ⟨l, hr⟩ | ⟨l, hr⟩ | hl | hc
    · rcases hq.at_rest with h' | ⟨r, h'⟩ | ⟨r, h'⟩ <;> rw [hpc] at h' <;> cases h'
    · have hposted := hr.posted
      have hheads := hr.heads
      simp only [HeadsBefore, hpc] at hheads
      rw [hempty, List.append_nil, hpc] at hposted
      generalize hland : l = landed at hposted
      cases hposted
      have hbody := hr.landed (.body (Request.header .close 0 0)) (by simp [hland])
      have hflag := hr.landed (.header clientDone) (by simp [hland])
      refine .inr (.inr (.inr (.inl ⟨rfl, .inr rfl, hr.replies, hflag, ?_, hr.running, hheads,
        hr.books⟩)))
      exact (Request.fields_of_read [] (by simpa [Landed] using hbody)
        (by decide) (by decide)).1
    · have := hr.awaits
      rw [hpc] at this
      exact this.elim
    · rw [hl.closed] at hpc
      cases hpc
    · exact .inr (.inr (.inr (.inr ⟨.inr rfl, .inr rfl, hc.replies, hc.clerk, hc.emptied,
        hc.books⟩)))

/-! ## Deliveries at the clerk -/

end Conn

/-- The place a write lands in. -/
def ToClerk.place : ToClerk → Nat
  | .body _ => 0
  | .ring _ _ => 1
  | .header _ => 2
  | .send => 3

/-- A request writes each place at most once. -/
theorem Posted.nodup (h : Posted pc l) : (l.map ToClerk.place).Nodup := by
  cases h <;> simp [ToClerk.place]

/-- The flag is raised last. -/
theorem Posted.header_last {pre post : List ToClerk} {w : Nat}
    (h : Posted pc (pre ++ .header w :: post)) : post = [] := by
  generalize hl : pre ++ .header w :: post = l at h
  cases h <;> rcases pre with _ | ⟨a, _ | ⟨b, _ | ⟨d, pre⟩⟩⟩ <;> simp_all

/-- Only a `SendWrite` writes to the ring, its record at its position. -/
theorem Posted.ring {off : Nat} {bs : Bytes} (h : Posted pc l) (hmem : .ring off bs ∈ l) :
    ∃ r, pc = .writeWait r off ∧ bs = r.encode := by
  cases h <;> simp at hmem
  rename_i r pos
  exact ⟨r, by rw [hmem.1], hmem.2⟩

namespace Conn

theorem landClerk_self (c : Conn) (sh : Shared) (w : ToClerk) :
    (c.landClerk sh w).1.Landed (c.landClerk sh w).2.mem w := by
  cases w with
  | body bs => exact Mem.read_write _ _ _
  | ring off bs => exact Mem.read_write _ _ _
  | header v => rfl
  | send => rfl

variable {c c' : Conn} {sh sh' : Shared}

/-- A delivery leaves what has landed elsewhere. -/
theorem landClerk_other {w x : ToClerk} (h : c.Landed sh.mem x) (hne : x.place ≠ w.place) :
    (c.landClerk sh w).1.Landed (c.landClerk sh w).2.mem x := by
  cases w <;> cases x <;> first
    | exact h
    | exact absurd rfl hne

/-- A delivery at the clerk in the `Requested` phase. -/
theorem Requested.land {l : List ToClerk} {w : ToClerk} {ws : List ToClerk}
    (h : c.Requested sh.mem l) (hc : c.toClerk = w :: ws) :
    ({ c with toClerk := ws }.landClerk sh w).1.Requested
      ({ c with toClerk := ws }.landClerk sh w).2.mem (l ++ [w]) := by
  have hposted := h.posted
  rw [hc] at hposted
  have hnodup := hposted.nodup
  rw [List.map_append, List.nodup_append] at hnodup
  have hkeep : ∀ x ∈ l, ({ c with toClerk := ws }.landClerk sh w).1.Landed
      ({ c with toClerk := ws }.landClerk sh w).2.mem x := by
    intro x hx
    refine landClerk_other (h.landed x hx) ?_
    exact hnodup.2.2 _ (List.mem_map_of_mem hx) _ (by simp)
  have hland : ∀ x ∈ l ++ [w], ({ c with toClerk := ws }.landClerk sh w).1.Landed
      ({ c with toClerk := ws }.landClerk sh w).2.mem x := by
    intro x hx
    rcases List.mem_append.mp hx with hx | hx
    · exact hkeep x hx
    · rw [List.mem_singleton.mp hx]
      exact landClerk_self _ _ _
  have hflag : c.clerk.header ≠ clientDone := h.clerk_flag (by simp [hc])
  have hposted' : Posted c.client.pc ((l ++ [w]) ++ ws) := by simpa using hposted
  cases w with
  | body bs =>
    exact ⟨hposted', hland, fun _ => hflag, h.replies, h.client_flag, h.running, h.heads,
      h.books⟩
  | ring off bs =>
    exact ⟨hposted', hland, fun _ => hflag, h.replies, h.client_flag, h.running, h.heads,
      h.books⟩
  | header v =>
    have hlast := hposted.header_last
    exact ⟨hposted', hland, fun hne => absurd hlast hne, h.replies, h.client_flag, h.running,
      h.heads, h.books⟩
  | send =>
    exact ⟨hposted', hland, fun _ => hflag, h.replies, h.client_flag, h.running, h.heads,
      h.books⟩

/-- A write in flight to the ring is the record the client waits on, behind
everything the clerk has taken. -/
theorem Phase.ring_write {m : Mem} (h : c.Phase m) {off : Nat} {bs : Bytes}
    (hmem : .ring off bs ∈ c.toClerk) :
    ∃ r, c.client.pc = .writeWait r off ∧ bs = r.encode ∧ off = c.clerkHead ∧
      c.clerk.lap = c.client.lap ∧ c.client.bufHead = off + r.length ∧
      c.client.bufHead < maxAsyncSize ∧ c.clerk.pc = .running := by
  rcases h with hq | ⟨l, hr⟩ | ⟨l, hr⟩ | hl | hc
  · simp [hq.toClerk] at hmem
  · obtain ⟨r, hpc, rfl⟩ := hr.posted.ring (List.mem_append_right _ hmem)
    have hheads := hr.heads
    simp only [HeadsBefore, hpc] at hheads
    exact ⟨r, hpc, rfl, hheads.1, hheads.2.1, hheads.2.2.1, hheads.2.2.2, hr.running⟩
  · simp [hr.toClerk] at hmem
  · rcases hl.toClerk with h' | h' <;> simp [h'] at hmem
  · rcases hc.toClerk with h' | h' <;> simp [h'] at hmem

/-- A delivery at the clerk. -/
theorem toClerk_phase (hph : c.Phase sh.mem) (h : c.step sh .toClerk = some (c', sh')) :
    c'.Phase sh'.mem := by
  obtain ⟨w, ws, hw, rfl, rfl⟩ := toClerk_step h
  rcases hph with hq | ⟨l, hr⟩ | ⟨l, hr⟩ | hl | hc
  · simp [hq.toClerk] at hw
  · exact .inr (.inl ⟨l ++ [w], hr.land hw⟩)
  · simp [hr.toClerk] at hw
  · rcases hl.toClerk with h' | h'
    · simp [h'] at hw
    · rw [h'] at hw
      cases hw
      exact .inr (.inr (.inr (.inl ⟨hl.closed, .inl rfl, hl.replies, hl.clerk_flag, hl.request,
        hl.running, hl.heads, hl.books⟩)))
  · rcases hc.toClerk with h' | h'
    · simp [h'] at hw
    · rw [h'] at hw
      cases hw
      exact .inr (.inr (.inr (.inr ⟨hc.client, .inl rfl, hc.replies, hc.clerk,
        hc.emptied, hc.books⟩)))

/-- A delivery at the clerk keeps the open batch. -/
theorem toClerk_batch (hph : c.Phase sh.mem) (hb : c.clerk.BatchInv sh.mem)
    (h : c.step sh .toClerk = some (c', sh')) : c'.clerk.BatchInv sh'.mem := by
  obtain ⟨w, ws, hw, rfl, rfl⟩ := toClerk_step h
  cases w with
  | body bs => exact hb.congr rfl
  | ring off bs =>
    obtain ⟨r, -, -, hoff, -⟩ := hph.ring_write (hw ▸ List.mem_cons_self)
    refine ⟨hb.laid.frame (.inl ?_), hb.len_lt⟩
    show c.clerk.writeBuf + c.clerk.bufTail + c.clerk.batchLength ≤ c.clerk.writeBuf + off
    rw [hoff, clerkHead]
    omega
  | header v => exact hb.congr rfl
  | send => exact hb.congr rfl

/-! ## Deliveries at the client -/

/-- A tail word changes nothing but the tail word and the thread it releases. -/
theorem landClient_tail (c : Conn) (ws : List ToClient) (t i : Nat) :
    { c with toClient := ws }.landClient (.tail t i) =
      c.background t (c.clerk.setStage i .done).threads false c.clerk.logged ws := rfl

theorem landClient_self (c : Conn) (w : ToClient) : (c.landClient w).LandedClient w := by
  cases w with
  | body bs => exact Mem.read_write _ _ _
  | header v => rfl
  | tail t i => trivial

/-- A flag that lands leaves the body. -/
theorem landClient_header {v : Nat} {bs : Bytes} (h : c.LandedClient (.body bs)) :
    (c.landClient (.header v)).LandedClient (.body bs) := h

/-- A reply lands at the client. -/
theorem Replied.land {l : List ToClient} {w : ToClient} {ws : List ToClient} (h : c.Replied l)
    (hc : c.toClient = w :: ws) (hw : w.isReply = true) :
    ({ c with toClient := ws }.landClient w).Replied (l ++ [w]) := by
  have hreps : c.replies = w :: ws.filter ToClient.isReply := by
    unfold replies
    rw [hc, List.filter_cons_of_pos hw]
  have hposted : l ++ w :: ws.filter ToClient.isReply =
      [.body (Reply.wire c.clerk.msg), .header clerkDone] := hreps ▸ h.posted
  have hposted' : (l ++ [w]) ++ ws.filter ToClient.isReply =
      [.body (Reply.wire c.clerk.msg), .header clerkDone] := by simpa using hposted
  have hflag : c.client.header = clientDone := h.client_flag (by simp [hreps])
  have hself := landClient_self { c with toClient := ws } w
  cases w with
  | body bs =>
    have hl : l = [] := by
      rcases l with _ | ⟨x, _ | ⟨y, l⟩⟩ <;> simp at hposted ⊢
    refine ⟨h.awaits, hposted', ?_, fun _ => hflag, h.toClerk, h.clerk_flag, h.running, h.heads,
      h.books⟩
    intro z hz
    rw [hl, List.nil_append, List.mem_singleton] at hz
    rw [hz]
    exact hself
  | header v =>
    obtain ⟨hl, hrest⟩ : l = [.body (Reply.wire c.clerk.msg)] ∧
        ws.filter ToClient.isReply = [] := by
      rcases l with _ | ⟨x, _ | ⟨y, l⟩⟩ <;> simp at hposted ⊢
      exact ⟨hposted.1, hposted.2.2⟩
    refine ⟨h.awaits, hposted', ?_, fun hne => absurd hrest hne, h.toClerk, h.clerk_flag,
      h.running, h.heads, h.books⟩
    intro z hz
    rcases List.mem_append.mp hz with hz | hz
    · have hz' := h.landed z hz
      rw [hl, List.mem_singleton] at hz
      rw [hz] at hz' ⊢
      exact landClient_header hz'
    · rw [List.mem_singleton.mp hz]
      exact hself
  | tail t i => cases hw

/-- A delivery at the client. -/
theorem toClient_phase (hph : c.Phase sh.mem) (h : c.step sh .toClient = some (c', sh')) :
    c'.Phase sh'.mem := by
  obtain ⟨w, ws, hw, rfl, rfl⟩ := toClient_step h
  by_cases hrep : w.isReply = true
  · -- replies are in flight only in the `Replied` phase
    have hne : c.replies ≠ [] := by
      unfold replies
      rw [hw, List.filter_cons_of_pos hrep]
      simp
    rcases hph with hq | ⟨l, hr⟩ | ⟨l, hr⟩ | hl | hc
    · exact absurd hq.replies hne
    · exact absurd hr.replies hne
    · exact .inr (.inr (.inl ⟨l ++ [w], hr.land hw hrep⟩))
    · exact absurd hl.replies hne
    · exact absurd hc.replies hne
  · cases w with
    | body bs => exact absurd rfl hrep
    | header v => exact absurd rfl hrep
    | tail t i =>
      rw [landClient_tail]
      refine hph.background _ _ _ _ ?_
      unfold replies
      rw [hw]
      rfl

/-! ## Steps of the persist threads -/

/-- A persist thread appends its batch. -/
theorem persist_phase {i : Nat} (hph : c.Phase sh.mem)
    (h : c.step sh (.persist i) = some (c', sh')) : c'.Phase sh'.mem := by
  obtain ⟨t, -, -, -, rfl, rfl⟩ := persist_step h
  exact hph.background c.client.bufTail _ true _ rfl

/-- A persist thread posts its tail word. -/
theorem post_phase {i : Nat} (hph : c.Phase sh.mem) (h : c.step sh (.post i) = some (c', sh')) :
    c'.Phase sh'.mem := by
  obtain ⟨t, -, -, rfl, rfl⟩ := post_step h
  refine hph.background c.client.bufTail _ c.clerk.mu c.clerk.logged ?_
  simp [replies, ToClient.isReply]

/-- The callback. -/
theorem callback_phase (hph : c.Phase sh.mem) (h : c.step sh .callback = some (c', sh')) :
    c'.Phase sh'.mem := by
  obtain ⟨sync, hclosing, -, rfl, rfl⟩ := callback_step h
  have hc := hph.closing (by rw [hclosing]; simp)
  exact .inr (.inr (.inr (.inr ⟨hc.client, hc.toClerk, hc.replies, .inr rfl, hc.emptied,
    hc.books⟩)))

end Conn

end LogDirect.Hybrid
