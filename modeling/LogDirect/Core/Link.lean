import LogDirect.Core.Request

/-!
# A client, its clerk and the writes between them

Both ends of a connection have a flag word and a message area of their own; the
clerk may have a ring as well. RDMA writes are delivered whole and in posting
order. A round of the handshake takes a connection through four phases: `Rest`;
`Asked`, a request is on its way or waits for the clerk; `Taken`, the clerk is
at work; `Answered`, the reply is on its way or waits for the client. In each of
them one end at most can leave its loop on the flag word.
-/

namespace LogDirect

open Lib

/-! ## State -/

/-- An RDMA write in flight, to the message area, to the ring or to the flag word. -/
inductive Write
  | body (bs : Bytes)
  | ring (off : Nat) (bs : Bytes)
  | header (w : Nat)

/-- `local_buf_`: the flag word, and the message area from `RING_HEADER` on. -/
structure LocalBuf where
  header : Nat
  msg : Mem

/-- The memory of a connection and the writes in flight. -/
structure Link where
  client : LocalBuf
  clerk : LocalBuf
  ring : Mem
  toClerk : List Write
  toClient : List Write

/-- What a client posts with a request: the message and, if there is a ring, a record and
its place. -/
structure Post where
  body : Bytes
  ring : Option (Nat × Bytes)

/-- The write of a record to the ring. -/
def Write.ofRecord (p : Nat × Bytes) : Write := .ring p.1 p.2

/-- The writes of a request, with the flag word last. -/
def Post.writes (p : Post) : List Write :=
  .body p.body :: (p.ring.toList.map Write.ofRecord ++ [.header clientDone])

/-- A delivery at a message area and flag word. -/
def LocalBuf.land (b : LocalBuf) : Write → LocalBuf
  | .body bs => { b with msg := b.msg.write 0 bs }
  | .ring _ _ => b
  | .header w => { b with header := w }

/-- A delivery at the ring. -/
def Write.landRing (m : Mem) : Write → Mem
  | .ring off bs => m.write off bs
  | .body _ => m
  | .header _ => m

namespace Link

/-- Deliver the next write to the clerk. -/
def deliverClerk (k : Link) : Option Link :=
  match k.toClerk with
  | [] => none
  | w :: ws => some { k with clerk := k.clerk.land w, ring := w.landRing k.ring, toClerk := ws }

/-- Deliver the next write to the client. -/
def deliverClient (k : Link) : Option Link :=
  match k.toClient with
  | [] => none
  | w :: ws => some { k with client := k.client.land w, toClient := ws }

/-- The clerk leaves its loop and sets the flag word for its reply. -/
def take (k : Link) : Link := { k with clerk := { k.clerk with header := clerkDone } }

/-- The clerk writes its reply over the request. -/
def overwrite (k : Link) (m : Mem) : Link := { k with clerk := { k.clerk with msg := m } }

/-- The clerk posts the reply in its message area, then the flag word. -/
def answer (k : Link) : Link :=
  { k with toClient := k.toClient ++ [.body (Reply.wire k.clerk.msg), .header k.clerk.header] }

/-- The client leaves its loop and sets the flag word for its next request. -/
def read (k : Link) : Link := { k with client := { k.client with header := clientDone } }

theorem deliverClerk_inv {k k' : Link} (h : k.deliverClerk = some k') : ∃ w ws,
    k.toClerk = w :: ws ∧
    k' = { k with clerk := k.clerk.land w, ring := w.landRing k.ring, toClerk := ws } := by
  unfold deliverClerk at h
  split at h
  · cases h
  · rename_i w ws hq
    exact ⟨w, ws, hq, (Option.some.inj h).symm⟩

theorem deliverClient_inv {k k' : Link} (h : k.deliverClient = some k') : ∃ w ws,
    k.toClient = w :: ws ∧ k' = { k with client := k.client.land w, toClient := ws } := by
  unfold deliverClient at h
  split at h
  · cases h
  · rename_i w ws hq
    exact ⟨w, ws, hq, (Option.some.inj h).symm⟩

/-! ## Phases -/

/-- A write has reached the clerk. -/
def Landed (k : Link) : Write → Prop
  | .body bs => k.clerk.msg.read 0 bs.length = bs
  | .ring off bs => k.ring.read off bs.length = bs
  | .header w => k.clerk.header = w

/-- A write has reached the client. -/
def LandedClient (k : Link) : Write → Prop
  | .body bs => k.client.msg.read 0 bs.length = bs
  | .ring _ _ => True
  | .header w => k.client.header = w

/-- Nothing is in flight. -/
structure Rest (k : Link) : Prop where
  toClerk : k.toClerk = []
  toClient : k.toClient = []
  client_flag : k.client.header = clientDone
  clerk_flag : k.clerk.header ≠ clientDone

/-- A request is on its way, or waits for the clerk. -/
structure Asked (k : Link) (p : Post) : Prop where
  posted : ∃ landed, p.writes = landed ++ k.toClerk ∧ ∀ w ∈ landed, k.Landed w
  toClient : k.toClient = []
  client_flag : k.client.header = clientDone
  clerk_flag : k.toClerk ≠ [] → k.clerk.header ≠ clientDone

/-- The clerk is at work. -/
structure Taken (k : Link) : Prop where
  toClerk : k.toClerk = []
  toClient : k.toClient = []
  client_flag : k.client.header = clientDone
  clerk_flag : k.clerk.header = clerkDone

/-- The reply is on its way, or waits for the client. -/
structure Answered (k : Link) (bs : Bytes) : Prop where
  posted : ∃ landed, [.body bs, .header clerkDone] = landed ++ k.toClient ∧
    ∀ w ∈ landed, k.LandedClient w
  toClerk : k.toClerk = []
  client_flag : k.toClient ≠ [] → k.client.header = clientDone
  clerk_flag : k.clerk.header = clerkDone

/-- The request lies in the clerk's memory. -/
structure Complete (k : Link) (p : Post) : Prop where
  body : k.clerk.msg.read 0 p.body.length = p.body
  ring : ∀ r ∈ p.ring, k.ring.read r.1 r.2.length = r.2

/-! ## From phase to phase -/

variable {k k' : Link} {p : Post} {bs : Bytes}

/-- A request is posted. -/
theorem Rest.ask (h : k.Rest) (p : Post) (m : Mem) :
    { k with client := { k.client with msg := m }, toClerk := p.writes }.Asked p :=
  ⟨⟨[], rfl, by simp⟩, h.toClient, h.client_flag, fun _ => h.clerk_flag⟩

/-- The next write of a request arrives: no write of a request touches what an earlier
one wrote. -/
theorem Asked.deliver (h : k.Asked p) (hk : k.deliverClerk = some k') : k'.Asked p := by
  obtain ⟨w, ws, hq, rfl⟩ := deliverClerk_inv hk
  obtain ⟨landed, hposted, hlanded⟩ := h.posted
  have hflag := h.clerk_flag (by rw [hq]; simp)
  rw [hq] at hposted
  obtain ⟨body, _ | ⟨off, rec⟩⟩ := p
  · -- the message, then the flag
    rcases landed with _ | ⟨x, _ | ⟨y, landed⟩⟩
    · cases hposted
      exact ⟨⟨[.body body], rfl, by simp [Landed, LocalBuf.land]⟩, h.toClient, h.client_flag,
        fun _ => hflag⟩
    · cases hposted
      have hx := hlanded _ List.mem_cons_self
      exact ⟨⟨[.body body, .header clientDone], rfl, by
        simpa [Landed, LocalBuf.land] using hx⟩, h.toClient, h.client_flag,
          fun hne => absurd rfl hne⟩
    · have := congrArg List.length hposted
      simp [Post.writes] at this
  · -- the message, the record, then the flag
    rcases landed with _ | ⟨x, _ | ⟨y, _ | ⟨z, landed⟩⟩⟩
    · cases hposted
      exact ⟨⟨[.body body], rfl, by simp [Landed, LocalBuf.land]⟩, h.toClient, h.client_flag,
        fun _ => hflag⟩
    · cases hposted
      have hx := hlanded _ List.mem_cons_self
      exact ⟨⟨[.body body, .ring off rec], rfl, by
        simpa [Landed, LocalBuf.land, Write.ofRecord, Write.landRing] using hx⟩, h.toClient,
        h.client_flag, fun _ => hflag⟩
    · cases hposted
      have hx := hlanded _ List.mem_cons_self
      have hy := hlanded _ (List.mem_cons_of_mem _ List.mem_cons_self)
      exact ⟨⟨[.body body, .ring off rec, .header clientDone], rfl, by
        simpa [Landed, LocalBuf.land, Write.ofRecord, Write.landRing] using ⟨hx, hy⟩⟩, h.toClient,
        h.client_flag, fun hne => absurd rfl hne⟩
    · have := congrArg List.length hposted
      simp [Post.writes] at this

/-- Once the flag is seen, everything has arrived. -/
theorem Asked.arrived (h : k.Asked p) (hflag : k.clerk.header = clientDone) : k.toClerk = [] := by
  by_contra hne
  exact h.clerk_flag hne hflag

theorem Asked.complete (h : k.Asked p) (hall : k.toClerk = []) : k.Complete p := by
  obtain ⟨landed, hposted, hlanded⟩ := h.posted
  rw [hall, List.append_nil] at hposted
  rw [← hposted] at hlanded
  refine ⟨hlanded (.body p.body) List.mem_cons_self, ?_⟩
  intro r hr
  have hmem : Write.ofRecord r ∈ p.writes := by
    rw [Option.mem_def] at hr
    simp [Post.writes, hr]
  exact hlanded _ hmem

/-- A request that has arrived can be taken. -/
theorem Asked.flag (h : k.Asked p) (hall : k.toClerk = []) : k.clerk.header = clientDone := by
  obtain ⟨landed, hposted, hlanded⟩ := h.posted
  rw [hall, List.append_nil] at hposted
  rw [← hposted] at hlanded
  exact hlanded (.header clientDone) (by simp [Post.writes])

theorem Asked.take (h : k.Asked p) (hflag : k.clerk.header = clientDone) : k.take.Taken :=
  ⟨h.arrived hflag, h.toClient, h.client_flag, rfl⟩

theorem Taken.overwrite (h : k.Taken) (m : Mem) : (k.overwrite m).Taken :=
  ⟨h.toClerk, h.toClient, h.client_flag, h.clerk_flag⟩

/-- The reply is posted. -/
theorem Taken.answer (h : k.Taken) : k.answer.Answered (Reply.wire k.clerk.msg) := by
  refine ⟨⟨[], ?_, by simp⟩, h.toClerk, fun _ => h.client_flag, h.clerk_flag⟩
  show _ = k.toClient ++ [.body (Reply.wire k.clerk.msg), .header k.clerk.header]
  rw [h.toClient, h.clerk_flag]
  rfl

theorem Answered.deliver (h : k.Answered bs) (hk : k.deliverClient = some k') : k'.Answered bs := by
  obtain ⟨w, ws, hq, rfl⟩ := deliverClient_inv hk
  obtain ⟨landed, hposted, hlanded⟩ := h.posted
  have hflag := h.client_flag (by rw [hq]; simp)
  rw [hq] at hposted
  rcases landed with _ | ⟨x, _ | ⟨y, landed⟩⟩
  · cases hposted
    exact ⟨⟨[.body bs], rfl, by simp [LandedClient, LocalBuf.land]⟩, h.toClerk, fun _ => hflag,
      h.clerk_flag⟩
  · cases hposted
    have hx := hlanded _ List.mem_cons_self
    exact ⟨⟨[.body bs, .header clerkDone], rfl, by simpa [LandedClient, LocalBuf.land] using hx⟩,
      h.toClerk, fun hne => absurd rfl hne, h.clerk_flag⟩
  · have := congrArg List.length hposted
    simp at this

theorem Answered.arrived (h : k.Answered bs) (hflag : k.client.header = clerkDone) :
    k.toClient = [] := by
  by_contra hne
  exact clerkDone_ne_clientDone (hflag.symm.trans (h.client_flag hne))

/-- A reply that has arrived can be read. -/
theorem Answered.flag (h : k.Answered bs) (hall : k.toClient = []) :
    k.client.header = clerkDone ∧ k.client.msg.read 0 bs.length = bs := by
  obtain ⟨landed, hposted, hlanded⟩ := h.posted
  rw [hall, List.append_nil] at hposted
  rw [← hposted] at hlanded
  exact ⟨hlanded (.header clerkDone) (by simp), hlanded (.body bs) (by simp)⟩

theorem Answered.read (h : k.Answered bs) (hflag : k.client.header = clerkDone) : k.read.Rest :=
  ⟨h.toClerk, h.arrived hflag, rfl, by
    rw [Link.read, h.clerk_flag]
    exact clerkDone_ne_clientDone⟩

/-! ## What is left of a round -/

/-- What is still to be delivered; a request that has not been taken weighs more than its
reply will. -/
def load (k : Link) : Nat :=
  k.toClient.length +
    match k.toClerk with
    | [] => if k.clerk.header = clientDone then 10 else 0
    | _ :: ws => ws.length + 11

theorem load_deliverClerk (hk : k.deliverClerk = some k') : k'.load < k.load := by
  obtain ⟨w, ws, hq, rfl⟩ := deliverClerk_inv hk
  unfold load
  rw [hq]
  cases ws with
  | nil =>
    show _ + (if _ then 10 else 0) < _
    split
    · simp
    · simp
  | cons w' ws => simp

theorem load_deliverClient (hk : k.deliverClient = some k') : k'.load < k.load := by
  obtain ⟨w, ws, hq, rfl⟩ := deliverClient_inv hk
  unfold load
  rw [hq]
  simp

theorem load_take (hq : k.toClerk = []) (hflag : k.clerk.header = clientDone) :
    k.take.load + 10 = k.load := by
  unfold load take
  rw [hq]
  show _ + (if clerkDone = clientDone then 10 else 0) + 10 =
    _ + (if k.clerk.header = clientDone then 10 else 0)
  rw [if_neg clerkDone_ne_clientDone, if_pos hflag]

theorem load_answer (k : Link) : k.answer.load = k.load + 2 := by
  unfold load answer
  simp only [List.length_append, List.length_cons, List.length_nil]
  omega

@[simp] theorem load_overwrite (k : Link) (m : Mem) : (k.overwrite m).load = k.load := rfl

@[simp] theorem load_read (k : Link) : k.read.load = k.load := rfl

end Link

end LogDirect
