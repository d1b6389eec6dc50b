import LogDirect.Group.Agree
import LogDirect.Group.Table

/-!
# The group front end on CuckooDB: the relation to a plain map

The writers whose pairs are in the table are always a first part of the queue (`Reached`): those
whose round of the loop in `PutBatch` is over, or as good as over. A writer's call takes
effect when the table stores its pair, also if another clerk has the table do so, and a
`GET` when the table looks the key up. `TableAt` relates the server to a plain map whose calls
are atomic by this.
-/

namespace LogDirect.Group

open Lib Lib.Atomic
open Sync (Seen clip reply body)
open Store (LogFileDB)

variable {ω : Type}

/-! ## One connection -/

/-- The reply to a `GET`, once `find` has looked the key up. -/
def foundReply (request : Mem) :
    Phase (Cuckoo.Call Bytes Bytes) (Cuckoo.Ret Bytes) → Option Mem
  | .answered (.found v) => some (reply request .ok (v.getD []).length (clip (v.getD [])))
  | _ => none

/-- What the clerk will reply from, once the call has taken effect. A clerk that waits writes
its reply when it wakes, one with a `GET` when `find` returns. -/
def Conn.outcome (c : Conn Nat) (p : Phase (Cuckoo.Call Bytes Bytes) (Cuckoo.Ret Bytes))
    (through : Bool) : Option Mem :=
  match c.clerk.pc with
  | .running =>
      if c.link.toClerk = [] ∧ c.link.clerk.header = clerkDone then some c.request else none
  | .serving => foundReply c.request p
  | .waiting => if c.clerk.done || through then some (reply c.request .ok 0 []) else none
  | .writing _ => if through then some c.request else none
  | .written _ => some c.request
  | .replying => some c.request
  | .pausing => none
  | .closing => none
  | .closed => none

/-- A client, what its clerk will reply from, and how far the call is on the plain map. -/
inductive ClientAt (c : Conn Nat) : Option Mem → Phase Call Ret → Prop
  | idle {o} : c.client.pc = .idle → ClientAt c o .idle
  | called {q} : c.Calls q → ClientAt c none (.called q)
  | answered {q m} : c.client.pc = .waiting q →
      (c.clerk.pc = .running → c.link.Answered (Reply.wire m)) →
      ClientAt c (some m) (.answered (q.ret m))

/-- A clerk, what it does in the store, and how far its call of the table is. -/
inductive WorkAt (c : Conn Nat) (batch : WriteBatch) :
    Work → Phase (Cuckoo.Call Bytes Bytes) (Cuckoo.Ret Bytes) → Prop
  | free : (∀ w, c.clerk.pc ≠ .writing w) → WorkAt c batch .free .idle
  | finding {p} : c.clerk.pc = .serving → Request.op c.request = some .get →
      (p = .called (.find (Request.key c.request)) ∨ ∃ r, p = .answered r) →
      WorkAt c batch .finding p
  | looping {w k} : c.clerk.pc = .writing w → k ≤ batch.keys.length →
      WorkAt c batch (.looping k) .idle
  | inserting {w k e p} : c.clerk.pc = .writing w → batch.entries[k]? = some e →
      (p = .called (.insertOrAssign e.1 e.2) ∨ ∃ r, p = .answered r) →
      WorkAt c batch (.inserting k) p

section Conn

variable {c c' : Conn Nat} {p : Phase (Cuckoo.Call Bytes Bytes) (Cuckoo.Ret Bytes)} {through : Bool}
  {ph : Phase Call Ret} {o : Option Mem} {m : Mem} {batch : WriteBatch} {w : Work}

/-- The clerk goes on with a call that has not taken effect. -/
theorem ClientAt.before (h : ClientAt c none ph) (hclient : c'.client = c.client) :
    ClientAt c' none ph := by
  cases h with
  | idle hpc => exact .idle (hclient ▸ hpc)
  | called hc =>
    refine .called ?_
    rw [Conn.Calls, hclient]
    exact hc

/-- It goes on with one that has. -/
theorem ClientAt.after (h : ClientAt c (some m) ph) (hclient : c'.client = c.client)
    (hreply : c'.clerk.pc = .running → c'.link.Answered (Reply.wire m)) :
    ClientAt c' (some m) ph := by
  cases h with
  | idle hpc => exact .idle (hclient ▸ hpc)
  | answered hpc _ => exact .answered (hclient ▸ hpc) hreply

theorem ClientAt.congr (h : ClientAt c o ph) (hclient : c'.client = c.client)
    (hpc : c'.clerk.pc = c.clerk.pc) (hlink : c'.link = c.link) : ClientAt c' o ph := by
  cases h with
  | idle hidle => exact .idle (hclient ▸ hidle)
  | called hc => exact (ClientAt.called hc).before hclient
  | answered hwait hreply =>
    exact .answered (hclient ▸ hwait) fun hrun => hlink ▸ hreply (hpc.symm.trans hrun)

/-- The call takes effect. -/
theorem ClientAt.effect {q : Call} (hwait : c.client.pc = .waiting q)
    (hpc : c.clerk.pc ≠ .running) (m : Mem) : ClientAt c (some m) (.answered (q.ret m)) :=
  .answered hwait fun hrun => absurd hrun hpc

/-- The call that a client waits in, and that has not taken effect. -/
theorem ClientAt.waiting (h : ClientAt c none ph) {q : Call} (hpc : c.client.pc = .waiting q) :
    ph = .called q := by
  cases h with
  | idle hidle => cases hidle.symm.trans hpc
  | called hc => rw [hc.waiting hpc]

theorem ClientAt.phase_idle (h : ClientAt c o ph) (hidle : c.client.pc = .idle) : ph = .idle := by
  cases h with
  | idle => rfl
  | called hc => exact absurd hidle hc.not_idle
  | answered hwait => cases hwait.symm.trans hidle

theorem WorkAt.free_of_serving (h : WorkAt c batch w p) (hop : Request.op c.request ≠ some .get)
    (hpc : c.clerk.pc = .serving) : w = .free ∧ p = .idle := by
  cases h with
  | free => exact ⟨rfl, rfl⟩
  | finding _ hget => exact absurd hget hop
  | looping hwriting => cases hwriting.symm.trans hpc
  | inserting hwriting => cases hwriting.symm.trans hpc

theorem WorkAt.congr (h : WorkAt c batch w p) (hpc : c'.clerk.pc = c.clerk.pc)
    (hreq : c'.request = c.request) : WorkAt c' batch w p := by
  cases h with
  | free hno => exact .free (hpc ▸ hno)
  | finding hserving hop hcall =>
    exact .finding (hpc.trans hserving) (hreq ▸ hop) (hreq ▸ hcall)
  | looping hwriting hle => exact .looping (hpc.trans hwriting) hle
  | inserting hwriting he hcall => exact .inserting (hpc.trans hwriting) he hcall

/-- A clerk that is neither at a request nor in `PutBatch` does nothing in the store. -/
theorem WorkAt.free_of_pc (h : WorkAt c batch w p) (hserving : c.clerk.pc ≠ .serving)
    (hwriting : ∀ w, c.clerk.pc ≠ .writing w) : w = .free ∧ p = .idle := by
  cases h with
  | free => exact ⟨rfl, rfl⟩
  | finding hpc => exact absurd hpc hserving
  | looping hpc => exact absurd hpc (hwriting _)
  | inserting hpc => exact absurd hpc (hwriting _)

/-- It may go on to anything but `PutBatch`. -/
theorem WorkAt.go (h : WorkAt c batch w p) (hserving : c.clerk.pc ≠ .serving)
    (hwriting : ∀ w, c.clerk.pc ≠ .writing w) (hnext : ∀ w, c'.clerk.pc ≠ .writing w) :
    WorkAt c' batch w p := by
  obtain ⟨rfl, rfl⟩ := h.free_of_pc hserving hwriting
  exact .free hnext

theorem outcome_asked (hpc : c.clerk.pc = .running)
    (h : ¬ (c.link.toClerk = [] ∧ c.link.clerk.header = clerkDone)) :
    c.outcome p through = none := by
  rw [Conn.outcome, hpc]
  exact if_neg h

theorem outcome_running (hpc : c.clerk.pc = .running) (hq : c.link.toClerk = [])
    (hflag : c.link.clerk.header = clerkDone) : c.outcome p through = some c.request := by
  rw [Conn.outcome, hpc]
  exact if_pos ⟨hq, hflag⟩

theorem outcome_serving (hpc : c.clerk.pc = .serving) :
    c.outcome p through = foundReply c.request p := by
  rw [Conn.outcome, hpc]

theorem outcome_waiting (hpc : c.clerk.pc = .waiting) :
    c.outcome p through =
      if c.clerk.done || through then some (reply c.request .ok 0 []) else none := by
  rw [Conn.outcome, hpc]

theorem outcome_writing {w : Nat} (hpc : c.clerk.pc = .writing w) :
    c.outcome p through = if through then some c.request else none := by
  rw [Conn.outcome, hpc]

theorem outcome_behind (hpc : (∃ w, c.clerk.pc = .written w) ∨ c.clerk.pc = .replying) :
    c.outcome p through = some c.request := by
  rcases hpc with ⟨w, hpc⟩ | hpc <;> rw [Conn.outcome, hpc]

/-- The outcome is a matter of the clerk and of its side of the link. -/
theorem outcome_congr {through' : Bool} (hpc : c'.clerk.pc = c.clerk.pc) (hlink : c'.link = c.link)
    (hwaiting : c.clerk.pc = .waiting → (c'.clerk.done || through') = (c.clerk.done || through))
    (hwriting : ∀ w, c.clerk.pc ≠ .writing w) : c'.outcome p through' = c.outcome p through := by
  unfold Conn.outcome Conn.request
  rw [hpc, hlink]
  cases hc : c.clerk.pc with
  | waiting =>
    dsimp only
    rw [hwaiting hc]
  | writing w => exact absurd hc (hwriting w)
  | _ => rfl

theorem outcome_none (hpc : c.clerk.pc = .pausing ∨ c.clerk.pc = .closing ∨ c.clerk.pc = .closed) :
    c.outcome p through = none := by
  rcases hpc with hpc | hpc | hpc <;> rw [Conn.outcome, hpc]

end Conn

/-! ## The server -/

/-- A round in `insert_or_assign` is as good as over when the table has the pair. -/
def landed : Phase (Cuckoo.Call Bytes Bytes) (Cuckoo.Ret Bytes) → Nat
  | .answered (.inserted _) => 1
  | _ => 0

/-- The rounds of the loop of `PutBatch` that are over. -/
def rounds (w : Work) (p : Phase (Cuckoo.Call Bytes Bytes) (Cuckoo.Ret Bytes)) : Nat :=
  match w with
  | .looping k => k
  | .inserting k => k + landed p
  | .free => 0
  | .finding => 0

/-- How many writers of the queue have their pair in the table, and how many of them not yet in
the log. -/
inductive TableServer.Reached (s : TableServer ω)
    (b : State Nat (Cuckoo.Call Bytes Bytes) (Cuckoo.Ret Bytes) DB) : Nat → Nat → Prop
  | idle : (∀ i, ¬ (s.server.conns i).clerk.pc.Writes) → Reached s b 0 0
  | writing {i w} : (s.server.conns i).clerk.pc = .writing w →
      Reached s b (rounds (s.work i) (b.phase i)) (rounds (s.work i) (b.phase i))
  | written {i w} : (s.server.conns i).clerk.pc = .written w →
      Reached s b s.server.batch.keys.length 0

/-- The requests of the first writers of the queue. -/
def Server.requests {σ : Type} (s : Server Nat σ) (n : Nat) : Bytes :=
  (s.writersQueue.take n).flatMap fun j => requestBytes (s.conns j).request

/-- The buffer of a leader, and the log with what is to be appended to it. -/
structure Server.Logs (s : Server Nat LogFileDB) (m : DB) (k : Nat) : Prop where
  bytes : ∀ i, (s.conns i).clerk.pc.Writes → s.batch.bytes = s.requests s.batch.keys.length
  log : ∃ qs, (∀ q ∈ qs, LoggedCall q) ∧ m = stored qs ∧
    s.db.file ++ s.requests k = qs.flatMap body

/-- The server, the plain map its table is, and the plain map the clients see. -/
structure TableAt (R : ω → State Nat (Cuckoo.Call Bytes Bytes) (Cuckoo.Ret Bytes) DB → Prop)
    (s : TableServer ω) (b : State Nat (Cuckoo.Call Bytes Bytes) (Cuckoo.Ret Bytes) DB)
    (a : State Nat Call Ret DB) (n k : Nat) : Prop where
  table : R s.table b
  obj : a.obj = b.obj
  orderly : s.server.Orderly
  conns : ∀ j, ∃ es, (s.server.conns j).Follows es
  work : ∀ j, WorkAt (s.server.conns j) s.server.batch (s.work j) (b.phase j)
  reached : s.Reached b n k
  clients : ∀ j, ClientAt (s.server.conns j) ((s.server.conns j).outcome (b.phase j)
    (decide (j ∈ s.server.writersQueue.take n))) (a.phase j)
  logs : s.server.Logs a.obj k

section Server

variable {σ : Type} {x y : Server Nat σ} {n : Nat} {ws : List Nat}

/-- The queue grows at its end, and its requests stay. -/
theorem requests_grow (hn : n ≤ x.writersQueue.length)
    (hqueue : y.writersQueue = x.writersQueue ++ ws)
    (hsame : ∀ j ∈ x.writersQueue, (y.conns j).request = (x.conns j).request) :
    y.requests n = x.requests n := by
  rw [Server.requests, hqueue, List.take_append_of_le_length hn]
  refine List.flatMap_congr fun j hj => ?_
  rw [hsame j (List.mem_of_mem_take hj)]

theorem Server.Logs.grow {x y : Server Nat LogFileDB} {m : DB} {k : Nat} (h : x.Logs m k)
    (ho : x.Orderly) (hk : k ≤ x.writersQueue.length)
    (hqueue : y.writersQueue = x.writersQueue ++ ws) (hbatch : y.batch = x.batch)
    (hdb : y.db = x.db)
    (hsame : ∀ j ∈ x.writersQueue, (y.conns j).request = (x.conns j).request)
    (hwrites : ∀ i, (y.conns i).clerk.pc.Writes → (x.conns i).clerk.pc.Writes) : y.Logs m k := by
  refine ⟨fun i hi => ?_, ?_⟩
  · have hi := hwrites i hi
    have hle : x.batch.keys.length ≤ x.writersQueue.length := by
      cases hpc : (x.conns i).clerk.pc with
      | writing w => exact (ho.group i w (.inl hpc)).le
      | written w => exact (ho.group i w (.inr hpc)).le
      | _ =>
        rw [hpc] at hi
        exact hi.elim
    rw [hbatch, requests_grow hle hqueue hsame]
    exact h.bytes i hi
  · rw [hdb, requests_grow hk hqueue hsame]
    exact h.log

end Server

section Steps

variable {R : ω → State Nat (Cuckoo.Call Bytes Bytes) (Cuckoo.Ret Bytes) DB → Prop}
  {s s' : TableServer ω} {b b' : State Nat (Cuckoo.Call Bytes Bytes) (Cuckoo.Ret Bytes) DB}
  {a a' : State Nat Call Ret DB} {n k i : Nat}

theorem WorkAt.rounds_le {c : Conn Nat} {batch : WriteBatch} {w : Work}
    {p : Phase (Cuckoo.Call Bytes Bytes) (Cuckoo.Ret Bytes)} (h : WorkAt c batch w p) :
    rounds w p ≤ batch.keys.length := by
  cases h with
  | free => exact Nat.zero_le _
  | finding => exact Nat.zero_le _
  | looping _ hk => exact hk
  | @inserting _ k _ p _ he _ =>
    have hlt : k < batch.entries.length := (List.getElem?_eq_some_iff.mp he).1
    have hle : batch.entries.length ≤ batch.keys.length := by
      rw [WriteBatch.entries, List.length_map, List.length_zip]
      exact Nat.min_le_left _ _
    have hland : landed p ≤ 1 := by
      unfold landed
      split
      · exact Nat.le_refl _
      · exact Nat.zero_le _
    show k + landed p ≤ _
    omega

/-- The group of a leader is on the queue. -/
theorem TableAt.le (h : TableAt R s b a n k) :
    n ≤ s.server.writersQueue.length ∧ k ≤ s.server.writersQueue.length := by
  cases h.reached with
  | idle => exact ⟨Nat.zero_le _, Nat.zero_le _⟩
  | @writing i w hpc =>
    have hle := (h.work i).rounds_le.trans (h.orderly.group i w (.inl hpc)).le
    exact ⟨hle, hle⟩
  | @written i w hpc => exact ⟨(h.orderly.group i w (.inr hpc)).le, Nat.zero_le _⟩

theorem TableServer.Reached.congr (h : s.Reached b n k) (hbatch : s'.server.batch = s.server.batch)
    (hsame : ∀ j, ((s'.server.conns j).clerk.pc = (s.server.conns j).clerk.pc ∧
        rounds (s'.work j) (b'.phase j) = rounds (s.work j) (b.phase j)) ∨
      ¬ (s'.server.conns j).clerk.pc.Writes ∧ ¬ (s.server.conns j).clerk.pc.Writes) :
    s'.Reached b' n k := by
  cases h with
  | idle hno =>
    refine .idle fun j hj => ?_
    rcases hsame j with ⟨hpc, -⟩ | ⟨hno', -⟩
    · rw [hpc] at hj
      exact hno j hj
    · exact hno' hj
  | @writing j w hpc =>
    rcases hsame j with ⟨hpc', hrounds⟩ | ⟨-, hno⟩
    · rw [← hrounds]
      exact .writing (hpc'.trans hpc)
    · rw [hpc] at hno
      exact absurd trivial hno
  | @written j w hpc =>
    rcases hsame j with ⟨hpc', -⟩ | ⟨-, hno⟩
    · rw [← hbatch]
      exact .written (hpc'.trans hpc)
    · rw [hpc] at hno
      exact absurd trivial hno

/-- Without a clerk in `PutBatch` no round is over. -/
theorem TableServer.Reached.eq_idle (h : s.Reached b n k)
    (hno : ∀ j, ¬ (s.server.conns j).clerk.pc.Writes) : n = 0 ∧ k = 0 := by
  cases h with
  | idle => exact ⟨rfl, rfl⟩
  | @writing j w hj => exact absurd (by rw [hj]; trivial) (hno j)
  | @written j w hj => exact absurd (by rw [hj]; trivial) (hno j)

/-- There is one leader, so the numbers are about it. -/
theorem TableServer.Reached.leader (h : s.Reached b n k) (ho : s.server.Orderly)
    (hi : (s.server.conns i).clerk.pc.Writes) :
    (∃ w, (s.server.conns i).clerk.pc = .writing w ∧ n = rounds (s.work i) (b.phase i) ∧ k = n) ∨
    ∃ w, (s.server.conns i).clerk.pc = .written w ∧ n = s.server.batch.keys.length ∧ k = 0 := by
  cases h with
  | idle hno => exact absurd hi (hno i)
  | @writing j w hj =>
    have hji := ho.one_leader (i := j) (j := i) (by rw [hj]; trivial) hi.leads
    subst hji
    exact .inl ⟨w, hj, rfl, rfl⟩
  | @written j w hj =>
    have hji := ho.one_leader (i := j) (j := i) (by rw [hj]; trivial) hi.leads
    subst hji
    exact .inr ⟨w, hj, rfl, rfl⟩

theorem TableServer.Reached.eq_writing (h : s.Reached b n k) (ho : s.server.Orderly) {w : Nat}
    (hpc : (s.server.conns i).clerk.pc = .writing w) :
    n = rounds (s.work i) (b.phase i) ∧ k = n := by
  rcases h.leader (i := i) ho (by rw [hpc]; trivial) with ⟨w', -, hn⟩ | ⟨w', hpc', -⟩
  · exact hn
  · cases hpc.symm.trans hpc'

theorem TableServer.Reached.eq_written (h : s.Reached b n k) (ho : s.server.Orderly) {w : Nat}
    (hpc : (s.server.conns i).clerk.pc = .written w) :
    n = s.server.batch.keys.length ∧ k = 0 := by
  rcases h.leader (i := i) ho (by rw [hpc]; trivial) with ⟨w', hpc', -⟩ | ⟨w', -, hn⟩
  · cases hpc.symm.trans hpc'
  · exact hn

/-- One clerk does something, and the others are as before. -/
structure Elsewhere (s : TableServer ω)
    (b : State Nat (Cuckoo.Call Bytes Bytes) (Cuckoo.Ret Bytes) DB) (a : State Nat Call Ret DB)
    (i : Nat) (s' : TableServer ω)
    (b' : State Nat (Cuckoo.Call Bytes Bytes) (Cuckoo.Ret Bytes) DB)
    (a' : State Nat Call Ret DB) : Prop where
  conns : ∀ j, j ≠ i → s'.server.conns j = s.server.conns j
  work : ∀ j, j ≠ i → s'.work j = s.work j
  table : ∀ j, j ≠ i → b'.phase j = b.phase j
  clients : ∀ j, j ≠ i → a'.phase j = a.phase j
  batch : s'.server.batch = s.server.batch
  db : s'.server.db = s.server.db
  queue : ∃ ws, s'.server.writersQueue = s.server.writersQueue ++ ws
  request : i ∈ s.server.writersQueue →
    (s'.server.conns i).request = (s.server.conns i).request

/-- Neither the queue's first part nor the log has to do with the step. -/
theorem TableAt.move (h : TableAt R s b a n k) (he : Elsewhere s b a i s' b' a')
    (htable : R s'.table b') (hobj : b'.obj = b.obj) (hobj' : a'.obj = a.obj)
    (horderly : s'.server.Orderly) (hconns : ∀ j, ∃ es, (s'.server.conns j).Follows es)
    (hi : ((s'.server.conns i).clerk.pc = (s.server.conns i).clerk.pc ∧
        rounds (s'.work i) (b'.phase i) = rounds (s.work i) (b.phase i)) ∨
      ¬ (s'.server.conns i).clerk.pc.Writes ∧ ¬ (s.server.conns i).clerk.pc.Writes)
    (hwork : WorkAt (s'.server.conns i) s.server.batch (s'.work i) (b'.phase i))
    (hclient : ClientAt (s'.server.conns i) ((s'.server.conns i).outcome (b'.phase i)
      (decide (i ∈ s.server.writersQueue.take n))) (a'.phase i)) :
    TableAt R s' b' a' n k := by
  obtain ⟨ws, hqueue⟩ := he.queue
  have htake : s'.server.writersQueue.take n = s.server.writersQueue.take n := by
    rw [hqueue, List.take_append_of_le_length h.le.1]
  refine ⟨htable, hobj'.trans (h.obj.trans hobj.symm), horderly, hconns, fun j => ?_,
    h.reached.congr he.batch fun j => ?_, fun j => ?_, ?_⟩
  · rw [he.batch]
    by_cases hj : j = i
    · rw [hj]
      exact hwork
    · rw [he.conns j hj, he.work j hj, he.table j hj]
      exact h.work j
  · by_cases hj : j = i
    · rw [hj]
      exact hi
    · rw [he.conns j hj, he.work j hj, he.table j hj]
      exact .inl ⟨rfl, rfl⟩
  · rw [htake]
    by_cases hj : j = i
    · rw [hj]
      exact hclient
    · rw [he.conns j hj, he.table j hj, he.clients j hj]
      exact h.clients j
  · rw [hobj']
    refine h.logs.grow h.orderly h.le.2 hqueue he.batch he.db (fun j hj => ?_) fun j hj => ?_
    · by_cases hji : j = i
      · subst hji
        exact he.request hj
      · rw [he.conns j hji]
    · by_cases hji : j = i
      · subst hji
        rcases hi with ⟨hpc, -⟩ | ⟨hno, -⟩
        · rwa [hpc] at hj
        · exact absurd hj hno
      · rwa [he.conns j hji] at hj

end Steps

end LogDirect.Group
