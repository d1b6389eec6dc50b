import LogDirect.Group.TableAt

/-!
# The group front end on CuckooDB: clients, network and clerks

Each step of the front end keeps `TableAt`. A client's call and its return are those of the
plain map; of the steps of clerks only `SetSync` takes effect on it. A leader moves the pairs of
its batch from the table to the log, and its group from the queue to their replies.
-/

namespace LogDirect.Group

open Lib Lib.Atomic
open Sync (Client reply)
open Store (LogFileDB)

variable {ω ℓ : Type}

section Front

variable {R : ω → State Nat (Cuckoo.Call Bytes Bytes) (Cuckoo.Ret Bytes) DB → Prop}
  {s : TableServer ω} {b : State Nat (Cuckoo.Call Bytes Bytes) (Cuckoo.Ret Bytes) DB}
  {a a' : State Nat Call Ret DB} {n k i : Nat} {l : Label Nat} {c : Conn Nat}

/-- The server with its front end as it is after a step. -/
def TableServer.withServer (s : TableServer ω) (x : Server Nat LogFileDB) : TableServer ω :=
  ⟨x, s.work, s.table⟩

theorem TableAt.moves (h : TableAt R s b a n k) {B : DBType LogFileDB} {x : Server Nat LogFileDB}
    (hmoves : s.server.Moves B l x) : x.Orderly ∧ ∀ j, ∃ es, (x.conns j).Follows es := by
  refine ⟨hmoves.orderly h.orderly h.conns, fun j => ?_⟩
  obtain ⟨es, hes⟩ := h.conns j
  exact ⟨_, hmoves.follows j hes⟩

/-- A step of one connection. -/
theorem TableAt.set (h : TableAt R s b a n k)
    (hmoves : s.server.Moves (besides none) l (s.server.set i c))
    (hreq : i ∈ s.server.writersQueue → c.request = (s.server.conns i).request)
    (hphase : ∀ j, j ≠ i → a'.phase j = a.phase j) (hobj : a'.obj = a.obj)
    (hpc : c.clerk.pc = (s.server.conns i).clerk.pc ∨
      ¬ c.clerk.pc.Writes ∧ ¬ (s.server.conns i).clerk.pc.Writes)
    (hwork : WorkAt c s.server.batch (s.work i) (b.phase i))
    (hclient : ClientAt c (c.outcome (b.phase i) (decide (i ∈ s.server.writersQueue.take n)))
      (a'.phase i)) : TableAt R (s.withServer (s.server.set i c)) b a' n k := by
  have hself : (s.withServer (s.server.set i c)).server.conns i = c := Server.set_self s.server i c
  refine h.move (i := i) ⟨fun j hj => Server.set_other s.server c hj, fun _ _ => rfl,
    fun _ _ => rfl, hphase, rfl, rfl, ⟨[], (List.append_nil _).symm⟩, ?_⟩ h.table rfl hobj
    (h.moves hmoves).1 (h.moves hmoves).2 ?_ ?_ ?_
  · rw [hself]
    exact hreq
  · rw [hself]
    exact hpc.imp_left fun hpc => ⟨hpc, rfl⟩
  · rw [hself]
    exact hwork
  · rw [hself]
    exact hclient

/-- A client enters a call. -/
theorem TableAt.call (h : TableAt R s b a n k) {q : Call}
    (hidle : (s.server.conns i).client.pc = .idle) :
    a.phase i = .idle ∧ TableAt R (s.withServer (s.server.set i ((s.server.conns i).setClient
      (Sync.GroupClient.send (s.server.conns i).client (s.server.conns i).link q)))) b
      ⟨a.obj, Function.update a.phase i (.called q)⟩ n k := by
  obtain ⟨es, hes⟩ := h.conns i
  have hpc := hes.idle_pc hidle
  have hpc' : ((s.server.conns i).setClient (Sync.GroupClient.send (s.server.conns i).client
      (s.server.conns i).link q)).clerk.pc = .running := hpc
  refine ⟨(h.clients i).phase_idle hidle, h.set (.call hidle) (fun _ => rfl)
    (fun j hj => Function.update_of_ne hj ..) rfl (.inl rfl) ?_ ?_⟩
  · exact (h.work i).congr rfl rfl
  · rw [outcome_asked hpc' ?_]
    · dsimp only
      rw [Function.update_self]
      exact .called (.inl rfl)
    · rintro ⟨hnil, -⟩
      exact absurd hnil (by simp [Conn.setClient, Sync.GroupClient.send, Sync.post])

/-- A client returns from a call, or closes. -/
theorem TableAt.client (h : TableAt R s b a n k) {p : Client × Link}
    (hp : (s.server.conns i).client.resume (s.server.conns i).link = some p) :
    ∃ a', Step GroupEffect a (s.server.seen (.client i)) a' ∧
      TableAt R (s.withServer (s.server.set i ((s.server.conns i).setClient p))) b a' n k := by
  obtain ⟨es, hes⟩ := h.conns i
  have hi := h.clients i
  have hpc := hes.resume_pc hp
  have hreq : ((s.server.conns i).setClient p).request = (s.server.conns i).request :=
    congrArg LocalBuf.msg (Server.resume_request hp)
  have hkeep : WorkAt ((s.server.conns i).setClient p) s.server.batch (s.work i) (b.phase i) :=
    (h.work i).congr rfl hreq
  have hmoves : s.server.Moves (besides none) (.client i)
      (s.server.set i ((s.server.conns i).setClient p)) := .client hp
  obtain ⟨cl, k'⟩ := p
  obtain ⟨hnil, ⟨q, hwait, hflag, rfl, rfl⟩ | ⟨hclosing, rfl, rfl⟩⟩ := Sync.Client.resume_inv hp
  · -- the reply it reads is that of the call
    have hrun : (s.server.conns i).clerk.pc = .running := hpc.resolve_right fun hno => hno.1 q hwait
    have hseen : s.server.seen (.client i) =
        [.respond i (q.ret (s.server.conns i).link.client.msg)] := by
      rw [Server.seen, hwait]
    have hclerk : (s.server.conns i).link.clerk.header = clerkDone := by
      obtain ⟨r, hr, -⟩ := hes
      cases r with
      | rest => cases hr.1.symm.trans hwait
      | asked x =>
        obtain ⟨q', -, -, ⟨-, hl⟩ | ⟨-, hl, -⟩⟩ := hr
        · exact absurd (hflag.symm.trans hl.client_flag) clerkDone_ne_clientDone
        · exact absurd (hflag.symm.trans hl.client_flag) clerkDone_ne_clientDone
      | taken x =>
        obtain ⟨q', -, -, -, hl⟩ := hr
        exact absurd (hflag.symm.trans hl.client_flag) clerkDone_ne_clientDone
      | answered x r =>
        obtain ⟨q', m, -, -, -, -, hl⟩ := hr
        exact hl.clerk_flag
    rw [outcome_running hrun hnil hclerk] at hi
    generalize hph : a.phase i = ph at hi
    cases hi with
    | idle hidle => cases hidle.symm.trans hwait
    | @answered q' _ hwait' hreply =>
      cases hwait.symm.trans hwait'
      have hanswer := hreply hrun
      have hread := (hanswer.flag (hanswer.arrived hflag)).2
      rw [← q.ret_of_wire hread] at hph
      rw [hseen]
      refine ⟨_, .respond hph, h.set hmoves (fun _ => hreq)
        (fun j hj => Function.update_of_ne hj ..) rfl (.inl rfl) hkeep ?_⟩
      dsimp only
      rw [Function.update_self]
      exact .idle rfl
  · have hseen : s.server.seen (.client i) = [] := by
      rw [Server.seen, hclosing]
    rw [hseen]
    refine ⟨a, .stay a, h.set hmoves (fun _ => hreq) (fun _ _ => rfl) rfl (.inl rfl) hkeep ?_⟩
    change ClientAt _ ((s.server.conns i).outcome _ _) _
    generalize (s.server.conns i).outcome _ _ = out at hi ⊢
    generalize a.phase i = ph at hi ⊢
    cases hi with
    | idle hidle => cases hidle.symm.trans hclosing
    | called hc => exact .called (.inr ⟨hc.closing hclosing, rfl⟩)
    | answered hwait => cases hwait.symm.trans hclosing

/-- A write reaches the clerk. -/
theorem TableAt.toClerk (h : TableAt R s b a n k) {k' : Link}
    (hk : (s.server.conns i).link.deliverClerk = some k') :
    TableAt R (s.withServer (s.server.set i ((s.server.conns i).setLink k'))) b a n k := by
  obtain ⟨es, r, hr, -⟩ := h.conns i
  obtain ⟨w, ws, hq, -⟩ := Link.deliverClerk_inv hk
  have hi := h.clients i
  cases r with
  | rest => cases hr.2.2.toClerk.symm.trans hq
  | asked x =>
    obtain ⟨q, -, -, ⟨hpc, hl⟩ | ⟨-, hl, -⟩⟩ := hr
    · have hpc' : ((s.server.conns i).setLink k').clerk.pc = .running := hpc
      have hout : i ∉ s.server.writersQueue := h.orderly.not_mem (by rw [hpc]; exact id)
      refine h.set (.toClerk hk) (fun hmem => absurd hmem hout) (fun _ _ => rfl) rfl (.inl rfl)
        ((h.work i).go (by rw [hpc]; simp) (by rw [hpc]; simp) (by rw [hpc']; simp)) ?_
      rw [outcome_asked hpc fun hall => by cases hall.1.symm.trans hq] at hi
      rw [outcome_asked hpc' fun hall => clerkDone_ne_clientDone
        (hall.2.symm.trans ((hl.deliver hk).flag hall.1))]
      exact hi.before rfl
    · cases hl.toClerk.symm.trans hq
  | taken x =>
    obtain ⟨q, -, -, -, hl⟩ := hr
    cases hl.toClerk.symm.trans hq
  | answered x r =>
    obtain ⟨q, m, -, -, -, -, hl⟩ := hr
    cases hl.toClerk.symm.trans hq

/-- A write reaches the client. -/
theorem TableAt.toClient (h : TableAt R s b a n k) {k' : Link}
    (hk : (s.server.conns i).link.deliverClient = some k') :
    TableAt R (s.withServer (s.server.set i ((s.server.conns i).setLink k'))) b a n k := by
  have hmoves : s.server.Moves (besides none) (.toClient i)
      (s.server.set i ((s.server.conns i).setLink k')) := .toClient hk
  have hi := h.clients i
  have hdeliver : ∀ m, (s.server.conns i).link.Answered (Reply.wire m) →
      k'.Answered (Reply.wire m) := fun m hm => hm.deliver hk
  obtain ⟨w, ws, hq, rfl⟩ := Link.deliverClient_inv hk
  refine h.set hmoves (fun _ => rfl) (fun _ _ => rfl) rfl (.inl rfl) ((h.work i).congr rfl rfl) ?_
  change ClientAt _ ((s.server.conns i).outcome _ _) _
  generalize (s.server.conns i).outcome _ _ = out at hi ⊢
  generalize a.phase i = ph at hi ⊢
  cases hi with
  | idle hidle => exact .idle hidle
  | called hc => exact .called hc
  | answered hwait hreply => exact .answered hwait fun hrun => hdeliver _ (hreply hrun)

/-- A clerk leaves its loop. -/
theorem TableAt.take (h : TableAt R s b a n k) (hpc : (s.server.conns i).clerk.pc = .running)
    (hflag : (s.server.conns i).link.clerk.header = clientDone) :
    TableAt R (s.withServer (s.server.set i (((s.server.conns i).setLink
      (s.server.conns i).link.take).goto .serving))) b a n k := by
  have hi := h.clients i
  have hfree := (h.work i).free_of_pc (by rw [hpc]; simp) (by rw [hpc]; simp)
  refine h.set (.take hpc hflag) (fun _ => rfl) (fun _ _ => rfl) rfl
    (.inr ⟨id, by rw [hpc]; exact id⟩)
    ((h.work i).go (by rw [hpc]; simp) (by rw [hpc]; simp) (by simp [Conn.goto])) ?_
  rw [outcome_asked hpc fun hall => clerkDone_ne_clientDone (hall.2.symm.trans hflag)] at hi
  rw [outcome_serving rfl, hfree.2]
  exact hi.before rfl

/-- A clerk at a request other than `GET` has not called the store. -/
theorem TableAt.unserved (h : TableAt R s b a n k) (hpc : (s.server.conns i).clerk.pc = .serving)
    (hop : Request.op (s.server.conns i).request ≠ some .get) :
    s.work i = .free ∧ b.phase i = .idle ∧ ClientAt (s.server.conns i) none (a.phase i) := by
  obtain ⟨hfree, hp⟩ := (h.work i).free_of_serving hop hpc
  have hi := h.clients i
  rw [outcome_serving hpc, hp] at hi
  exact ⟨hfree, hp, hi⟩

/-- A clerk with `CLOSE` leaves `Run`. -/
theorem TableAt.close (h : TableAt R s b a n k) (hpc : (s.server.conns i).clerk.pc = .serving)
    (hop : Request.op (s.server.conns i).request = some .close) :
    TableAt R (s.withServer (s.server.set i ((s.server.conns i).goto .closing))) b a n k := by
  obtain ⟨hfree, hp, hi⟩ := h.unserved hpc (by rw [hop]; simp)
  refine h.set (.close hpc hop) (fun _ => rfl) (fun _ _ => rfl) rfl
    (.inr ⟨id, by rw [hpc]; exact id⟩) ?_ ?_
  · rw [hfree, hp]
    exact .free (by simp [Conn.goto])
  · rw [outcome_none (.inr (.inl rfl))]
    exact hi.before rfl

/-- `SetSync` -/
theorem TableAt.sync (h : TableAt R s b a n k) (hpc : (s.server.conns i).clerk.pc = .serving)
    (hop : Request.op (s.server.conns i).request = some .sync) :
    ∃ a', Step GroupEffect a [] a' ∧
      TableAt R (s.withServer (s.server.set i ((s.server.conns i).goto .replying))) b a' n k := by
  obtain ⟨hfree, hp, hi⟩ := h.unserved hpc (by rw [hop]; simp)
  obtain ⟨es, r, hr, -⟩ := h.conns i
  obtain ⟨q, -, hcalls, -, hholds⟩ := hr.serving hpc
  have hq := Conn.sync_of_op (hholds.op.symm.trans hop)
  subst hq
  have hwait : (s.server.conns i).client.pc = .waiting .sync := hcalls.resolve_right (by simp)
  refine ⟨_, .effect (hi.waiting hwait) (.sync a.obj), h.set (.sync hpc hop) (fun _ => rfl)
    (fun j hj => Function.update_of_ne hj ..) rfl (.inr ⟨id, by rw [hpc]; exact id⟩) ?_ ?_⟩
  · rw [hfree, hp]
    exact .free (by simp [Conn.goto])
  · rw [outcome_behind (.inr rfl)]
    dsimp only
    rw [Function.update_self]
    exact ClientAt.effect (c := (s.server.conns i).goto .replying) hwait (by simp [Conn.goto]) _

/-- A request is pushed. -/
theorem TableAt.push (h : TableAt R s b a n k) (hpc : (s.server.conns i).clerk.pc = .serving)
    (hlogged : Logged (Request.op (s.server.conns i).request)) :
    TableAt R (s.withServer (s.server.push i)) b a n k := by
  obtain ⟨hfree, hp, hi⟩ := h.unserved hpc hlogged.2.1
  have hout : i ∉ s.server.writersQueue := h.orderly.not_mem (by rw [hpc]; exact id)
  have hmoves : s.server.Moves (besides none) (.serve i) (s.server.push i) := .push hpc hlogged
  obtain ⟨pc, hself, hpc'⟩ : ∃ pc, (s.withServer (s.server.push i)).server.conns i =
      (s.server.conns i).push pc ∧ (pc = .pausing ∨ pc = .waiting) := by
    refine ⟨_, Function.update_self .., ?_⟩
    split
    · exact .inl rfl
    · exact .inr rfl
  refine h.move (i := i) ⟨fun j hj => Function.update_of_ne hj .., fun _ _ => rfl, fun _ _ => rfl,
    fun _ _ => rfl, rfl, rfl, ⟨[i], rfl⟩, fun hmem => absurd hmem hout⟩ h.table rfl rfl
    (h.moves hmoves).1 (h.moves hmoves).2 (.inr ⟨?_, by rw [hpc]; exact id⟩) ?_ ?_
  · rw [hself]
    rcases hpc' with rfl | rfl
    · exact id
    · exact id
  · rw [hself, show (s.withServer (s.server.push i)).work i = .free from hfree, hp]
    refine .free fun w => ?_
    rcases hpc' with rfl | rfl <;> simp [Conn.push]
  · rw [hself]
    have hnone : ((s.server.conns i).push pc).outcome (b.phase i)
        (decide (i ∈ s.server.writersQueue.take n)) = none := by
      rcases hpc' with rfl | rfl
      · exact outcome_none (.inl rfl)
      · rw [outcome_waiting rfl]
        refine if_neg ?_
        simpa [Conn.push] using fun hmem => hout (List.mem_of_mem_take hmem)
    rw [hnone]
    exact hi.before rfl

/-- While a clerk waits at the front of the queue, no batch is under way. -/
theorem TableAt.front_idle (h : TableAt R s b a n k) (hpc : (s.server.conns i).clerk.pc = .waiting)
    (hfront : s.server.writersQueue.head? = some i) : n = 0 := by
  have hno : ∀ j, ¬ (s.server.conns j).clerk.pc.Leads := by
    intro j hj
    have hji : j = i := Option.some.inj ((h.orderly.lead j hj).symm.trans hfront)
    rw [hji, hpc] at hj
    exact hj
  exact (h.reached.eq_idle fun j hj => hno j hj.leads).1

/-- A clerk that waits finds itself done, or at the front, or waits again. -/
theorem TableAt.wake (h : TableAt R s b a n k) (hpc : (s.server.conns i).clerk.pc = .waiting) :
    TableAt R (s.withServer (s.server.wake i)) b a n k := by
  have hi := h.clients i
  have hgo : ∀ c : Conn Nat, (∀ w, c.clerk.pc ≠ .writing w) →
      WorkAt c s.server.batch (s.work i) (b.phase i) :=
    fun _ hc => (h.work i).go (by rw [hpc]; simp) (by rw [hpc]; simp) hc
  rw [outcome_waiting hpc] at hi
  have hmoves : s.server.Moves (besides none) (.wake i) (s.server.wake i) := Server.wake_moves hpc
  unfold Server.wake at hmoves ⊢
  split
  · rename_i hdone
    have hout := h.orderly.not_mem_of_done hpc hdone
    rw [if_pos hdone] at hmoves
    refine h.set hmoves (fun hmem => absurd hmem hout) (fun _ _ => rfl) rfl
      (.inr ⟨id, by rw [hpc]; exact id⟩) (hgo _ (by simp [Conn.replies])) ?_
    rw [hdone, Bool.true_or, if_pos rfl] at hi
    rw [outcome_behind (.inr rfl)]
    exact hi.after rfl fun hrun => absurd hrun (by simp [Conn.replies])
  · rename_i hdone
    rw [if_neg hdone] at hmoves
    split
    · rename_i hfront
      rw [if_pos hfront] at hmoves
      refine h.set hmoves (fun _ => rfl) (fun _ _ => rfl) rfl (.inr ⟨id, by rw [hpc]; exact id⟩)
        (hgo _ (by simp [Conn.goto])) ?_
      rw [h.front_idle hpc hfront, if_neg (by simpa using hdone)] at hi
      rw [outcome_none (.inl rfl)]
      exact hi.before rfl
    · rename_i hfront
      rw [if_neg hfront] at hmoves
      refine h.set hmoves (fun _ => rfl) (fun _ _ => rfl) rfl (.inl rfl)
        ((h.work i).congr rfl rfl) ?_
      have hpc' : (s.server.conns i).sleep.clerk.pc = .waiting := hpc
      rw [outcome_waiting hpc']
      change ClientAt _ (if (s.server.conns i).clerk.done || _ then some _ else none) _
      split at hi
      · rename_i hall
        rw [if_pos hall]
        exact hi.after rfl fun hrun => absurd (hrun.symm.trans hpc') (by simp)
      · rename_i hall
        rw [if_neg hall]
        exact hi.before rfl

/-- A clerk posts its reply. -/
theorem TableAt.reply (h : TableAt R s b a n k) (hpc : (s.server.conns i).clerk.pc = .replying) :
    TableAt R (s.withServer (s.server.set i (((s.server.conns i).setLink
      (s.server.conns i).link.answer).goto .running))) b a n k := by
  have hi := h.clients i
  obtain ⟨es, r, hr, -⟩ := h.conns i
  obtain ⟨q, -, -, -, hl⟩ := hr.works (by rw [hpc]; simp) (by rw [hpc]; simp)
  rw [outcome_behind (.inr hpc)] at hi
  refine h.set (.reply hpc) (fun _ => rfl) (fun _ _ => rfl) rfl (.inr ⟨id, by rw [hpc]; exact id⟩)
    ((h.work i).go (by rw [hpc]; simp) (by rw [hpc]; simp) (by simp [Conn.goto])) ?_
  have hreply : (((s.server.conns i).setLink (s.server.conns i).link.answer).goto .running).outcome
      (b.phase i) (decide (i ∈ s.server.writersQueue.take n)) = some (s.server.conns i).request :=
    outcome_running rfl hl.answer.toClerk hl.answer.clerk_flag
  rw [hreply]
  exact hi.after rfl fun _ => hl.answer

/-- A clerk returns from `Run`. -/
theorem TableAt.leave (h : TableAt R s b a n k) (hpc : (s.server.conns i).clerk.pc = .closing)
    (hclosed : (s.server.conns i).client.pc = .closed) :
    TableAt R (s.withServer (s.server.set i ((s.server.conns i).goto .closed))) b a n k := by
  have hi := h.clients i
  rw [outcome_none (.inr (.inl hpc))] at hi
  refine h.set (.leave hpc hclosed) (fun _ => rfl) (fun _ _ => rfl) rfl
    (.inr ⟨id, by rw [hpc]; exact id⟩)
    ((h.work i).go (by rw [hpc]; simp) (by rw [hpc]; simp) (by simp [Conn.goto])) ?_
  rw [outcome_none (.inr (.inr rfl))]
  exact hi.before rfl

/-! ## Steps of a leader -/

/-- Nobody but the leader leads. -/
theorem TableAt.others (h : TableAt R s b a n k) (hpc : (s.server.conns i).clerk.pc.Leads)
    {j : Nat} (hj : j ≠ i) : ¬ (s.server.conns j).clerk.pc.Leads :=
  fun hlead => hj (h.orderly.one_leader hlead hpc)

/-- A clerk that is not in `PutBatch` has nothing to do with the batch. -/
theorem WorkAt.rebatch {c : Conn Nat} {batch : WriteBatch} {w : Work}
    {p : Phase (Cuckoo.Call Bytes Bytes) (Cuckoo.Ret Bytes)} (h : WorkAt c batch w p)
    (hpc : ¬ c.clerk.pc.Leads) (batch' : WriteBatch) : WorkAt c batch' w p := by
  cases h with
  | free hno => exact .free hno
  | finding hserving hop hcall => exact .finding hserving hop hcall
  | looping hwriting => exact absurd (by rw [hwriting]; trivial) hpc
  | inserting hwriting => exact absurd (by rw [hwriting]; trivial) hpc

/-- The buffer of a batch holds the requests of its group. -/
theorem build_bytes {request : Nat → Mem} {batch batch' : WriteBatch} {queue : List Nat} {w : Nat}
    (h : buildBatchGroup request batch queue = (batch', some w))
    (hshort : ∀ j ∈ queue, Request.NoWrap (request j)) :
    batch'.bytes = (queue.take batch'.keys.length).flatMap fun j => requestBytes (request j) := by
  obtain ⟨grp, rest, rfl, -, hbuild, -⟩ := buildBatchGroup_eq request batch queue
  rw [hbuild] at h
  obtain ⟨rfl, -⟩ := Prod.mk.inj h
  have hlen : (gather request batch.clear grp).keys.length = grp.length := by
    rw [gather_keys]
    simp [WriteBatch.clear]
  rw [hlen, List.take_left' rfl, gather_bytes]
  show [] ++ grp.flatMap _ = _
  rw [List.nil_append]
  refine List.flatMap_congr fun j hj => ?_
  rw [Request.length_eq (hshort j (List.mem_append_left rest hj))]
  rfl

/-- The requests on the queue are those of clients, and short. -/
theorem TableAt.noWrap (h : TableAt R s b a n k) :
    ∀ j ∈ s.server.writersQueue, Request.NoWrap (s.server.conns j).request := by
  intro j hj
  obtain ⟨es, hes⟩ := h.conns j
  obtain ⟨q, -, -, hholds, -⟩ := Server.pending_call hes ((h.orderly.mem j).mp hj)
  exact hholds.noWrap

/-- The leader goes on, and the others are as before. -/
theorem TableAt.lead (h : TableAt R s b a n k) {x : Server Nat LogFileDB} {w : Work}
    {k' : Nat} (pc : ClerkPc Nat) (hlead : (s.server.conns i).clerk.pc.Leads)
    (hmoves : s.server.Moves (besides none) l x)
    (hconns : x.conns = (s.server.set i ((s.server.conns i).goto pc)).conns)
    (hqueue : x.writersQueue = s.server.writersQueue)
    (hreached : TableServer.Reached ⟨x, Function.update s.work i w, s.table⟩ b n k')
    (hwork : WorkAt ((s.server.conns i).goto pc) x.batch w (b.phase i))
    (hclient : ClientAt ((s.server.conns i).goto pc) (((s.server.conns i).goto pc).outcome
      (b.phase i) (decide (i ∈ s.server.writersQueue.take n))) (a.phase i))
    (hlogs : x.Logs a.obj k') : TableAt R ⟨x, Function.update s.work i w, s.table⟩ b a n k' := by
  obtain ⟨horderly, hfollows⟩ := h.moves hmoves
  have hself : x.conns i = (s.server.conns i).goto pc := by
    rw [hconns, Server.set_self]
  have hother : ∀ j, j ≠ i → x.conns j = s.server.conns j := by
    intro j hj
    rw [hconns, Server.set_other s.server _ hj]
  refine ⟨h.table, h.obj, horderly, hfollows, fun j => ?_, hreached, fun j => ?_, hlogs⟩
  · dsimp only
    by_cases hj : j = i
    · rw [hj, hself, Function.update_self]
      exact hwork
    · rw [hother j hj, Function.update_of_ne hj]
      exact (h.work j).rebatch (h.others hlead hj) x.batch
  · dsimp only
    rw [hqueue]
    by_cases hj : j = i
    · rw [hj, hself]
      exact hclient
    · rw [hother j hj]
      exact h.clients j

theorem requests_goto (x : Server Nat LogFileDB) (i n : Nat) (pc : ClerkPc Nat) :
    (x.set i ((x.conns i).goto pc)).requests n = x.requests n :=
  List.flatMap_congr fun j _ => congrArg requestBytes (x.goto_request i j pc)

/-- The leader builds its batch and calls `PutBatch`. -/
theorem TableAt.build (h : TableAt R s b a n k) {batch : WriteBatch} {w : Nat}
    (hpc : (s.server.conns i).clerk.pc = .pausing)
    (hbuild : buildBatchGroup (fun j => (s.server.conns j).request) s.server.batch
      s.server.writersQueue = (batch, some w)) :
    TableAt R ⟨(s.server.set i ((s.server.conns i).goto (.writing w))).setBatch batch,
      Function.update s.work i (.looping 0), s.table⟩ b a 0 0 := by
  have hlead : (s.server.conns i).clerk.pc.Leads := by
    rw [hpc]
    trivial
  have hno : ∀ j, ¬ (s.server.conns j).clerk.pc.Writes := by
    intro j hj
    by_cases hji : j = i
    · rw [hji, hpc] at hj
      exact hj
    · exact h.others hlead hji hj.leads
  obtain ⟨rfl, rfl⟩ := h.reached.eq_idle hno
  obtain ⟨-, hp⟩ := (h.work i).free_of_pc (by rw [hpc]; simp) (by rw [hpc]; simp)
  refine h.lead (.writing w) hlead (.build hpc hbuild) rfl rfl ?_ ?_ ?_
    ⟨fun _ _ => ?_, h.logs.log⟩
  · have hreached := TableServer.Reached.writing (i := i) (w := w) (b := b)
      (s := ⟨(s.server.set i ((s.server.conns i).goto (.writing w))).setBatch batch,
        Function.update s.work i (.looping 0), s.table⟩)
      (congrArg (fun c => c.clerk.pc) (Server.set_self s.server i _))
    dsimp only at hreached
    rw [Function.update_self] at hreached
    exact hreached
  · rw [hp]
    exact .looping (w := w) rfl (Nat.zero_le _)
  · have hi := h.clients i
    rw [outcome_none (.inl hpc)] at hi
    rw [outcome_writing (w := w) rfl, if_neg (by simp)]
    exact hi.before rfl
  · exact (build_bytes hbuild h.noWrap).trans (requests_goto s.server i _ _).symm

/-- Behind the loop, `PutBatch` appends its buffer to the log and returns. -/
theorem TableAt.putBatch (h : TableAt R s b a n k) {w r : Nat}
    (hpc : (s.server.conns i).clerk.pc = .writing w) (hloop : s.work i = .looping r)
    (hend : ¬ r < s.server.batch.keys.length) :
    TableAt R ⟨(s.server.set i ((s.server.conns i).goto (.written w))).setDb
      (s.server.db.putBatch s.server.batch.bytes), Function.update s.work i .free, s.table⟩ b a
      s.server.batch.keys.length 0 := by
  have hwrites : (s.server.conns i).clerk.pc.Writes := by
    rw [hpc]
    trivial
  have hbytes := h.logs.bytes i hwrites
  obtain ⟨hn, rfl⟩ := h.reached.eq_writing h.orderly hpc
  have hw := h.work i
  rw [hloop] at hn hw
  have hr : k = r := hn
  generalize hp : b.phase i = p at hw
  cases hw with
  | looping _ hle =>
    have hall : k = s.server.batch.keys.length := by omega
    subst hall
    refine h.lead (.written w) hwrites.leads (.putBatch hpc) rfl rfl
      (.written (i := i) (w := w) (congrArg (fun c => c.clerk.pc) (Server.set_self s.server i _)))
      ?_ ?_ ⟨fun _ _ => ?_, ?_⟩
    · rw [hp]
      exact .free (by simp [Conn.goto])
    · have hi := h.clients i
      have hmem : i ∈ s.server.writersQueue.take s.server.batch.keys.length :=
        h.orderly.leader_mem (.inl hpc)
      rw [outcome_writing hpc, if_pos (decide_eq_true hmem)] at hi
      rw [outcome_behind (.inl ⟨w, rfl⟩)]
      exact hi.after rfl fun hrun => absurd hrun (by simp [Conn.goto])
    · exact hbytes.trans (requests_goto s.server i _ _).symm
    · obtain ⟨qs, hlogged, hobj, hlog⟩ := h.logs.log
      refine ⟨qs, hlogged, hobj, ?_⟩
      rw [← hbytes] at hlog
      exact (List.append_nil _).trans hlog

theorem notify_link (x : Server Nat LogFileDB) (queue marked : List Nat) (j : Nat) :
    ((x.notify queue marked).conns j).link = (x.conns j).link := by
  show (if j ∈ marked then _ else _ : Conn Nat).link = _
  split
  · rfl
  · split <;> rfl

/-- The leader takes its group off the queue. -/
theorem TableAt.complete (h : TableAt R s b a n k) {w : Nat} {queue marked : List Nat}
    (hpc : (s.server.conns i).clerk.pc = .written w)
    (hloop : completeLoop i w s.server.writersQueue = some (queue, marked)) :
    TableAt R (s.withServer ((s.server.set i ((s.server.conns i).goto .replying)).notify
      queue marked)) b a 0 0 := by
  have hmoves : s.server.Moves (besides none) (.complete i) _ := .complete hpc hloop
  obtain ⟨horderly, hconns⟩ := h.moves hmoves
  obtain ⟨-, -, hmarked⟩ := h.orderly.complete hpc hloop
  obtain ⟨rfl, rfl⟩ := h.reached.eq_written h.orderly hpc
  have hlead : (s.server.conns i).clerk.pc.Leads := by
    rw [hpc]
    trivial
  set x := s.server.set i ((s.server.conns i).goto .replying) with hx
  have hself : x.conns i = (s.server.conns i).goto .replying := Server.set_self s.server i _
  have hother : ∀ j, j ≠ i → x.conns j = s.server.conns j :=
    fun j hj => Server.set_other s.server _ hj
  have hpc' : ∀ j, ((x.notify queue marked).conns j).clerk.pc = (x.conns j).clerk.pc :=
    x.notify_pc queue marked
  have hlink := notify_link x queue marked
  have hclient := x.notify_client queue marked
  have hno : ∀ j, ¬ ((x.notify queue marked).conns j).clerk.pc.Writes := by
    intro j hj
    rw [hpc' j] at hj
    by_cases hji : j = i
    · subst hji
      rw [hself] at hj
      exact hj
    · rw [hother j hji] at hj
      exact h.others hlead hji hj.leads
  refine ⟨h.table, h.obj, horderly, hconns, fun j => ?_, .idle hno, fun j => ?_,
    fun j hj => absurd hj (hno j), h.logs.log⟩
  · refine WorkAt.congr (c := x.conns j) ?_ (hpc' j) (x.notify_request queue marked j)
    by_cases hj : j = i
    · subst hj
      rw [hself]
      exact (h.work j).go (by rw [hpc]; simp) (by rw [hpc]; simp) (by simp [Conn.goto])
    · rw [hother j hj]
      exact h.work j
  · have hj := h.clients j
    change ClientAt ((x.notify queue marked).conns j) (((x.notify queue marked).conns j).outcome
      (b.phase j) (decide (j ∈ queue.take 0))) _
    by_cases hji : j = i
    · subst hji
      have hreplying : ((x.notify queue marked).conns j).clerk.pc = .replying := by
        rw [hpc' j, hself]
        rfl
      have hreq : ((x.notify queue marked).conns j).request = (s.server.conns j).request := by
        rw [x.notify_request, hself]
        rfl
      rw [outcome_behind (.inl ⟨w, hpc⟩)] at hj
      rw [outcome_behind (.inr hreplying), hreq]
      refine hj.after ?_ fun hrun => absurd (hrun.symm.trans hreplying) (by simp)
      rw [hclient j, hself]
      rfl
    · have hnot : ∀ w, (s.server.conns j).clerk.pc ≠ .writing w := by
        intro w' hwriting
        exact h.others hlead hji (by rw [hwriting]; trivial)
      have hsame := hother j hji
      have hout : ((x.notify queue marked).conns j).outcome (b.phase j)
          (decide (j ∈ queue.take 0)) = (s.server.conns j).outcome (b.phase j)
            (decide (j ∈ s.server.writersQueue.take s.server.batch.keys.length)) := by
        refine outcome_congr ((hpc' j).trans (by rw [hsame])) ((hlink j).trans (by rw [hsame]))
          (fun _ => ?_) hnot
        rw [x.notify_done, hsame]
        by_cases hmem : j ∈ s.server.writersQueue.take s.server.batch.keys.length
        · rw [if_pos ((hmarked j).mpr ⟨hmem, hji⟩), decide_eq_true hmem]
          simp
        · rw [if_neg fun hm => hmem ((hmarked j).mp hm).1, decide_eq_false hmem]
          simp
      rw [hout]
      exact hj.congr ((hclient j).trans (by rw [hsame])) ((hpc' j).trans (by rw [hsame]))
        ((hlink j).trans (by rw [hsame]))

/-- A step of the front end. -/
theorem TableAt.front {O : Object ω ℓ (Cuckoo.Call Bytes Bytes) (Cuckoo.Ret Bytes)}
    {s' : TableServer ω} (h : TableAt R s b a n k) (hstep : s.step O (.front l) = some s') :
    ∃ a' n' k', Step GroupEffect a (s.server.seen l) a' ∧ TableAt R s' b a' n' k' := by
  obtain ⟨work, hwork, hstep⟩ := Option.bind_eq_some_iff.mp hstep
  obtain ⟨x, hx, rfl⟩ := Option.map_eq_some_iff.mp hstep
  cases Server.step_moves hx with
  | call hidle =>
    cases hwork
    obtain ⟨hphase, hcall⟩ := h.call hidle
    exact ⟨_, n, k, .invoke _ hphase, hcall⟩
  | client hp =>
    cases hwork
    obtain ⟨a', hone, hclient⟩ := h.client hp
    exact ⟨a', n, k, hone, hclient⟩
  | toClerk hk =>
    cases hwork
    exact ⟨a, n, k, .stay a, h.toClerk hk⟩
  | toClient hk =>
    cases hwork
    exact ⟨a, n, k, .stay a, h.toClient hk⟩
  | take hpc hflag =>
    cases hwork
    exact ⟨a, n, k, .stay a, h.take hpc hflag⟩
  | close hpc hop =>
    rw [TableServer.works, if_neg (by rw [hop]; simp)] at hwork
    cases hwork
    exact ⟨a, n, k, .stay a, h.close hpc hop⟩
  | get db hpc hop =>
    rw [TableServer.works, if_pos hop] at hwork
    cases hwork
  | sync hpc hop =>
    rw [TableServer.works, if_neg (by rw [hop]; simp)] at hwork
    cases hwork
    obtain ⟨a', hone, hsync⟩ := h.sync hpc hop
    exact ⟨a', n, k, hone, hsync⟩
  | push hpc hlogged =>
    rw [TableServer.works, if_neg hlogged.2.1] at hwork
    cases hwork
    exact ⟨a, n, k, .stay a, h.push hpc hlogged⟩
  | @done i hpc hdone =>
    cases hwork
    have hwake := h.wake hpc
    rw [Server.wake, if_pos hdone] at hwake
    exact ⟨a, n, k, .stay a, hwake⟩
  | lead hpc hdone hfront =>
    cases hwork
    have hwake := h.wake hpc
    rw [Server.wake, if_neg (by rw [hdone]; simp), if_pos hfront] at hwake
    exact ⟨a, n, k, .stay a, hwake⟩
  | sleep hpc hdone hfront =>
    cases hwork
    have hwake := h.wake hpc
    rw [Server.wake, if_neg (by rw [hdone]; simp), if_neg hfront] at hwake
    exact ⟨a, n, k, .stay a, hwake⟩
  | build hpc hbuild =>
    cases hwork
    exact ⟨a, 0, 0, .stay a, h.build hpc hbuild⟩
  | @putBatch i w hpc =>
    cases hloop : s.work i with
    | looping r =>
      rw [TableServer.works, hloop] at hwork
      dsimp only at hwork
      split at hwork
      · cases hwork
      · rename_i hend
        cases hwork
        exact ⟨a, _, 0, .stay a, h.putBatch hpc hloop hend⟩
    | _ =>
      rw [TableServer.works, hloop] at hwork
      cases hwork
  | complete hpc hloop =>
    cases hwork
    exact ⟨a, 0, 0, .stay a, h.complete hpc hloop⟩
  | reply hpc =>
    cases hwork
    exact ⟨a, n, k, .stay a, h.reply hpc⟩
  | leave hpc hclosed =>
    cases hwork
    exact ⟨a, n, k, .stay a, h.leave hpc hclosed⟩

end Front

end LogDirect.Group
