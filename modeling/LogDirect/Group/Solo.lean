import LogDirect.Group.Progress

/-!
# A group of one

With a single client every group is one request, and the calls that returned and
the store are those of calls made one after the other by `solo`: like those of the
sync front end, but for `SendDelete`. The group front end logs a `DELETE` as a
record with an empty value; the leader of a group leaves the reply as it finds it,
so the client takes the header of its own request for the reply.
-/

namespace LogDirect.Group

open Lib Exchange
open Sync (Client Seen clip reply body Done requestVal)

/-! ## Calls on a finite map -/

/-- A call through a group of one. -/
def solo (db : DB) : Call → Ret × DB
  | .write r => (.done, Function.update db r.key (some r.val))
  | .get k => (.value ((db k.bytes).map clip), db)
  | .sync => (.done, db)
  | .delete k => (.deleted false, Function.update db k.bytes (some []))
  | .close => (.done, db)

/-- A request to delete is no reply with status `OK`. -/
theorem isOk_delete {m : Mem} {k : Key}
    (h : m.read 0 (body (.delete k)).length = body (.delete k)) : Reply.isOk m = false := by
  have hop := Mem.read_left (leBytes 1 Operation.delete.code)
    (leBytes 3 k.bytes.length ++ leBytes 4 0 ++ k.bytes)
    (by simpa [body, Request.header] using h)
  rw [length_leBytes] at hop
  have hword : m.read 0 4 = leBytes 1 Operation.delete.code ++ m.read 1 3 := by
    rw [← hop]
    exact Mem.read_add m 0 1 3
  have hne : leNat (m.read 0 4) ≠ RequestStatus.ok.code := by
    rw [hword]
    show leNat ([3] ++ m.read 1 3) ≠ 0
    simp [leNat]
  simpa [Reply.isOk] using hne

/-- The status `NOTFOUND` is not `OK`. -/
theorem isOk_notFound (m : Mem) :
    Reply.isOk (m.write 0 (leBytes 4 RequestStatus.notFound.code)) = false := by
  have hread := Mem.read_write m 0 (leBytes 4 RequestStatus.notFound.code)
  rw [length_leBytes] at hread
  unfold Reply.isOk
  rw [hread]
  decide

/-- The pair of a request to be logged. -/
theorem solo_logged {q : Call} (hq : LoggedCall q) (db : DB) :
    (solo db q).2 = Function.update db (Seen.ofCall q).key (some (Seen.ofCall q).val) := by
  cases q with
  | write r => rfl
  | delete k => rfl
  | get k => exact absurd rfl hq.2.1
  | sync => exact absurd rfl hq.2.2
  | close => exact absurd rfl hq.1

/-- What the leader's client takes for its reply. -/
theorem solo_ret {q : Call} (hq : LoggedCall q) {m : Mem}
    (h : m.read 0 (body q).length = body q) (db : DB) : q.ret m = (solo db q).1 := by
  cases q with
  | write r => rfl
  | delete k => exact congrArg Ret.deleted (isOk_delete h)
  | get k => exact absurd rfl hq.2.1
  | sync => exact absurd rfl hq.2.2
  | close => exact absurd rfl hq.1

variable {ι : Type}

/-! ## A connection nobody else disturbs -/

namespace Conn

/-- The call the client waits in is through. -/
def Executed (c : Conn ι) : Prop :=
  match c.clerk.pc with
  | .running => c.link.toClerk = [] ∧ c.link.clerk.header = clerkDone
  | .written _ => True
  | .replying => True
  | .serving => False
  | .waiting => False
  | .pausing => False
  | .writing _ => False
  | .closing => False
  | .closed => False

/-- The calls that returned and the store are those of `solo`; a call that is through has
the result in the clerk's message area. -/
structure Alone (db₀ : DB) (qs : List Call) (c : Conn ι) (db : DB) : Prop where
  goes : c.clerk.pc ≠ .waiting
  idle : c.client.pc = .idle → Done solo db₀ qs c.client.history db
  before : ∀ q, c.Calls q → ¬ c.Executed →
    ∃ qs', qs = qs' ++ [q] ∧ Done solo db₀ qs' c.client.history db
  after : ∀ q, c.client.pc = .waiting q → c.Executed →
    Done solo db₀ qs (c.client.history ++ [(q, q.ret c.request)]) db
  reply : ∀ q, c.client.pc = .waiting q → c.clerk.pc = .running → c.Executed →
    c.link.Answered (Reply.wire c.request)

variable {db₀ db : DB} {qs : List Call} {c c' : Conn ι} {es : List (Event Seen Bytes)}

theorem not_executed (hpc : c.clerk.pc = .serving ∨ c.clerk.pc = .pausing ∨
    (∃ w, c.clerk.pc = .writing w) ∨ c.clerk.pc = .closing ∨ c.clerk.pc = .closed) :
    ¬ c.Executed := by
  unfold Executed
  rcases hpc with h | h | ⟨w, h⟩ | h | h <;> rw [h] <;> exact id

theorem executed (hpc : (∃ w, c.clerk.pc = .written w) ∨ c.clerk.pc = .replying) : c.Executed := by
  unfold Executed
  rcases hpc with ⟨w, h⟩ | h <;> rw [h] <;> trivial

/-- The clerk goes on with a call that is not through. -/
theorem Alone.keep_before (h : c.Alone db₀ qs db) (c' : Conn ι) (hclient : c'.client = c.client)
    (hbefore : ¬ c.Executed) (hafter : ¬ c'.Executed) (hgoes : c'.clerk.pc ≠ .waiting) :
    c'.Alone db₀ qs db := by
  refine ⟨hgoes, ?_, ?_, fun _ _ he => absurd he hafter, fun _ _ _ he => absurd he hafter⟩
  · rw [hclient]
    exact h.idle
  · intro q hq _
    rw [Calls, hclient] at hq
    rw [hclient]
    exact h.before q hq hbefore

/-- The clerk goes on with a call that is through. -/
theorem Alone.keep_after (h : c.Alone db₀ qs db) (c' : Conn ι) (hclient : c'.client = c.client)
    (hreq : c'.request = c.request) (hbefore : c.Executed) (hafter : c'.Executed)
    (hgoes : c'.clerk.pc ≠ .waiting)
    (hreply : c'.clerk.pc = .running → c'.link.Answered (Reply.wire c'.request)) :
    c'.Alone db₀ qs db := by
  refine ⟨hgoes, ?_, fun _ _ he => absurd hafter he, ?_, fun _ _ hr _ => hreply hr⟩
  · rw [hclient]
    exact h.idle
  · intro q hq _
    rw [hclient] at hq
    rw [hclient, hreq]
    exact h.after q hq hbefore

/-- The clerk puts a call through. -/
theorem Alone.execute (h : c.Alone db₀ qs db) (c' : Conn ι) {q : Call} (hc : c.Calls q)
    (hq : q ≠ .close) (hclient : c'.client = c.client) (hbefore : ¬ c.Executed) {db' : DB}
    (hafter : (∃ w, c'.clerk.pc = .written w) ∨ c'.clerk.pc = .replying)
    (hsolo : solo db q = (q.ret c'.request, db')) : c'.Alone db₀ qs db' := by
  have hwait : c.client.pc = .waiting q := by
    rcases hc with hc | ⟨hclose, -⟩
    · rw [hc, Sync.ofCall_of_ne hq]
    · exact absurd hclose hq
  refine ⟨?_, ?_, fun _ _ he => absurd (executed hafter) he, ?_, ?_⟩
  · rcases hafter with ⟨w, hpc⟩ | hpc <;> rw [hpc] <;> simp
  · intro hidle
    rw [hclient, hwait] at hidle
    cases hidle
  · intro q' hq' _
    rw [hclient, hwait] at hq'
    cases hq'
    obtain ⟨qs', rfl, hdone⟩ := h.before q hc hbefore
    rw [hclient]
    exact hdone.snoc hsolo
  · intro q' _ hrun
    rcases hafter with ⟨w, hpc⟩ | hpc <;> rw [hpc] at hrun <;> cases hrun

/-- The client enters a call. -/
theorem Alone.call (h : c.Alone db₀ qs db) (hf : c.Follows es) (hidle : c.client.pc = .idle)
    (q : Call) :
    (c.setClient (Sync.GroupClient.send c.client c.link q)).Alone db₀ (qs ++ [q]) db := by
  have hpc := hf.idle_pc hidle
  have hnot : ¬ (c.setClient (Sync.GroupClient.send c.client c.link q)).Executed := by
    rw [Executed, show (c.setClient (Sync.GroupClient.send c.client c.link q)).clerk.pc =
      .running from hpc]
    rintro ⟨hnil, -⟩
    exact absurd hnil (by simp [setClient, Sync.GroupClient.send, Sync.post])
  refine ⟨h.goes, ?_, ?_, fun _ _ he => absurd he hnot, fun _ _ _ he => absurd he hnot⟩
  · intro hidle'
    exact absurd hidle' (Sync.ofCall_ne_idle q)
  · intro q' hq' _
    have hq' : q' = q := by
      rcases hq' with hq' | ⟨-, hq'⟩
      · exact (Sync.ofCall_inj hq').symm
      · exact absurd hq' (Sync.ofCall_ne_closed q)
    rw [hq']
    exact ⟨qs, rfl, h.idle hidle⟩

/-- The client returns from a call, or closes. -/
theorem Alone.client (h : c.Alone db₀ qs db) (hf : c.Follows es) {p : Client × Link}
    (hp : c.client.resume c.link = some p) : (c.setClient p).Alone db₀ qs db := by
  obtain ⟨cl, k⟩ := p
  obtain ⟨hnil, ⟨q, hpc, hflag, rfl, rfl⟩ | ⟨hpc, rfl, rfl⟩⟩ := Sync.Client.resume_inv hp
  · -- the reply it reads is that of the call
    have hrun : c.clerk.pc = .running :=
      (hf.resume_pc hp).resolve_right fun hno => hno.1 q hpc
    have hclerk : c.link.clerk.header = clerkDone := by
      obtain ⟨r, hr, -⟩ := hf
      cases r with
      | rest => exact nomatch hr.1.symm.trans hpc
      | asked x =>
        obtain ⟨q', -, -, ⟨-, hl⟩ | ⟨-, hl, -⟩⟩ := hr
        · exact absurd (hflag.symm.trans hl.client_flag) clerkDone_ne_clientDone
        · exact absurd (hflag.symm.trans hl.client_flag) clerkDone_ne_clientDone
      | taken x =>
        obtain ⟨q', -, -, -, hl⟩ := hr
        exact absurd (hflag.symm.trans hl.client_flag) clerkDone_ne_clientDone
      | answered x a =>
        obtain ⟨q', m, -, -, -, -, hl⟩ := hr
        exact hl.clerk_flag
    have hexec : c.Executed := by
      rw [Executed, hrun]
      exact ⟨hnil, hclerk⟩
    have hanswer := h.reply q hpc hrun hexec
    have hread := (hanswer.flag (hanswer.arrived hflag)).2
    refine ⟨h.goes, ?_, ?_, ?_, ?_⟩
    · intro _
      show Done solo db₀ qs (c.client.history ++ [(q, q.ret c.link.client.msg)]) db
      rw [q.ret_of_wire hread]
      exact h.after q hpc hexec
    · intro q' hq'
      exact absurd rfl hq'.not_idle
    · intro q' hq'
      cases hq'
    · intro q' hq'
      cases hq'
  · refine ⟨h.goes, ?_, ?_, ?_, ?_⟩
    · intro hidle
      cases hidle
    · intro q' hq' hnot
      have hq' : q' = .close := by
        rcases hq' with hq' | ⟨hq', -⟩
        · exact absurd hq'.symm (Sync.ofCall_ne_closed q')
        · exact hq'
      rw [hq']
      exact h.before .close (.inl hpc) hnot
    · intro q' hq'
      cases hq'
    · intro q' hq'
      cases hq'

theorem Alone.toClerk (h : c.Alone db₀ qs db) (hf : c.Follows es) {k : Link}
    (hk : c.link.deliverClerk = some k) : (c.setLink k).Alone db₀ qs db := by
  obtain ⟨w, ws, hq, -⟩ := Link.deliverClerk_inv hk
  obtain ⟨r, hr, -⟩ := hf
  cases r with
  | rest => exact nomatch hr.2.2.toClerk.symm.trans hq
  | asked x =>
    obtain ⟨q, -, -, ⟨hpc, hl⟩ | ⟨-, hl, -⟩⟩ := hr
    · refine h.keep_before _ rfl ?_ ?_ h.goes
      · rw [Executed, hpc]
        rintro ⟨hnil, -⟩
        exact nomatch hnil.symm.trans hq
      · rw [Executed, show (c.setLink k).clerk.pc = .running from hpc]
        rintro ⟨hnil, hflag⟩
        exact clerkDone_ne_clientDone (hflag.symm.trans ((hl.deliver hk).flag hnil))
    · exact nomatch hl.toClerk.symm.trans hq
  | taken x =>
    obtain ⟨q, -, -, -, hl⟩ := hr
    exact nomatch hl.toClerk.symm.trans hq
  | answered x a =>
    obtain ⟨q, m, -, -, -, -, hl⟩ := hr
    exact nomatch hl.toClerk.symm.trans hq

theorem Alone.toClient (h : c.Alone db₀ qs db) {k : Link}
    (hk : c.link.deliverClient = some k) : (c.setLink k).Alone db₀ qs db := by
  have hkeep := hk
  obtain ⟨w, ws, hq, rfl⟩ := Link.deliverClient_inv hk
  refine ⟨h.goes, h.idle, h.before, h.after, ?_⟩
  intro q hpc hrun hexec
  exact (h.reply q hpc hrun hexec).deliver hkeep

/-- Only `SendClose` makes the clerk leave its loop. -/
theorem Alone.not_closing (h : c.Alone db₀ qs db) (hf : c.Follows es) (hno : Call.close ∉ qs) :
    ¬ (c.clerk.pc = .closing ∨ c.clerk.pc = .closed) := by
  intro hpc
  obtain ⟨r, hr, -⟩ := hf
  obtain ⟨q, -, hc, hw, -⟩ := hr.works (by rcases hpc with hpc | hpc <;> rw [hpc] <;> simp)
    (by rcases hpc with hpc | hpc <;> rw [hpc] <;> simp)
  have hq : q = .close := by
    rw [Works] at hw
    rcases hpc with hpc | hpc <;> rw [hpc] at hw <;> exact hw
  rw [hq] at hc
  obtain ⟨qs', rfl, -⟩ := h.before .close hc (not_executed (.inr (.inr (.inr hpc))))
  exact hno (by simp)

theorem Alone.take (h : c.Alone db₀ qs db) (hpc : c.clerk.pc = .running)
    (hflag : c.link.clerk.header = clientDone) :
    ((c.setLink c.link.take).goto .serving).Alone db₀ qs db := by
  refine h.keep_before _ rfl ?_ (not_executed (.inl rfl)) (by simp [goto])
  rw [Executed, hpc]
  rintro ⟨-, hdone⟩
  exact clerkDone_ne_clientDone (hdone.symm.trans hflag)

/-- The clerk posts the reply. -/
theorem Alone.answer (h : c.Alone db₀ qs db) (hf : c.Follows es) (hpc : c.clerk.pc = .replying) :
    ((c.setLink c.link.answer).goto .running).Alone db₀ qs db := by
  obtain ⟨r, hr, -⟩ := hf
  obtain ⟨q, -, -, -, hl⟩ := hr.works (by rw [hpc]; simp) (by rw [hpc]; simp)
  have hanswer := hl.answer
  refine h.keep_after _ rfl rfl (executed (.inr hpc)) ⟨hanswer.toClerk, hanswer.clerk_flag⟩
    (by simp [goto]) fun _ => hanswer

end Conn

theorem Conn.get_of_op {q : Call} (h : (Seen.ofCall q).op = some .get) : ∃ k, q = .get k := by
  cases q with
  | get k => exact ⟨k, rfl⟩
  | write r => rcases r.isWrite with hr | hr <;> rw [Seen.ofCall, hr] at h <;> cases h
  | sync | delete | close => cases h

theorem Conn.sync_of_op {q : Call} (h : (Seen.ofCall q).op = some .sync) : q = .sync := by
  cases q with
  | sync => rfl
  | write r => rcases r.isWrite with hr | hr <;> rw [Seen.ofCall, hr] at h <;> cases h
  | get | delete | close => cases h

/-! ## Runs of one client -/

namespace Server

variable {db₀ : DB} {qs : List Call} {s s' : Server Unit DB}

/-- The batch of a single clerk. -/
theorem Orderly.entries_one (ho : s.Orderly) {w : Unit} (h : s.Grouped w) :
    s.batch.entries = [(Request.key (s.conns ()).request, requestVal (s.conns ()).request)] := by
  have hone : s.writersQueue.take s.batch.keys.length = [()] := by
    have hnodup := ho.nodup.sublist (List.take_sublist s.batch.keys.length s.writersQueue)
    have hlast := h.last
    revert hnodup hlast
    generalize s.writersQueue.take s.batch.keys.length = ws
    intro hnodup hlast
    match ws with
    | [] => cases hlast
    | [()] => rfl
    | () :: () :: ws => exact absurd hnodup (by simp)
  rw [h.entries, hone]
  rfl

/-- `PutBatch` of a group of one. -/
theorem putBatch_solo (ho : s.Orderly) {q : Call} {w : Unit} (h : s.Grouped w) (hq : LoggedCall q)
    (hholds : (s.conns ()).Holds q) :
    solo s.db q = (q.ret (s.conns ()).request,
      DB.putBatch s.db s.batch.keys s.batch.dbIndexes s.batch.bytes) := by
  have hput : DB.putBatch s.db s.batch.keys s.batch.dbIndexes s.batch.bytes =
      replay s.db (s.batch.entries.map fun p => (p.1, some p.2)) := by
    rw [DB.putBatch, WriteBatch.entries, List.map_map]
    rfl
  refine Prod.ext (solo_ret hq hholds s.db).symm ?_
  rw [hput, ho.entries_one h, solo_logged hq, ← hholds.seen]
  rfl

/-- A `GET`. -/
theorem get_solo (s : Server Unit DB) (k : Key)
    (hkey : Request.key (s.conns ()).request = k.bytes) :
    ∃ m, s.get DB.dbType () = (s.set () ((s.conns ()).replies m)).setDb s.db ∧
      solo s.db (.get k) = ((Call.get k).ret m, s.db) := by
  cases hget : s.db k.bytes with
  | none =>
    refine ⟨(s.conns ()).request.write 0 (leBytes 4 RequestStatus.notFound.code), ?_, ?_⟩
    · have hdb : DB.dbType.get s.db (Request.key (s.conns ()).request) = (none, s.db) := by
        rw [hkey, ← hget]
        rfl
      rw [Server.get, hdb]
    · rw [solo, hget, Call.ret, isOk_notFound]
      rfl
  | some v =>
    refine ⟨reply (s.conns ()).request .ok v.length (clip v), ?_, ?_⟩
    · have hdb : DB.dbType.get s.db (Request.key (s.conns ()).request) = (some v, s.db) := by
        rw [hkey, ← hget]
        rfl
      rw [Server.get, hdb]
    · obtain ⟨hok, hval⟩ := Sync.ret_reply (s.conns ()).request .ok v
      rw [solo, hget, Call.ret, hok, hval]
      rfl

theorem notify_keeps (s : Server Unit DB) (queue marked : List Unit) (j : Unit) :
    ((s.notify queue marked).conns j).client = (s.conns j).client ∧
      ((s.notify queue marked).conns j).link = (s.conns j).link := by
  show (if j ∈ marked then _ else _ : Conn Unit).client = _ ∧
    (if j ∈ marked then _ else _ : Conn Unit).link = _
  split
  · exact ⟨rfl, rfl⟩
  · split <;> exact ⟨rfl, rfl⟩

/-- A step in which no call is entered. -/
theorem set_alone {c : Conn Unit} {db : DB} (h : c.Alone db₀ qs db) :
    (((s.set () c).setDb db).conns ()).Alone db₀ (qs ++ []) db := by
  rwa [setDb_conns, set_self, List.append_nil]

/-- One step. -/
theorem Moves.alone {l : Label Unit} (h : s.Moves DB.dbType l s') (ho : s.Orderly)
    {es : List (Event Seen Bytes)} (hf : (s.conns ()).Follows es)
    (ha : (s.conns ()).Alone db₀ qs s.db) :
    (s'.conns ()).Alone db₀ (qs ++ l.calls ()) s'.db := by
  cases h with
  | @call i q hidle =>
    show Conn.Alone db₀ (qs ++ [q]) (Server.conns (s.set () _) ()) s.db
    rw [set_self]
    exact ha.call hf hidle q
  | client hp => exact set_alone (ha.client hf hp)
  | toClerk hk => exact set_alone (ha.toClerk hf hk)
  | toClient hk => exact set_alone (ha.toClient hk)
  | take hpc hflag => exact set_alone (ha.take hpc hflag)
  | close hpc hop =>
    exact set_alone (ha.keep_before ((s.conns ()).goto .closing) rfl (Conn.not_executed (.inl hpc))
      (Conn.not_executed (.inr (.inr (.inr (.inl rfl))))) (by simp [Conn.goto]))
  | @get i m db hpc hop hget =>
    obtain ⟨r, hr, -⟩ := hf
    obtain ⟨q, -, hc, -, hholds⟩ := hr.serving hpc
    obtain ⟨k, rfl⟩ := Conn.get_of_op (hholds.op.symm.trans hop)
    obtain ⟨m', hget', hsolo⟩ := s.get_solo k (congrArg Seen.key hholds.seen)
    rw [← hget, hget']
    exact set_alone (ha.execute ((s.conns ()).replies m') hc (by simp) rfl
      (Conn.not_executed (.inl hpc)) (.inr rfl) hsolo)
  | sync hpc hop =>
    obtain ⟨r, hr, -⟩ := hf
    obtain ⟨q, -, hc, -, hholds⟩ := hr.serving hpc
    have hq := Conn.sync_of_op (hholds.op.symm.trans hop)
    subst hq
    exact set_alone (ha.execute ((s.conns ()).goto .replying) hc (by simp) rfl
      (Conn.not_executed (.inl hpc)) (.inr rfl) rfl)
  | push hpc hlogged =>
    have hfront : (s.writersQueue ++ [()]).head? = some () := by
      cases s.writersQueue with
      | nil => rfl
      | cons j js => rfl
    have hself : (s.push ()).conns () = (s.conns ()).push .pausing := by
      rw [Server.push, if_pos hfront]
      exact Function.update_self () _ s.conns
    show ((s.push ()).conns ()).Alone db₀ (qs ++ []) s.db
    rw [hself, List.append_nil]
    exact ha.keep_before _ rfl (Conn.not_executed (.inl hpc)) (Conn.not_executed (.inr (.inl rfl)))
      (by simp [Conn.push])
  | done hpc => exact absurd hpc ha.goes
  | lead hpc => exact absurd hpc ha.goes
  | sleep hpc => exact absurd hpc ha.goes
  | @build i b w hpc =>
    exact set_alone (ha.keep_before ((s.conns ()).goto (.writing w)) rfl
      (Conn.not_executed (.inr (.inl hpc))) (Conn.not_executed (.inr (.inr (.inl ⟨w, rfl⟩))))
      (by simp [Conn.goto]))
  | @putBatch i w hpc =>
    obtain ⟨q, hwait, hlogged, hholds, -⟩ := pending_call hf (.inl (by rw [hpc]; trivial))
    have hclose := Conn.LoggedCall.ne_close hlogged
    have hc : (s.conns ()).Calls q := .inl (by rw [hwait, Sync.ofCall_of_ne hclose])
    exact set_alone (ha.execute ((s.conns ()).goto (.written w)) hc hclose rfl
      (Conn.not_executed (.inr (.inr (.inl ⟨w, hpc⟩)))) (.inl ⟨w, rfl⟩)
      (putBatch_solo ho (ho.group () w (.inl hpc)) hlogged hholds))
  | @complete i w queue marked hpc hloop =>
    have hself : ((s.set () ((s.conns ()).goto .replying)).conns ()).clerk.pc = .replying := by
      rw [set_self]
      rfl
    have hnote := notify_keeps (s.set () ((s.conns ()).goto .replying)) queue marked ()
    rw [set_self] at hnote
    rw [show Label.calls () (.complete i) = [] from rfl, List.append_nil]
    refine ha.keep_after _ hnote.1 (congrArg (fun k => k.clerk.msg) hnote.2)
      (Conn.executed (.inl ⟨w, hpc⟩)) (Conn.executed (.inr ?_)) ?_ ?_
    · rw [notify_pc, hself]
    · rw [notify_pc, hself]
      simp
    · intro hrun
      rw [notify_pc, hself] at hrun
      cases hrun
  | reply hpc => exact set_alone (ha.answer hf hpc)
  | leave hpc =>
    exact set_alone (ha.keep_before ((s.conns ()).goto .closed) rfl
      (Conn.not_executed (.inr (.inr (.inr (.inl hpc)))))
      (Conn.not_executed (.inr (.inr (.inr (.inr rfl))))) (by simp [Conn.goto]))

theorem init_alone (h : (system DB.dbType).init s) : (s.conns ()).Alone s.db [] s.db := by
  obtain ⟨flag, m, m', ring, -, hs⟩ := h.2 ()
  rw [hs]
  refine ⟨by simp [Conn.fresh], fun _ => ⟨rfl, rfl⟩, ?_, ?_, ?_⟩
  · intro q hq
    exact absurd rfl hq.not_idle
  · intro q hq
    cases hq
  · intro q hq
    cases hq

/-- A run. -/
theorem run_alone {tr : List (Server Unit DB × Label Unit)} (hinit : (system DB.dbType).init s)
    (hrun : (system DB.dbType).Run s tr s') :
    (s'.conns ()).Alone s.db (calls () tr) s'.db := by
  induction hrun with
  | nil => exact init_alone hinit
  | snoc hr hstep ih =>
    rw [calls_append]
    have hnext := (step_moves hstep).alone (run_orderly hinit hr) (run_follows hinit hr ()) ih
    simpa [calls] using hnext

/-- Between calls that went through one after the other, from `s₀` on. -/
structure Between (s₀ : Server Unit DB) (qs : List Call) (s : Server Unit DB) : Prop where
  run : ∃ tr, (system DB.dbType).Run s₀ tr s ∧ calls () tr = qs
  no_close : Call.close ∉ qs
  idle : (s.conns ()).client.pc = .idle

theorem Between.next {s₀ : Server Unit DB} (hinit : (system DB.dbType).init s₀)
    (h : Between s₀ qs s) {q : Call} (hq : q ≠ .close) : ∃ tr s', (system DB.dbType).Run s tr s' ∧
      calls () tr = [q] ∧ Between s₀ (qs ++ [q]) s' := by
  obtain ⟨tr₀, hrun₀, hcalls₀⟩ := h.run
  -- the client enters the call
  obtain ⟨s₁, hcall⟩ : ∃ s₁, s.step DB.dbType (.call () q) = some s₁ := by
    simp [step, h.idle]
  have hone : (system DB.dbType).Run s [(s, .call () q)] s₁ := TSys.Run.nil.snoc hcall
  have hrun₁ := hrun₀.trans hone
  -- and the server brings it to its return
  obtain ⟨tr, s', hrun, hcalls, hsettled⟩ := settles (B := DB.dbType) () (run_orderly hinit hrun₁)
    fun j => ⟨_, run_follows hinit hrun₁ j⟩
  have hall : calls () ([(s, .call () q)] ++ tr) = [q] := by
    rw [calls_append, hcalls]
    rfl
  have hrun' := hrun₁.trans hrun
  have hcalls' : calls () ((tr₀ ++ [(s, .call () q)]) ++ tr) = qs ++ [q] := by
    rw [List.append_assoc, calls_append, hcalls₀, hall]
  have hno : Call.close ∉ qs ++ [q] := by
    rw [List.mem_append, List.mem_singleton]
    exact not_or.mpr ⟨h.no_close, hq.symm⟩
  have halone := run_alone hinit hrun'
  rw [hcalls'] at halone
  exact ⟨_, s', hone.trans hrun, hall, ⟨_, hrun', hcalls'⟩, hno,
    hsettled.resolve_right (halone.not_closing (run_follows hinit hrun' ()) hno)⟩

/-- Every sequence of calls can be made, each to its return. -/
theorem exists_run (hinit : (system DB.dbType).init s) {qs : List Call}
    (hopen : ∀ q ∈ qs, q ≠ .close) : ∃ tr s', (system DB.dbType).Run s tr s' ∧
      calls () tr = qs ∧ (s'.conns ()).client.pc = .idle := by
  have hidle : (s.conns ()).client.pc = .idle := by
    obtain ⟨flag, m, m', ring, -, hs⟩ := hinit.2 ()
    rw [hs]
    rfl
  have hstart : Between s [] s := ⟨⟨[], .nil, rfl⟩, by simp, hidle⟩
  have hnext : ∀ qs q s₁, q ≠ Call.close → Between s qs s₁ →
      ∃ tr s', (system DB.dbType).Run s₁ tr s' ∧ (tr.flatMap fun p => p.2.calls ()) = [q] ∧
        Between s (qs ++ [q]) s' :=
    fun qs q s₁ hq h => h.next hinit hq
  obtain ⟨tr, s', hrun, hcalls, hend⟩ := TSys.each hnext qs hopen hstart
  exact ⟨tr, s', hrun, hcalls, hend.idle⟩

end Server

end LogDirect.Group
