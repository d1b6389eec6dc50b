import LogDirect.Hybrid.Handshake

/-!
# One turn of the clerk

`serve_serves` is the inversion of the step `serve`: in a connection that keeps
to the handshake, the request the clerk finds is the one its client waits on,
and `Serves` lists what the clerk then does. The remaining lemmas put the
connection into its next phase.
-/

namespace LogDirect.Hybrid

open Lib

/-- The store after the records `rs` have been put. -/
def Shared.stored (sh : Shared) (rs : List Record) : Shared :=
  { sh with db := replay sh.db (Batch.puts rs) }

/-- The store after a `DELETE`. -/
def Shared.deleted (sh : Shared) (key : Bytes) : Shared :=
  { sh with db := Function.update sh.db key none, muts := sh.muts ++ [(key, none)] }

/-- The clerk after `CLOSE` with records in the batch. -/
def Clerk.lastFlushed (k : Clerk) : Clerk :=
  { k.spawn (Batch.bytes (records k.openRecs)) with pc := .closing (some k.threads.length) }

variable {sh : Shared}

/-- `CLOSE` with records in the batch stores them, and leaves `im_index_`. -/
theorem Clerk.close_full {k : Clerk} (hl : k.Laid sh.mem) (hne : k.openRecs ≠ []) :
    k.close sh = (k.lastFlushed, sh.stored (records k.openRecs)) := by
  have hpos : k.batchLength > 0 := by
    have hz : k.batchLength ≠ 0 := by
      rw [hl.len_eq, Ne, Batch.total_eq_zero]
      simpa [records] using hne
    omega
  unfold close lastFlushed Shared.stored
  rw [if_pos hpos, hl.putBatch, hl.tmpBuf]

/-- `CLOSE` on an empty batch. -/
theorem Clerk.close_empty {k : Clerk} (hl : k.Laid sh.mem) (he : k.openRecs = []) :
    k.close sh = ({ k with pc := .closing none }, sh) := by
  have hz : ¬ k.batchLength > 0 := by
    rw [hl.len_eq, he]
    decide
  unfold close
  rw [if_neg hz]

/-- The value a `GET` finds: in the ring if the key is indexed, in the store
otherwise. -/
def Shared.lookup (sh : Shared) (key : Bytes) : Option Bytes :=
  match sh.index key with
  | some i => some (sh.mem.read (i.memaddr + key.length) i.valueSize)
  | none => sh.db key

theorem Shared.lookup_some {key : Bytes} {i : DBIndex} (h : sh.index key = some i) :
    sh.lookup key = some (sh.mem.read (i.memaddr + key.length) i.valueSize) := by
  unfold Shared.lookup
  rw [h]

theorem Shared.lookup_none {key : Bytes} (h : sh.index key = none) : sh.lookup key = sh.db key := by
  unfold Shared.lookup
  rw [h]

/-- A `GET` changes nothing but the message area. -/
theorem Clerk.get_eq_reply (k : Clerk) (sh : Shared) :
    ∃ st n v, k.get sh = k.reply st n v := by
  unfold Clerk.get
  split
  · exact ⟨_, _, _, rfl⟩
  · split
    · exact ⟨_, _, _, rfl⟩
    · exact ⟨_, _, _, rfl⟩

namespace Conn

/-- The clerk once it has seen the client's flag. -/
def woken (c : Conn) : Clerk := { c.clerk with header := clerkDone }

/-- The clerk, now `k`, posts its reply and the flag. -/
def answer (c : Conn) (k : Clerk) : Conn :=
  { c with
    clerk := { k with
      served := k.served ++ c.client.pc.call.toList.map fun q => (q, q.ret k.msg) }
    toClient := c.toClient ++ [.body (Reply.wire k.msg), .header k.header] }

/-- The history entry of a record the clerk takes. -/
def next (c : Conn) (r : Record) (pos : Nat) : Stored := ⟨c.clerk.placed.length, r, pos⟩

/-- What one turn of the clerk can do, by the request its client waits on. -/
inductive Serves (c : Conn) (sh : Shared) : Conn → Shared → Prop
  | nop {r : Record} (hpc : c.client.pc = .nopWait r) :
      Serves c sh (c.answer (c.woken.flushed.reply .ok 0 []))
        (sh.flushed (records c.clerk.openRecs))
  | short {r : Record} {pos : Nat} (hpc : c.client.pc = .writeWait r pos)
      (htake : (c.woken.take (c.next r pos)).Laid sh.mem)
      (hlt : c.clerk.batchLength + r.length < batchSize) :
      Serves c sh (c.answer ((c.woken.take (c.next r pos)).reply .ok 0 []))
        (sh.take c.clerk.writeBuf (c.next r pos))
  | full {r : Record} {pos : Nat} (hpc : c.client.pc = .writeWait r pos)
      (htake : (c.woken.take (c.next r pos)).Laid sh.mem)
      (hge : batchSize ≤ c.clerk.batchLength + r.length) :
      Serves c sh (c.answer ((c.woken.take (c.next r pos)).flushed.reply .ok 0 []))
        ((sh.take c.clerk.writeBuf (c.next r pos)).flushed
          (records (c.clerk.openRecs ++ [c.next r pos])))
  | get {k : Key} (hpc : c.client.pc = .getWait k)
      (hkey : Request.key c.clerk.msg = k.bytes)
      (hsize : Request.keySize c.clerk.msg = k.bytes.length) :
      Serves c sh (c.answer (c.woken.get sh)) sh
  | sync (hpc : c.client.pc = .syncWait) : Serves c sh (c.answer c.woken) sh
  | delete {k : Key} (hpc : c.client.pc = .deleteWait k) :
      Serves c sh
        (c.answer (c.woken.reply (if (sh.db k.bytes).isSome then .ok else .notFound) 0 []))
        (sh.deleted k.bytes)
  | closeFull (hpc : c.client.pc = .closeWait ∨ c.client.pc = .closed)
      (hne : c.clerk.openRecs ≠ []) :
      Serves c sh { c with clerk := c.woken.lastFlushed } (sh.stored (records c.clerk.openRecs))
  | closeEmpty (hpc : c.client.pc = .closeWait ∨ c.client.pc = .closed)
      (he : c.clerk.openRecs = []) :
      Serves c sh { c with clerk := { c.woken with pc := .closing none } } sh

/-! ## Inversion -/

variable {c c' : Conn} {sh sh' : Shared} {k : Clerk} {r : Record} {pos : Nat} {op : Operation}
  {m : Mem} {l : List ToClerk}

theorem serve_running (hk : c.clerk.serve sh c.tag = (k, sh')) (hrun : k.pc = .running) :
    c.serve sh = (c.answer k, sh') := by
  unfold serve answer
  simp only [hk, if_pos hrun]

theorem serve_closing (hk : c.clerk.serve sh c.tag = (k, sh')) (hrun : k.pc ≠ .running) :
    c.serve sh = ({ c with clerk := k }, sh') := by
  unfold serve
  simp only [hk, if_neg hrun]

theorem tag_writeWait (hpc : c.client.pc = .writeWait r pos) : c.tag = [c.next r pos] := by
  unfold tag next
  simp only [hpc]

/-- The clerk's switch. -/
theorem serve_op (sh : Shared) (tag : List Stored) :
    Request.op c.clerk.msg = some op → c.clerk.serve sh tag =
      match op with
      | .nop => c.woken.write sh .nop tag
      | .update => c.woken.write sh .update tag
      | .put => c.woken.write sh .put tag
      | .get => (c.woken.get sh, sh)
      | .sync => (c.woken, sh)
      | .delete => c.woken.delete sh
      | .close => c.woken.close sh := by
  intro hop
  unfold Clerk.serve woken
  simp only [hop]
  cases op <;> rfl

theorem woken_laid (hl : c.clerk.Laid m) : c.woken.Laid m :=
  hl.congr rfl

/-- What has landed once the flag is there. -/
theorem Requested.arrived (h : c.Requested m l) (hflag : c.clerk.header = clientDone) :
    c.toClerk = [] ∧ Posted c.client.pc l := by
  have he : c.toClerk = [] := by
    by_contra hne
    exact h.clerk_flag hne hflag
  have hp := h.posted
  rw [he, List.append_nil] at hp
  exact ⟨he, hp⟩

/-- The batch once the record on the wire is taken into it. -/
theorem Requested.laid_take (h : c.Requested m l) (hl : c.clerk.Laid m)
    (hpc : c.client.pc = .writeWait r pos) (hland : c.Landed m (.ring pos r.encode)) :
    (c.woken.take (c.next r pos)).Laid m := by
  have hheads := h.heads
  simp only [HeadsBefore, hpc] at hheads
  obtain ⟨hpos, -, hhead, hlt⟩ := hheads
  refine (woken_laid hl).take hpos ?_ ?_
  · show c.clerkHead + r.length < maxAsyncSize
    omega
  · have hring : m.read (c.clerk.writeBuf + pos) r.encode.length = r.encode := hland
    rw [Record.length_encode] at hring
    exact hring

/-- The clerk takes `CLOSE`. -/
theorem serve_close (hl : c.clerk.Laid sh.mem) (hop : Request.op c.clerk.msg = some .close)
    (hpc : c.client.pc = .closeWait ∨ c.client.pc = .closed) :
    c.Serves sh (c.serve sh).1 (c.serve sh).2 := by
  by_cases he : c.clerk.openRecs = []
  · have hk : c.clerk.serve sh c.tag = _ := serve_op sh c.tag hop
    rw [Clerk.close_empty (woken_laid hl) he] at hk
    rw [serve_closing hk (by simp)]
    exact .closeEmpty hpc he
  · have hk : c.clerk.serve sh c.tag = _ := serve_op sh c.tag hop
    rw [Clerk.close_full (woken_laid hl) he] at hk
    rw [serve_closing hk (by simp [Clerk.lastFlushed])]
    exact .closeFull hpc he

/-- The clerk takes a write. -/
theorem Requested.serve_write (h : c.Requested sh.mem l) (hl : c.clerk.Laid sh.mem)
    (hpc : c.client.pc = .writeWait r pos) (hbody : c.Landed sh.mem (.body r.metaPart))
    (hring : c.Landed sh.mem (.ring pos r.encode)) : c.Serves sh (c.serve sh).1 (c.serve sh).2 := by
  have hheads := h.heads
  simp only [HeadsBefore, hpc] at hheads
  have hpos : (c.next r pos).pos = c.woken.bufTail + c.woken.batchLength := hheads.1
  have hh : c.woken.Holds (c.next r pos).record := Clerk.holds_of_read hbody
  have htake := h.laid_take hl hpc hring
  have hk : c.clerk.serve sh c.tag = c.woken.write sh r.op [c.next r pos] := by
    rw [tag_writeWait hpc, serve_op sh _ (show Request.op c.clerk.msg = some r.op from hh.op)]
    rcases r.isWrite with hop | hop <;> simp [hop]
  by_cases hlt : c.clerk.batchLength + r.length < batchSize
  · have hw := Clerk.write_short htake hh hpos hlt
    rw [serve_running (hk.trans hw) h.running]
    exact .short hpc htake hlt
  · have hw := Clerk.write_full htake hh hpos (Nat.le_of_not_lt hlt)
    rw [serve_running (hk.trans hw) h.running]
    exact .full hpc htake (Nat.le_of_not_lt hlt)

/-- A key request reads back as sent. -/
theorem Requested.key {k : Key}
    (hbody : c.Landed m (.body (Request.header op k.bytes.length 0 ++ k.bytes))) :
    Request.op c.clerk.msg = some op ∧ Request.keySize c.clerk.msg = k.bytes.length ∧
      Request.key c.clerk.msg = k.bytes := by
  have hks : k.bytes.length < 2 ^ 24 := by
    have := k.length_lt
    omega
  obtain ⟨hop, hsize, -, hkey⟩ := Request.fields_of_read k.bytes
    (by simpa [Landed] using hbody) hks (by decide)
  refine ⟨hop, hsize, ?_⟩
  unfold Request.key
  rw [hsize]
  exact hkey

/-- A bare request reads back as sent. -/
theorem Requested.bare (hbody : c.Landed m (.body (Request.header op 0 0))) :
    Request.op c.clerk.msg = some op :=
  (Request.fields_of_read [] (by simpa [Landed] using hbody)
    (by decide) (by decide)).1

/-- The clerk takes the request its client waits on. -/
theorem Requested.serves (h : c.Requested sh.mem l) (hl : c.clerk.Laid sh.mem)
    (hflag : c.clerk.header = clientDone) : c.Serves sh (c.serve sh).1 (c.serve sh).2 := by
  obtain ⟨-, hp⟩ := h.arrived hflag
  have hland := h.landed
  generalize hpc : c.client.pc = pc at hp
  cases hp with
  | @nop r rest hrest =>
    have hbody := hland _ (List.mem_cons_self)
    have hop : Request.op c.clerk.msg = some .nop := by
      refine Request.op_of_read rest ?_
      simpa [Landed] using hbody
    have hk : c.clerk.serve sh c.tag = _ := serve_op sh c.tag hop
    rw [Clerk.write_nop (woken_laid hl)] at hk
    rw [serve_running hk h.running]
    exact .nop hpc
  | @write r pos =>
    exact h.serve_write hl hpc (hland _ (by simp)) (hland _ (by simp))
  | @get k =>
    obtain ⟨hop, hsize, hkey⟩ := Requested.key (hland _ (List.mem_cons_self))
    have hk : c.clerk.serve sh c.tag = _ := serve_op sh c.tag hop
    have hrun : (c.woken.get sh).pc = .running := by
      obtain ⟨st, n, v, hget⟩ := c.woken.get_eq_reply sh
      rw [hget]
      exact h.running
    rw [serve_running hk hrun]
    exact .get hpc hkey hsize
  | sync =>
    have hop := Requested.bare (hland _ (List.mem_cons_self))
    have hk : c.clerk.serve sh c.tag = _ := serve_op sh c.tag hop
    rw [serve_running hk h.running]
    exact .sync hpc
  | @delete k =>
    obtain ⟨hop, -, hkey⟩ := Requested.key (hland _ (List.mem_cons_self))
    have hk : c.clerk.serve sh c.tag = _ := serve_op sh c.tag hop
    have hdel : c.woken.delete sh = (c.woken.reply
        (if (sh.db k.bytes).isSome then .ok else .notFound) 0 [], sh.deleted k.bytes) := by
      unfold Clerk.delete
      simp only [show Request.key c.woken.msg = k.bytes from hkey]
      rfl
    rw [serve_running (hk.trans hdel) h.running]
    exact .delete hpc
  | close =>
    exact serve_close hl (Requested.bare (hland _ (List.mem_cons_self))) (.inl hpc)

/-- The inversion of the clerk's step. -/
theorem serve_serves (hph : c.Phase sh.mem) (hb : c.clerk.pc = .running → c.clerk.BatchInv sh.mem)
    (h : c.step sh .serve = some (c', sh')) :
    c.Serves sh c' sh' ∧ c.clerk.pc = .running ∧ c.clerk.BatchInv sh.mem := by
  obtain ⟨hrun, hflag, heq⟩ := serve_step h
  obtain rfl : c' = (c.serve sh).1 := congrArg Prod.fst heq
  obtain rfl : sh' = (c.serve sh).2 := congrArg Prod.snd heq
  refine ⟨?_, hrun, hb hrun⟩
  rcases hph with hq | ⟨l, hr⟩ | ⟨l, hr⟩ | hl | hc
  · exact absurd hflag hq.clerk_flag
  · exact hr.serves (hb hrun).laid hflag
  · rw [hr.clerk_flag] at hflag
    exact absurd hflag clerkDone_ne_clientDone
  · exact serve_close (hb hrun).laid hl.request (.inr hl.closed)
  · rcases hc.clerk with ⟨sync, h'⟩ | h' <;> rw [h'] at hrun <;> cases hrun

/-! ## The next phase -/

/-- The clerk has answered. -/
theorem Requested.answered (h : c.Requested m l) (hflag : c.clerk.header = clientDone)
    (hawaits : c.client.pc.Awaits) (hk : k.header = clerkDone) (hrun : k.pc = .running)
    (hserved : k.served = c.clerk.served)
    (hplaced : k.placed.map Stored.ack = c.clerk.placed.map Stored.ack ++ c.client.pc.ack)
    (hheads : (c.answer k).HeadsAfter) : (c.answer k).Replied [] := by
  obtain ⟨hserved', hplaced'⟩ := h.books
  refine ⟨hawaits, ?_, by simp, fun _ => h.client_flag, (h.arrived hflag).1, hk, hrun, hheads,
    ?_, ?_⟩
  · have hnil : c.toClient.filter ToClient.isReply = [] := h.replies
    show (c.toClient ++ [ToClient.body (Reply.wire k.msg), .header k.header]).filter
      ToClient.isReply = _
    rw [List.filter_append, hnil, hk]
    rfl
  · show k.served ++ _ = c.client.history ++ _
    rw [hserved, hserved']
    rfl
  · show k.placed.map Stored.ack = _
    rw [hplaced, hplaced']
    rfl

/-- The clerk has taken `CLOSE`. -/
theorem Serves.closing (hph : c.Phase m) (hflag : c.clerk.header = clientDone)
    (hrun : c.clerk.pc = .running) (hpc : c.client.pc = .closeWait ∨ c.client.pc = .closed)
    (hk : ∃ sync, k.pc = .closing sync) (hserved : k.served = c.clerk.served)
    (hplaced : k.placed = c.clerk.placed) (hempty : k.openRecs = []) :
    { c with clerk := k }.Closing := by
  have hbooks : c.Settled → { c with clerk := k }.Settled := by
    rintro ⟨h1, h2⟩
    exact ⟨hserved.trans h1, by rw [← h2, ← hplaced]⟩
  rcases hph with hq | ⟨l, hr⟩ | ⟨l, hr⟩ | hl | hc
  · exact absurd hflag hq.clerk_flag
  · exact ⟨hpc, .inl (hr.arrived hflag).1, hr.replies, .inl hk, hempty, hbooks hr.books⟩
  · have := hr.awaits
    rcases hpc with hpc | hpc <;> simp [hpc, ClientPc.Awaits] at this
  · exact ⟨hpc, hl.toClerk, hl.replies, .inl hk, hempty, hbooks hl.books⟩
  · rcases hc.clerk with ⟨sync, h'⟩ | h' <;> rw [h'] at hrun <;> cases hrun

/-- A client that awaits an answer, and a flag at the clerk: the request has arrived. -/
theorem Phase.requested (hph : c.Phase m) (hflag : c.clerk.header = clientDone)
    (hawaits : c.client.pc.Awaits) : ∃ l, c.Requested m l := by
  rcases hph with hq | ⟨l, hr⟩ | ⟨l, hr⟩ | hl | hc
  · exact absurd hflag hq.clerk_flag
  · exact ⟨l, hr⟩
  · rw [hr.clerk_flag] at hflag
    exact absurd hflag clerkDone_ne_clientDone
  · simp [hl.closed, ClientPc.Awaits] at hawaits
  · rcases hc.client with h' | h' <;> simp [h', ClientPc.Awaits] at hawaits

/-- The clerk answers a client that awaits an answer. -/
theorem Serves.replied (h : c.Serves sh c' sh') (hr : c.Requested sh.mem l)
    (hflag : c.clerk.header = clientDone) (hawaits : c.client.pc.Awaits)
    (hb : c.clerk.BatchInv sh.mem) : c'.Replied [] := by
  have hrun := hr.running
  have hheads := hr.heads
  cases h with
  | @nop r hpc =>
    simp only [HeadsBefore, hpc] at hheads
    obtain ⟨hhead, hlap, hfull⟩ := hheads
    have hrew : c.woken.Rewinds := .inl hb.len_lt
    refine hr.answered hflag hawaits rfl hrun rfl ?_ ?_
    · simp only [hpc, ClientPc.ack, List.append_nil]
      rfl
    · simp only [HeadsAfter, show (c.answer _).client.pc = .nopWait r from hpc]
      refine ⟨?_, rfl, ?_, hfull, ?_⟩
      · show c.woken.nextTail = ringHeader
        simp [Clerk.nextTail, hrew]
      · show c.client.bufHead < maxAsyncSize
        rw [hhead]
        exact hb.laid.head_lt
      · show (if c.woken.Rewinds then c.woken.lap + 1 else c.woken.lap) = c.client.lap + 1
        rw [if_pos hrew]
        show c.clerk.lap + 1 = _
        rw [hlap]
  | @short r pos hpc htake hlt =>
    simp only [HeadsBefore, hpc] at hheads
    obtain ⟨hpos, hlap, hhead, -⟩ := hheads
    refine hr.answered hflag hawaits rfl hrun rfl ?_ ?_
    · simp only [hpc, ClientPc.ack]
      exact List.map_append
    · simp only [HeadsAfter, show (c.answer _).client.pc = .writeWait r pos from hpc]
      refine ⟨?_, hlap⟩
      show c.client.bufHead = c.clerk.bufTail + (c.clerk.batchLength + r.length)
      rw [hhead, hpos, clerkHead, Nat.add_assoc]
  | @full r pos hpc htake hge =>
    simp only [HeadsBefore, hpc] at hheads
    obtain ⟨hpos, hlap, hhead, hlt⟩ := hheads
    -- the client keeps the head below the end of the ring, so the tail just advances
    have hrew : ¬ (c.woken.take (c.next r pos)).Rewinds := by
      have h1 : c.clerk.bufTail + (c.clerk.batchLength + r.length) < maxAsyncSize := htake.head_lt
      rintro (h2 | h2)
      · have h2 : c.clerk.batchLength + r.length < batchSize := h2
        omega
      · have h2 : c.clerk.bufTail + (c.clerk.batchLength + r.length) = maxAsyncSize := h2
        omega
    refine hr.answered hflag hawaits rfl hrun rfl ?_ ?_
    · simp only [hpc, ClientPc.ack]
      exact List.map_append
    · simp only [HeadsAfter, show (c.answer _).client.pc = .writeWait r pos from hpc]
      refine ⟨?_, ?_⟩
      · show c.client.bufHead = (c.woken.take (c.next r pos)).nextTail + 0
        simp only [Clerk.nextTail, if_neg hrew]
        show c.client.bufHead = c.clerk.bufTail + (c.clerk.batchLength + r.length)
        rw [hhead, hpos, clerkHead, Nat.add_assoc]
      · show (if (c.woken.take (c.next r pos)).Rewinds then _ else c.clerk.lap) = c.client.lap
        rw [if_neg hrew, hlap]
  | @get k hpc hkey hsize =>
    simp only [HeadsBefore, hpc] at hheads
    obtain ⟨st, n, v, hget⟩ := c.woken.get_eq_reply sh
    rw [hget]
    refine hr.answered hflag hawaits rfl hrun rfl ?_ ?_
    · simp only [hpc, ClientPc.ack, List.append_nil]
      rfl
    · simp only [HeadsAfter, show (c.answer _).client.pc = .getWait k from hpc]
      exact hheads
  | sync hpc =>
    simp only [HeadsBefore, hpc] at hheads
    refine hr.answered hflag hawaits rfl hrun rfl ?_ ?_
    · simp only [hpc, ClientPc.ack, List.append_nil]
      rfl
    · simp only [HeadsAfter, show (c.answer _).client.pc = .syncWait from hpc]
      exact hheads
  | @delete k hpc =>
    simp only [HeadsBefore, hpc] at hheads
    refine hr.answered hflag hawaits rfl hrun rfl ?_ ?_
    · simp only [hpc, ClientPc.ack, List.append_nil]
      rfl
    · simp only [HeadsAfter, show (c.answer _).client.pc = .deleteWait k from hpc]
      exact hheads
  | closeFull hpc hne => rcases hpc with hpc | hpc <;> rw [hpc] at hawaits <;> exact hawaits.elim
  | closeEmpty hpc he => rcases hpc with hpc | hpc <;> rw [hpc] at hawaits <;> exact hawaits.elim

/-- One turn of the clerk. -/
theorem Serves.phase (h : c.Serves sh c' sh') (hph : c.Phase sh.mem) (hrun : c.clerk.pc = .running)
    (hflag : c.clerk.header = clientDone) (hb : c.clerk.BatchInv sh.mem) : c'.Phase sh'.mem := by
  by_cases hawaits : c.client.pc.Awaits
  · obtain ⟨l, hr⟩ := hph.requested hflag hawaits
    exact .inr (.inr (.inl ⟨[], h.replied hr hflag hawaits hb⟩))
  · cases h with
    | closeFull hpc hne =>
      exact .inr (.inr (.inr (.inr (Serves.closing hph hflag hrun hpc ⟨_, rfl⟩ rfl rfl rfl))))
    | closeEmpty hpc he =>
      exact .inr (.inr (.inr (.inr (Serves.closing hph hflag hrun hpc ⟨_, rfl⟩ rfl rfl he))))
    | nop hpc => exact absurd (by rw [hpc]; trivial) hawaits
    | short hpc => exact absurd (by rw [hpc]; trivial) hawaits
    | full hpc => exact absurd (by rw [hpc]; trivial) hawaits
    | get hpc => exact absurd (by rw [hpc]; trivial) hawaits
    | sync hpc => exact absurd (by rw [hpc]; trivial) hawaits
    | delete hpc => exact absurd (by rw [hpc]; trivial) hawaits

/-- The open batch after one turn of the clerk. -/
theorem Serves.batch (h : c.Serves sh c' sh') (hb : c.clerk.BatchInv sh.mem)
    (hrun : c'.clerk.pc = .running) : c'.clerk.BatchInv sh'.mem := by
  cases h with
  | nop hpc => exact (woken_laid hb.laid).flushed.congr rfl
  | short hpc htake hlt => exact ⟨htake.congr rfl, hlt⟩
  | full hpc htake hge => exact htake.flushed.congr rfl
  | get hpc hkey hsize =>
    obtain ⟨st, n, v, hget⟩ := c.woken.get_eq_reply sh
    rw [hget]
    exact hb.congr rfl
  | sync hpc => exact hb.congr rfl
  | delete hpc => exact hb.congr rfl
  | closeFull hpc hne => simp [Clerk.lastFlushed] at hrun
  | closeEmpty hpc he => simp at hrun

end Conn

end LogDirect.Hybrid
