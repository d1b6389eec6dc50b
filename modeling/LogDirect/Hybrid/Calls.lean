import LogDirect.Hybrid.Schedule

/-!
# The calls of a run

What the calls a client has made say about the state: between two calls the two
ends agree on the ring (`ring_agreement`), the calls made are those in the history
and the one under way (`run_ledger`), and as long as the records written do not
fill a batch there is no detached thread (`run_noDetached`).
-/

namespace LogDirect.Hybrid

open Lib TSys Conn

/-! ## Agreement between two calls -/

/-- The records of an open batch: entry by entry, each at its offset in the ring. -/
structure Clerk.Entries (k : Clerk) (m : Mem) (rs : List Record) : Prop where
  bytes : m.read (k.writeBuf + k.bufTail) k.batchLength = Batch.bytes rs
  keys : k.keyBatch = rs.map Record.key
  sizes : k.indexBatch.length = rs.length
  entry : ∀ i r, rs[i]? = some r → ∃ idx, k.indexBatch[i]? = some idx ∧
    idx.fileOffset = Batch.total (rs.take i) + sizeofRequest ∧
    idx.keySize = r.key.length ∧ idx.valueSize = r.val.length ∧
    m.read (k.writeBuf + k.bufTail + idx.fileOffset) idx.keySize = r.key

theorem Clerk.Laid.entries {k : Clerk} {m : Mem} (hl : k.Laid m) :
    k.Entries m (records k.openRecs) := by
  refine ⟨hl.ring, hl.keys, ?_, fun i r hr => ?_⟩
  · rw [hl.index, Batch.length_index]
  · have hidx := Batch.index_getElem? 0 hr
    have hring := hl.ring
    rw [← hl.index, Nat.zero_add] at hidx
    rw [hl.len_eq] at hring
    exact ⟨_, hidx, rfl, rfl, rfl, Batch.read_key hring hr⟩

variable {c c' : Conn} {sh sh' : Shared} {tr : List ((Conn × Shared) × Label)} {qs : List Call}
  {l : Label} {s₀ s : Conn × Shared}

/-- Between two calls the two ends agree on the ring: the clerk's tail and batch
length give the client's head, and the ring bytes in between are the records
of the batch vectors, which are the last ones the client had acknowledged. -/
theorem ring_agreement (hreach : system.Reachable (c, sh)) (hidle : c.client.pc = .idle) :
    c.clerk.bufTail + c.clerk.batchLength = c.client.bufHead ∧
      ringHeader ≤ c.clerk.bufTail ∧ c.clerk.bufTail ≤ c.client.bufHead ∧
      c.client.bufHead < maxAsyncSize ∧ c.clerk.batchLength < batchSize ∧
      ∃ older rs, c.client.acks.map Prod.fst = older ++ rs ∧ c.clerk.Entries sh.mem rs := by
  have hinv := reachable_inv hreach
  have hq := hinv.phase.quiet hidle
  obtain ⟨hl, hlt⟩ := hinv.batch hq.running
  have hheads := hq.heads
  simp only [Conn.HeadsBefore, hidle, Conn.clerkHead] at hheads
  have hhead := hl.head_lt
  obtain ⟨older, holder⟩ := hl.recent
  refine ⟨hheads.1.symm, hl.tail_ge, by omega, by omega, hlt, records older, _, ?_, hl.entries⟩
  rw [← hq.books.2, ← holder, ← records_append, List.map_map]
  rfl

/-- Nineteen records of 7000 bytes, with six full batches and a rewind: the last record is alone
in the second lap. -/
theorem nineteen_records_agree :
    ∃ c sh, system.Reachable (c, sh) ∧ c.clerk.threads.length = 7 ∧ c.client.bufHead = 7008 ∧
      c.clerk.batchLength = 7000 ∧ c.clerk.bufTail + c.clerk.batchLength = 7008 ∧
      ∃ older rs, List.replicate 18 (sample 1 6991) ++ [sample 2 6991] = older ++ rs ∧
        c.clerk.Entries sh.mem rs := by
  obtain ⟨⟨c, sh⟩, ⟨tr, hrun, -, -⟩, hu, hring, -⟩ :=
    (init_untouched boot_init).writes (List.replicate 18 (sample 1 6991) ++ [sample 2 6991])
  have hload : c.ring.load = (7008, 7000, 7) := by
    rw [show c.ring = _ from hring, Ring.load_writes, List.map_append, List.map_replicate,
      List.map_singleton, length_sample, length_sample, boot_load]
    decide
  have hhead : c.client.bufHead = 7008 := congrArg Prod.fst hload
  have hacks : c.client.acks.map Prod.fst =
      List.replicate 18 (sample 1 6991) ++ [sample 2 6991] := by
    rw [show c.client.acks.map Prod.fst = _ from hu.atRest.acked_eq, hring,
      Ring.records_placed_writes]
    rfl
  have hreach : system.Reachable (c, sh) := ⟨boot, tr, boot_init, hrun⟩
  have hlength : c.clerk.batchLength = 7000 := by
    have hsize : c.ring.size = 7000 := congrArg (fun p => p.2.1) hload
    have htail : c.ring.head = c.ring.tail + c.ring.size := hu.atRest.head_eq
    have hagree := (ring_agreement hreach hu.atRest.idle).1
    have hheads : c.ring.head = c.client.bufHead ∧ c.ring.tail = c.clerk.bufTail := ⟨rfl, rfl⟩
    omega
  obtain ⟨htail, -, -, -, -, hentries⟩ := ring_agreement hreach hu.atRest.idle
  rw [hacks] at hentries
  exact ⟨c, sh, hreach, congrArg (fun p => p.2.2) hload, hhead, hlength, htail.trans hhead,
    hentries⟩

/-! ## Calls and acknowledgements -/

/-- What holds of every call made holds of every step that makes one. -/
theorem meets_of_calls {P : Call → Prop} (h : ∀ q ∈ calls tr, P q) :
    Meets (fun _ l => ∀ q, l = .call q → P q) tr := by
  intro p hp q hq
  refine h q (List.mem_filterMap.mpr ⟨p, hp, ?_⟩)
  rw [hq]

/-- The records of the writes among the calls. -/
def writes (qs : List Call) : List Record :=
  qs.filterMap fun q => match q with
    | .write r => some r
    | _ => none

@[simp] theorem writes_append (qs qs' : List Call) : writes (qs ++ qs') = writes qs ++ writes qs' :=
  List.filterMap_append

/-- The call the client is in. -/
def ClientPc.pending : ClientPc → List Call
  | .idle => []
  | .nopWait r | .rewindWait r | .spaceWait r | .writeWait r _ => [.write r]
  | .getWait k => [.get k]
  | .syncWait => [.sync]
  | .deleteWait k => [.delete k]
  | .closeWait | .closed => [.close]

/-- The client's history agrees with the calls it was asked to make, and its
acknowledged records are those of the writes that returned. -/
structure Client.Ledger (c : Client) (qs : List Call) : Prop where
  calls : qs = c.history.map Prod.fst ++ c.pc.pending
  acks : c.acks.map Prod.fst = writes (c.history.map Prod.fst)

/-- The records written so far are those acknowledged and the one under way. -/
theorem Client.Ledger.writes {c : Client} (h : c.Ledger qs) :
    writes qs = c.acks.map Prod.fst ++ Hybrid.writes c.pc.pending := by
  rw [h.calls, writes_append, h.acks]

/-- Only the client's own steps change where it stands. -/
theorem Conn.step_client (hinv : c.Inv sh.mem) (h : c.step sh l = some (c', sh')) (hl : l ≠ .client)
    (hq : ∀ q, l ≠ .call q) :
    c'.client.pc = c.client.pc ∧ c'.client.acks = c.client.acks ∧
      c'.client.history = c.client.history := by
  cases l with
  | call q => exact absurd rfl (hq q)
  | client => exact absurd rfl hl
  | toClerk =>
    obtain ⟨w, ws, -, rfl, -⟩ := toClerk_step h
    cases w <;> exact ⟨rfl, rfl, rfl⟩
  | toClient =>
    obtain ⟨w, ws, -, rfl, -⟩ := toClient_step h
    cases w <;> exact ⟨rfl, rfl, rfl⟩
  | serve =>
    have hf := (serve_serves hinv.phase hinv.batch h).1.frame.2.2.2.2
    rw [hf]
    exact ⟨rfl, rfl, rfl⟩
  | callback =>
    obtain ⟨sync, -, -, -, rfl⟩ := callback_step h
    exact ⟨rfl, rfl, rfl⟩
  | persist i =>
    obtain ⟨t, -, -, -, rfl, -⟩ := persist_step h
    exact ⟨rfl, rfl, rfl⟩
  | post i =>
    obtain ⟨t, -, -, -, rfl⟩ := post_step h
    exact ⟨rfl, rfl, rfl⟩

/-- How the client comes to where it stands: by a call, by leaving a loop, or not
at all. -/
theorem Conn.step_pc (hinv : c.Inv sh.mem) (h : c.step sh l = some (c', sh')) :
    c'.client.pc = c.client.pc ∨ (∃ q, l = .call q ∧ c'.client.pc = (c.client.call q).1.pc) ∨
      ∃ cl out, c.client.Resumes cl out ∧ c'.client.pc = cl.pc := by
  by_cases hcl : l = .client
  · subst hcl
    obtain ⟨-, -, cl, out, hres, rfl⟩ := client_step h
    exact .inr (.inr ⟨cl, out, hres, rfl⟩)
  · by_cases hq : ∃ q, l = .call q
    · obtain ⟨q, rfl⟩ := hq
      obtain ⟨-, -, rfl⟩ := call_step h
      exact .inr (.inl ⟨q, rfl, rfl⟩)
    · exact .inl (step_client hinv h hcl fun q hl => hq ⟨q, hl⟩).1

/-- Between two calls the history is complete. -/
theorem Client.Ledger.idle {c : Client} (h : c.Ledger qs) (hidle : c.pc = .idle) :
    c.history.map Prod.fst = qs := by
  rw [h.calls, hidle]
  exact (List.append_nil _).symm

/-- Leaving a loop keeps the ledger; returning moves the call to the history. -/
theorem Client.Resumes.ledger {c cl : Client} {out : List ToClerk} (h : c.Resumes cl out)
    (hc : c.Ledger qs) : cl.Ledger qs := by
  have hcalls := hc.calls
  cases h with
  | nop hpc hflag => rw [hpc] at hcalls; exact ⟨hcalls, hc.acks⟩
  | rewind hpc hguard => rw [hpc] at hcalls; exact ⟨hcalls, hc.acks⟩
  | space hpc hguard => rw [hpc] at hcalls; exact ⟨hcalls, hc.acks⟩
  | close hpc => rw [hpc] at hcalls; exact ⟨hcalls, hc.acks⟩
  | @ret q hcall hflag =>
    obtain ⟨hpending, hack⟩ : c.pc.pending = [q] ∧ c.pc.ack.map Prod.fst = Hybrid.writes [q] := by
      generalize c.pc = p at hcall
      cases p <;> cases hcall <;> exact ⟨rfl, rfl⟩
    constructor
    · show qs = (c.history ++ [(q, _)]).map Prod.fst ++ []
      rw [hcalls, hpending, List.map_append, List.append_nil]
      rfl
    · show (c.acks ++ c.pc.ack).map Prod.fst = Hybrid.writes ((c.history ++ [(q, _)]).map Prod.fst)
      rw [List.map_append, List.map_append, writes_append, hc.acks, hack]
      rfl

/-- What a loop leads to is in the call that entered it. -/
theorem Client.Resumes.pending {c cl : Client} {out : List ToClerk} (h : c.Resumes cl out) :
    cl.pc.pending = c.pc.pending ∨ cl.pc.pending = [] := by
  cases h with
  | nop hpc hflag => exact .inl (by rw [hpc]; rfl)
  | rewind hpc hguard => exact .inl (by rw [hpc]; rfl)
  | space hpc hguard => exact .inl (by rw [hpc]; rfl)
  | close hpc => exact .inl (by rw [hpc]; rfl)
  | ret hcall hflag => exact .inr rfl

/-- A call is under way, and has changed nothing yet. -/
theorem Client.call_pending (c : Client) (q : Call) : (c.call q).1.history = c.history ∧
    (c.call q).1.acks = c.acks ∧ (c.call q).1.pc.pending = [q] := by
  cases q with
  | write r =>
    simp only [Client.call, sendWrite]
    split <;> exact ⟨rfl, rfl, rfl⟩
  | _ => exact ⟨rfl, rfl, rfl⟩

/-- Entering a call. -/
theorem Client.Ledger.call {c : Client} (h : c.Ledger qs) (hidle : c.pc = .idle) (q : Call) :
    (c.call q).1.Ledger (qs ++ [q]) := by
  obtain ⟨hhist, hacks, hpending⟩ := c.call_pending q
  constructor
  · rw [hhist, hpending, h.idle hidle]
  · rw [hacks, hhist]
    exact h.acks

/-- The ledger is kept throughout a run. -/
theorem run_ledger (hinit : system.init s₀) (hrun : system.Run s₀ tr s) :
    s.1.client.Ledger (calls tr) := by
  induction hrun with
  | nil =>
    obtain ⟨-, writeBuf, flag, m, m', -, hs⟩ := hinit
    rw [hs]
    exact ⟨rfl, rfl⟩
  | @snoc tr s l s' hrun hstep ih =>
    have hsound := reachable_sole ⟨s₀, tr, hinit, hrun⟩
    rw [calls_append]
    by_cases hq : ∃ q, l = .call q
    · obtain ⟨q, rfl⟩ := hq
      obtain ⟨hidle, -, hs'⟩ := Conn.call_step hstep
      rw [hs']
      exact ih.call hidle q
    · have hnone : calls [(s, l)] = [] := by
        cases l with
        | call q => exact absurd ⟨q, rfl⟩ hq
        | _ => rfl
      rw [hnone, List.append_nil]
      by_cases hcl : l = .client
      · subst hcl
        obtain ⟨-, -, cl, out, hres, hs'⟩ := client_step hstep
        rw [hs']
        exact hres.ledger ih
      · obtain ⟨hpc, hacks, hhist⟩ :=
          Conn.step_client hsound.inv hstep hcl (fun q hl => hq ⟨q, hl⟩)
        constructor
        · rw [hhist, hpc]
          exact ih.calls
        · rw [hacks, hhist]
          exact ih.acks

/-- The records of the open batch and the one under way are in `K`. -/
structure Conn.Within (K : Record → Prop) (c : Conn) : Prop where
  opened : ∀ w ∈ c.clerk.openRecs, K w.record
  asked : ∀ r ∈ writes c.client.pc.pending, K r

theorem Conn.Serves.opened (h : c.Serves sh c' sh') :
    ∀ w ∈ c'.clerk.openRecs, w ∈ c.clerk.openRecs ∨ w.record ∈ writes c.client.pc.pending := by
  intro w hw
  cases h with
  | nop hpc => cases hw
  | @short r pos hpc htake hlt =>
    rcases List.mem_append.mp hw with hw | hw
    · exact .inl hw
    · rw [List.mem_singleton.mp hw, hpc]
      exact .inr List.mem_cons_self
  | full hpc htake hge => cases hw
  | get hpc hkey hsize =>
    obtain ⟨st, n, v, hget⟩ := c.woken.get_eq_reply sh
    rw [hget] at hw
    exact .inl hw
  | closeFull hpc hne => cases hw
  | _ => exact .inl hw

theorem Conn.Within.step {K : Record → Prop} (h : c.Within K) (hinv : c.Inv sh.mem)
    (hstep : c.step sh l = some (c', sh')) (hl : ∀ r, l = .call (.write r) → K r) :
    c'.Within K := by
  constructor
  · intro w hw
    by_cases hserve : l = .serve
    · subst hserve
      rcases (serve_serves hinv.phase hinv.batch hstep).1.opened w hw with hw | hw
      · exact h.opened w hw
      · exact h.asked _ hw
    · rw [(step_books hstep hserve).openRecs] at hw
      exact h.opened w hw
  · intro r hr
    rcases step_pc hinv hstep with hpc | ⟨q, rfl, hpc⟩ | ⟨cl, out, hres, hpc⟩
    · rw [hpc] at hr
      exact h.asked r hr
    · rw [hpc, (c.client.call_pending q).2.2] at hr
      cases q with
      | write r' =>
        obtain rfl : r = r' := List.mem_singleton.mp hr
        exact hl r rfl
      | _ => cases hr
    · rw [hpc] at hr
      rcases hres.pending with hp | hp
      · rw [hp] at hr
        exact h.asked r hr
      · rw [hp] at hr
        cases hr

/-- Throughout a run whose writes are in `K`. -/
theorem run_within {K : Record → Prop} {s' : Conn × Shared} (hs : Sound s) (h : s.1.Within K)
    (hrun : system.Run s tr s') (hcalls : ∀ r ∈ writes (calls tr), K r) :
    ∀ p ∈ tr, p.1.1.Within K := by
  have hkeeps : (Sound s' ∧ s'.1.Within K) ∧ ∀ p ∈ tr, p.1.1.Within K := by
    induction hrun with
    | nil => exact ⟨⟨hs, h⟩, by simp⟩
    | @snoc tr s₁ l s₂ hrun hstep ih =>
      rw [calls_append, writes_append] at hcalls
      obtain ⟨⟨hs₁, h₁⟩, hall⟩ := ih fun r hr => hcalls r (List.mem_append_left _ hr)
      have hl : ∀ r, l = .call (.write r) → K r := by
        rintro r rfl
        exact hcalls r (List.mem_append_right _ List.mem_cons_self)
      refine ⟨⟨hs₁.step hstep, h₁.step hs₁.inv hstep hl⟩, fun p hp => ?_⟩
      rcases List.mem_append.mp hp with hp | hp
      · exact hall p hp
      · rw [List.mem_singleton.mp hp]
        exact h₁
  exact hkeeps.2

/-- The clerk has taken only records that were written. -/
theorem taken_written (hinit : system.init s₀) (hrun : system.Run s₀ tr s) :
    ∀ w ∈ s.1.clerk.placed, w.record ∈ writes (calls tr) := by
  intro w hw
  have hack := List.mem_map_of_mem (f := Stored.ack) hw
  have hsettled : s.1.Settled → w.record ∈ s.1.client.acks.map Prod.fst ∨
      w.record ∈ s.1.client.pc.ack.map Prod.fst := by
    intro hb
    rw [hb.2] at hack
    exact .inl (List.mem_map_of_mem hack)
  have hmem : w.record ∈ s.1.client.acks.map Prod.fst ∨
      w.record ∈ s.1.client.pc.ack.map Prod.fst := by
    rcases (reachable_sole ⟨s₀, tr, hinit, hrun⟩).inv.phase with hq | ⟨l, hr⟩ | ⟨l, hr⟩ | hl | hc
    · exact hsettled hq.books
    · exact hsettled hr.books
    · rw [hr.books.2, List.mem_append] at hack
      rcases hack with hack | hack
      · exact .inl (List.mem_map_of_mem hack)
      · exact .inr (List.mem_map_of_mem hack)
    · exact hsettled hl.books
    · exact hsettled hc.books
  have hpending : ∀ r ∈ s.1.client.pc.ack.map Prod.fst, r ∈ writes s.1.client.pc.pending := by
    generalize s.1.client.pc = p
    cases p <;> simp [ClientPc.ack, ClientPc.pending, writes]
  rw [(run_ledger hinit hrun).writes, List.mem_append]
  exact hmem.imp id (hpending w.record)

/-- While nothing is answered, what the clerk has taken is what was acknowledged. -/
theorem Conn.Settled.total (h : c.Settled) :
    Batch.total (records c.clerk.placed) + Batch.total (writes c.client.pc.pending) =
      Batch.total (c.client.acks.map Prod.fst ++ writes c.client.pc.pending) := by
  have hrecs : records c.clerk.placed = c.client.acks.map Prod.fst := by
    rw [← h.2, List.map_map]
    rfl
  rw [hrecs, Batch.total_append]

/-! ## Runs that never fill a batch -/

/-- There is no detached thread: none at all while the clerk runs, and only the
synchronous one after `CLOSE`. -/
structure Conn.NoDetached (c : Conn) : Prop where
  running : c.clerk.pc = .running ∨ c.clerk.pc = .closing none → c.clerk.threads = []
  closing : ∀ i, c.clerk.pc = .closing (some i) → i = 0 ∧ c.clerk.threads.length = 1

theorem Conn.NoDetached.of_nil (h : c.clerk.threads = [])
    (hpc : ∀ i, c.clerk.pc ≠ .closing (some i)) : c.NoDetached :=
  ⟨fun _ => h, fun i hi => absurd hi (hpc i)⟩

/-- The clerk's state changes by its own steps only. -/
theorem Conn.step_clerk_same (h : c.step sh l = some (c', sh')) (hs : l ≠ .serve)
    (hcb : l ≠ .callback) : c'.clerk.pc = c.clerk.pc := by
  cases l with
  | serve => exact absurd rfl hs
  | callback => exact absurd rfl hcb
  | call q =>
    obtain ⟨-, -, rfl⟩ := call_step h
    rfl
  | client =>
    obtain ⟨-, -, cl, out, -, rfl⟩ := client_step h
    rfl
  | toClerk =>
    obtain ⟨w, ws, -, rfl, -⟩ := toClerk_step h
    cases w <;> rfl
  | toClient =>
    obtain ⟨w, ws, -, rfl, -⟩ := toClient_step h
    cases w <;> rfl
  | persist i =>
    obtain ⟨t, -, -, -, rfl, -⟩ := persist_step h
    rfl
  | post i =>
    obtain ⟨t, -, -, -, rfl⟩ := post_step h
    rfl

theorem Conn.step_clerk (h : c.step sh l = some (c', sh')) (hs : l ≠ .serve) :
    c'.clerk.pc = c.clerk.pc ∨ (∃ sync, c.clerk.pc = .closing sync) ∧ c'.clerk.pc = .closed := by
  by_cases hcb : l = .callback
  · subst hcb
    obtain ⟨sync, hpc, -, -, rfl⟩ := callback_step h
    exact .inr ⟨⟨sync, hpc⟩, rfl⟩
  · exact .inl (Conn.step_clerk_same h hs hcb)

/-- The clerk neither fills a batch nor flushes one on `NOP`. -/
theorem Conn.NoDetached.serve (h : c.NoDetached) (hinv : c.Inv sh.mem) (hwf : c.ring.Wf)
    (hstep : c.step sh .serve = some (c', sh'))
    (hsmall : Batch.total (c.client.acks.map Prod.fst ++ writes c.client.pc.pending) < batchSize) :
    c'.NoDetached := by
  obtain ⟨hsv, hrun, hb⟩ := serve_serves hinv.phase hinv.batch hstep
  have hnil : c.clerk.threads = [] := h.running (.inl hrun)
  -- the open batch is all that was taken, so the next record has room in it
  have hroom : ∀ l, c.Requested sh.mem l →
      c.clerk.batchLength + Batch.total (writes c.client.pc.pending) < batchSize := by
    intro l hr
    have hpart : c.clerk.placed = c.clerk.threads.flatMap Thread.recs ++ c.clerk.openRecs :=
      hwf.partition
    have htotal := hr.books.total
    rw [hpart, hnil, List.flatMap_nil, List.nil_append, ← hb.laid.len_eq] at htotal
    omega
  have hrequested := hinv.phase.requested (serve_step hstep).2.1
  have hnot : ∀ i, c.clerk.pc ≠ .closing (some i) := by simp [hrun]
  cases hsv with
  | @nop r hpc =>
    obtain ⟨l, hr⟩ := hrequested (by rw [hpc]; trivial)
    have hheads := hr.heads
    have hlen := hroom l hr
    have htail : ringHeader = c.clerk.bufTail := by
      have hchain : Chain ringHeader 0 c.clerk.threads c.clerk.bufTail c.clerk.lap := hwf.chain
      rw [hnil] at hchain
      exact hchain.1
    simp only [HeadsBefore, hpc, clerkHead] at hheads
    rw [hpc] at hlen
    have hlen : c.clerk.batchLength + (r.length + 0) < batchSize := hlen
    have : ringHeader + batchSize < maxAsyncSize := by decide
    omega
  | @full r pos hpc htake hge =>
    obtain ⟨l, hr⟩ := hrequested (by rw [hpc]; trivial)
    have hlen := hroom l hr
    rw [hpc] at hlen
    have hlen : c.clerk.batchLength + (r.length + 0) < batchSize := hlen
    omega
  | short hpc htake hlt => exact .of_nil hnil hnot
  | get hpc hkey hsize =>
    obtain ⟨st, n, v, hget⟩ := c.woken.get_eq_reply sh
    rw [hget]
    exact .of_nil hnil hnot
  | sync hpc => exact .of_nil hnil hnot
  | delete hpc => exact .of_nil hnil hnot
  | closeFull hpc hne =>
    refine ⟨?_, fun i hi => ?_⟩
    · rintro (hpc' | hpc') <;> cases hpc'
    · cases hi
      refine ⟨List.length_eq_zero_iff.mpr hnil, ?_⟩
      show (c.clerk.threads ++ [_]).length = 1
      rw [hnil]
      rfl
  | closeEmpty hpc he => exact .of_nil hnil fun i hi => by cases hi

/-- Without a full batch there is no detached thread. -/
theorem run_noDetached (hinit : system.init s₀) (hrun : system.Run s₀ tr s)
    (hsmall : Batch.total (writes (calls tr)) < batchSize) : s.1.NoDetached := by
  induction hrun with
  | nil =>
    obtain ⟨-, writeBuf, flag, m, m', -, hs⟩ := hinit
    rw [hs]
    exact .of_nil rfl (by simp [Conn.fresh])
  | @snoc tr s l s' hrun hstep ih =>
    have hs := reachable_sole ⟨s₀, tr, hinit, hrun⟩
    rw [calls_append, writes_append, Batch.total_append] at hsmall
    have hno := ih (by omega)
    by_cases hl : l = .serve
    · subst hl
      have htotal := congrArg Batch.total (run_ledger hinit hrun).writes
      exact hno.serve hs.inv hs.wf hstep (by omega)
    · obtain ⟨hnf, hnt⟩ := Conn.event_not_flush (c := s.1) hl
      have hlen : s'.1.clerk.threads.length = s.1.clerk.threads.length :=
        (Conn.step_ring hs.inv hstep).length_eq hnf hnt
      rcases Conn.step_clerk hstep hl with hpc | ⟨-, hpc⟩
      · refine ⟨fun hr => ?_, fun i hi => ?_⟩
        · rw [hpc] at hr
          rw [hno.running hr] at hlen
          exact List.length_eq_zero_iff.mp hlen
        · rw [hpc] at hi
          rw [hlen]
          exact hno.closing i hi
      · refine ⟨fun hr => ?_, fun i hi => ?_⟩
        · rcases hr with hr | hr <;> rw [hpc] at hr <;> cases hr
        · rw [hpc] at hi
          cases hi

/-- So it is in every state the run visits. -/
theorem visited_noDetached (hinit : system.init s₀) (hrun : system.Run s₀ tr s)
    (hsmall : Batch.total (writes (calls tr)) < batchSize) :
    ∀ p ∈ tr, Sole p.1 ∧ p.1.1.NoDetached := by
  intro p hp
  obtain ⟨tr', hrun', x, rfl⟩ := hrun.visited p hp
  rw [calls_append, writes_append, Batch.total_append] at hsmall
  exact ⟨reachable_sole ⟨s₀, tr', hinit, hrun'⟩, run_noDetached hinit hrun' (by omega)⟩

end LogDirect.Hybrid
