import LogDirect.Hybrid.Coordination
import LogDirect.Hybrid.Calls
import LogDirect.Hybrid.Lap

/-!
# Durability of acknowledged writes, and waiting for space

An acknowledged record must be in the log or still in the ring. The client's two
wait loops are meant to keep it from writing over a batch that is not persisted
yet; they do so if the persist threads get the mutex in order and the client
does not rewind while a thread owns the start of the ring
(`durable_of_in_order`). In-order threads alone keep the client from waiting for
a tail word that never comes (`not_stuck_of_in_order`).
-/

namespace LogDirect.Hybrid

open Lib TSys

/-! ## Conditions on the steps of a run, for the ring -/

variable {s s' : Conn × Shared} {l : Label}

theorem InOrder.ring (h : InOrder s l) : s.1.ring.InOrder (s.1.event l) := by
  cases l with
  | persist i => exact h
  | client =>
    simp only [Conn.event]
    split <;> trivial
  | toClient =>
    simp only [Conn.event]
    split <;> trivial
  | serve =>
    simp only [Conn.event]
    split <;> first
      | trivial
      | (split <;> trivial)
  | _ => trivial

theorem Cleared.ring (h : Cleared s l) : s.1.ring.Cleared (s.1.event l) := by
  cases l with
  | client =>
    simp only [Conn.event]
    split
    · trivial
    · rename_i r hpc
      exact h r hpc
    · trivial
  | toClient =>
    simp only [Conn.event]
    split <;> trivial
  | serve =>
    simp only [Conn.event]
    split <;> first
      | trivial
      | (split <;> trivial)
  | _ => trivial

/-! ## Waiting for space -/

/-- A client that spins has a tail word to come. -/
def NotStuck (s : Conn × Shared) : Prop :=
  s.1.client.Spins → ∃ t ∈ s.1.clerk.threads, t.stage ≠ .done

/-- Sound states whose threads finish in order. -/
theorem Sound.fifo_step (h : Sound s ∧ s.1.ring.Fifo) (hord : InOrder s l)
    (hs : system.step s l = some s') : Sound s' ∧ s'.1.ring.Fifo :=
  ⟨h.1.step hs, h.2.step h.1.wf hord.ring (Conn.step_ring h.1.inv hs)⟩

theorem init_fifo (h : system.init s) : Sound s ∧ s.1.ring.Fifo := by
  refine ⟨(init_sole h).toSound, ?_⟩
  obtain ⟨-, writeBuf, flag, m, m', -, hs⟩ := h
  rw [hs]
  exact ⟨[], [], 0, rfl, by simp, ⟨rfl, rfl⟩, rfl, rfl⟩

theorem not_stuck_of_fifo (h : Sound s) (hf : s.1.ring.Fifo) : NotStuck s := by
  intro hspins
  by_contra hnone
  have hdone : ∀ u ∈ s.1.ring.threads, u.stage = .done := by
    intro u hu
    by_contra hne
    exact hnone ⟨u, hu, hne⟩
  -- all tail words are delivered, so the client sees the clerk's tail
  have hword : s.1.client.bufTail = s.1.clerk.bufTail := hf.drained hdone
  rcases hspins with ⟨r, hpc, hle⟩ | ⟨r, hpc, hlt, -⟩
  · have hq := h.inv.phase.waiting (by simp [hpc, ClientPc.Awaits]) (by simp [hpc])
      (by simp [hpc])
    have hheads := hq.heads
    simp only [Conn.HeadsBefore, hpc] at hheads
    obtain ⟨htail, -, hhead, hfull, -⟩ := hheads
    have hlen := r.length_le
    have : ringHeader + (maxRequest - ringHeader) < maxAsyncSize := by decide
    omega
  · have hq := h.inv.phase.waiting (by simp [hpc, ClientPc.Awaits]) (by simp [hpc])
      (by simp [hpc])
    have hheads := hq.heads
    simp only [Conn.HeadsBefore, hpc, Conn.clerkHead] at hheads
    omega

/-- In every run whose persist threads get the mutex in order, a client that
waits for space has a tail word to come. -/
theorem not_stuck_of_in_order {s₀ : Conn × Shared} {tr : List ((Conn × Shared) × Label)}
    (hinit : system.init s₀) (hrun : system.Run s₀ tr s) (hord : Meets InOrder tr) :
    Throughout NotStuck tr s := by
  refine hrun.throughout hord fun tr s hrun hord => ?_
  have hinv := hrun.invariant (init_fifo hinit) (fun s l s' => Sound.fifo_step) hord
  exact not_stuck_of_fifo hinv.1 hinv.2

/-- Nineteen writes, with the threads in order: the last one waits for the rewind, and returns. -/
theorem nineteen_writes_not_stuck :
    ∃ tr s, system.Run boot tr s ∧
      calls tr = (List.replicate 18 (sample 1 6991) ++ [sample 2 6991]).map .write ∧
      Meets InOrder tr ∧ (∃ p ∈ tr, p.1.1.client.Spins) ∧ s.1.client.pc = .idle ∧
      Throughout NotStuck tr s := by
  obtain ⟨tr, s, hrun, hcalls, hok, hspins, hrest, -⟩ :=
    lap_in_order (length_sample 1 6991 (by decide) (by decide))
      (length_sample 2 6991 (by decide) (by decide))
  have hord : Meets InOrder tr := hok.mono fun _ _ h => h.1
  exact ⟨tr, s, hrun, hcalls, hord, hspins, hrest.idle, not_stuck_of_in_order boot_init hrun hord⟩

/-- If the thread of the `NOP` gets the mutex before the last full batch's, the tail word ends
at the head, and the client waits for ever. -/
theorem late_tail_word_blocks {r : Record} (hr : r.length = 7000) :
    ∃ tr s, system.Run boot tr s ∧ calls tr = (List.replicate 19 r).map .write ∧
      ¬ NotStuck s := by
  obtain ⟨tr₁, c, sh, hrun₁, -, hcalls₁, hfull⟩ := full_lap hr hr
  obtain ⟨tr₂, word, threads, logged, log, hrun₂, hcalls₂, hthreads, hword, -⟩ :=
    threads_finish [0, 1, 2, 3, 4, 6, 5] (by decide) sh hfull.toClient hfull.mu (by
      intro i hi
      have hi7 : i < c.clerk.threads.length := by
        rw [hfull.threads]
        revert i
        decide
      exact ⟨_, List.getElem?_eq_getElem hi7, hfull.pending _ (List.getElem_mem hi7)⟩)
  refine ⟨tr₁ ++ tr₂, _, hrun₁.trans hrun₂, ?_, fun hns => ?_⟩
  · rw [calls_append, hcalls₁, hcalls₂, List.append_nil, List.replicate_succ' (n := 18)]
  · obtain ⟨u, hu, htail⟩ := hfull.sixth
    have hword : word = 126008 := by
      rw [hword]
      show (c.clerk.threads[5]?).elim _ _ = _
      rw [hu]
      exact htail
    obtain ⟨t, ht, hnd⟩ := hns (.inl ⟨r, hfull.pc, by
      show c.client.bufHead ≤ word
      rw [hword, hfull.head]⟩)
    obtain ⟨j, hj⟩ := List.getElem?_of_mem ht
    have hj : threads[j]? = some t := hj
    rw [hthreads, Option.map_eq_some_iff] at hj
    obtain ⟨v, hv, rfl⟩ := hj
    have hj7 : j < 7 := hfull.threads ▸ (List.getElem?_eq_some_iff.mp hv).1
    have hall : ∀ k < 7, k ∈ [0, 1, 2, 3, 4, 6, 5] := by decide
    exact hnd (by rw [if_pos (hall j hj7)])

/-- A concrete run that ends with the client waiting for ever. -/
theorem late_tail_word_blocks_sample :
    ∃ tr s, system.Run boot tr s ∧
      calls tr = (List.replicate 19 (sample 1 6991)).map .write ∧
      ¬ NotStuck s :=
  late_tail_word_blocks (length_sample _ _ _ _)

/-! ## Durability -/

/-- The `i`-th write's record `r` is in the log. -/
def InLog (s : Conn × Shared) (i : Nat) (r : Record) : Prop :=
  ∃ pre w post, s.1.clerk.logged = pre ++ w :: post ∧ w.seq = i ∧ w.record = r ∧
    s.2.log = Batch.bytes (records pre) ++ r.encode ++ Batch.bytes (records post)

/-- Every acknowledged record is in the log or intact in the ring, and no write
on its way to the ring will hit one that is not in the log. -/
structure Durable (s : Conn × Shared) : Prop where
  kept : ∀ (i : Nat) (r : Record) (pos : Nat), s.1.client.acks[i]? = some (r, pos) →
    InLog s i r ∨ s.2.mem.read (s.1.clerk.writeBuf + pos) r.length = r.encode
  spared : ∀ (off : Nat) (bs : Bytes), .ring off bs ∈ s.1.toClerk →
    ∀ (i : Nat) (r : Record) (pos : Nat), s.1.client.acks[i]? = some (r, pos) →
      InLog s i r ∨ pos + r.length ≤ off ∨ off + bs.length ≤ pos

/-- The stretches the threads own are intact. -/
def Intact (c : Conn) (m : Mem) : Prop :=
  ∀ u ∈ c.clerk.threads, u.stage ≠ .done →
    m.read (c.clerk.writeBuf + u.start) u.size = u.buffer

/-- A write on its way to the ring misses the stretches the threads own. -/
theorem ring_write_misses (h : Sound s) (ha : s.1.ring.Ahead) {off : Nat} {bs : Bytes}
    (hmem : .ring off bs ∈ s.1.toClerk) :
    ∀ u ∈ s.1.clerk.threads, u.stage ≠ .done →
      u.start + u.size ≤ off ∨ off + bs.length < u.start := by
  intro u hu hd
  obtain ⟨r, -, rfl, hoff, hlap, hhead, -, -⟩ := h.inv.phase.ring_write hmem
  rw [Record.length_encode]
  rcases ha u hu hd with hsame | ⟨-, hahead⟩
  · left
    have hsame : u.lap = s.1.clerk.lap := hsame.trans hlap.symm
    have hle := (h.wf.chain.bounds.2 u hu).2.2.2.2 hsame
    have htail : u.start + u.size ≤ s.1.clerk.bufTail := hle
    rw [hoff, Conn.clerkHead]
    omega
  · right
    have hahead : s.1.client.bufHead < u.start := hahead
    omega

/-- A flush adds a stretch that is intact. -/
theorem Intact.flushed {c c' : Conn} {k : Clerk} {m : Mem} (h : Intact c m) (hl : k.Laid m)
    (hbuf : k.writeBuf = c.clerk.writeBuf) (hth : k.threads = c.clerk.threads)
    (hbuf' : c'.clerk.writeBuf = k.writeBuf)
    (hth' : c'.clerk.threads = (k.spawn (Batch.bytes (records k.openRecs))).threads) :
    Intact c' m := by
  intro u hu hd
  rw [hth'] at hu
  rw [hbuf']
  rcases List.mem_append.mp hu with hu | hu
  · rw [hbuf]
    exact h u (hth ▸ hu) hd
  · rw [List.mem_singleton.mp hu]
    have hring := hl.ring
    rw [hl.len_eq] at hring
    exact hring

/-- A turn of the clerk keeps the stretches intact. -/
theorem Intact.serve {c c' : Conn} {sh sh' : Shared} (h : Intact c sh.mem)
    (hb : c.clerk.BatchInv sh.mem) (hs : c.Serves sh c' sh') : Intact c' sh'.mem := by
  rw [hs.frame.1]
  cases hs with
  | nop hpc => exact h.flushed (Conn.woken_laid hb.laid) rfl rfl rfl rfl
  | short hpc htake hlt => exact h
  | full hpc htake hge => exact h.flushed htake rfl rfl rfl rfl
  | get hpc hkey hsize =>
    obtain ⟨st, n, v, hget⟩ := c.woken.get_eq_reply sh
    rw [hget]
    exact h
  | sync hpc => exact h
  | delete hpc => exact h
  | closeFull hpc hne => exact h.flushed (Conn.woken_laid hb.laid) rfl rfl rfl rfl
  | closeEmpty hpc he => exact h

/-- Every step keeps the stretches intact, as long as the head is behind them. -/
theorem Intact.step (h : Intact s.1 s.2.mem) (hs : Sound s) (ha : s.1.ring.Ahead)
    (hstep : system.step s l = some s') : Intact s'.1 s'.2.mem := by
  by_cases hl : l = .toClerk
  · subst hl
    obtain ⟨w, ws, hw, h1, h2⟩ := Conn.toClerk_step hstep
    rw [h1, h2]
    cases w with
    | ring off bs =>
      intro u hu hd
      have hmiss := ring_write_misses hs ha (hw ▸ List.mem_cons_self) u hu hd
      show (s.2.mem.write (s.1.clerk.writeBuf + off) bs).read
        (s.1.clerk.writeBuf + u.start) u.size = _
      rw [Mem.read_write_of_disjoint _ (by omega)]
      exact h u hu hd
    | body bs => exact h
    | header v => exact h
    | send => exact h
  · by_cases hserve : l = .serve
    · subst hserve
      obtain ⟨hsv, -, hb⟩ := Conn.serve_serves hs.inv.phase hs.inv.batch hstep
      exact h.serve hb hsv
    · -- other steps move a thread from stage to stage at most
      have hmem := Conn.step_mem hs.inv hl hstep
      have hbuf := Conn.step_writeBuf hs.inv hstep
      intro u hu hd
      obtain ⟨hnf, hnt⟩ := Conn.event_not_flush (c := s.1) hserve
      obtain ⟨v, hv, heq, hvd⟩ := (Conn.step_ring hs.inv hstep).origin hs.wf hnf hnt hu
      have hold := h v hv (hvd hd)
      rw [hmem, hbuf, heq]
      exact hold

/-- A record whose thread has appended its batch is in the log. -/
theorem Sole.inLog (h : Sole s) {u : Thread} (hu : u ∈ s.1.clerk.threads) (hst : u.stage ≠ .pending)
    {w : Stored} (hw : w ∈ u.recs) : InLog s w.seq w.record := by
  obtain ⟨j, hj⟩ := List.getElem?_of_mem hu
  have hmem : w ∈ s.1.clerk.logged :=
    h.wf.logged.mem_iff.mpr (mem_persisted.mpr ⟨j, u, hj, hst, hw⟩)
  obtain ⟨pre, post, hsplit⟩ := List.append_of_mem hmem
  refine ⟨pre, w, post, hsplit, rfl, rfl, ?_⟩
  rw [h.log, hsplit]
  simp [records]

/-- What keeps acknowledged records safe. -/
structure Safe (s : Conn × Shared) : Prop where
  sole : Sole s
  fifo : s.1.ring.Fifo
  ahead : s.1.ring.Ahead
  intact : Intact s.1 s.2.mem

theorem Safe.sound (h : Safe s) : Sound s := h.sole.toSound

theorem Safe.step (h : Safe s) (hok : InOrder s l ∧ Cleared s l) (hs : system.step s l = some s') :
    Safe s' := by
  have hring := Conn.step_ring h.sound.inv hs
  exact ⟨h.sole.step hs, h.fifo.step h.sound.wf hok.1.ring hring,
    h.ahead.step h.sound.wf h.fifo hok.2.ring hring, h.intact.step h.sound h.ahead hs⟩

theorem init_safe (h : system.init s) : Safe s := by
  have hsole := init_sole h
  obtain ⟨-, hfifo⟩ := init_fifo h
  obtain ⟨-, writeBuf, flag, m, m', -, hs⟩ := h
  refine ⟨hsole, hfifo, ?_, ?_⟩
  · intro u hu
    rw [hs] at hu
    cases hu
  · intro u hu
    rw [hs] at hu
    cases hu

theorem Safe.durable (h : Safe s) : Durable s := by
  constructor
  · intro i r pos hack
    obtain ⟨w, rfl, rfl, rfl, hw | ⟨u, hu, hw⟩⟩ := h.sound.acked hack
    · exact .inr ((h.sound.running hw).laid.intact w hw)
    · by_cases hst : u.stage = .pending
      · right
        have hwf := (h.sound.wf.chain.bounds.2 u hu).1
        have hread := h.intact u hu (by rw [hst]; decide)
        rw [hwf.buffer] at hread
        exact hwf.placed.read hread w hw
      · exact .inl (h.sole.inLog hu hst hw)
  · intro off bs hmem i r pos hack
    obtain ⟨w, rfl, rfl, rfl, hw | ⟨u, hu, hw⟩⟩ := h.sound.acked hack
    · obtain ⟨-, -, -, hoff, -⟩ := h.sound.inv.phase.ring_write hmem
      have hl := (h.sound.running hw).laid
      have hbounds := hl.placed.bounds w hw
      rw [← hl.len_eq] at hbounds
      rw [Conn.clerkHead] at hoff
      exact .inr (.inl (by omega))
    · by_cases hst : u.stage = .pending
      · have hbounds := (h.sound.wf.chain.bounds.2 u hu).1.placed.bounds w hw
        have hsize : Batch.total (records u.recs) = u.size := rfl
        have hmiss := ring_write_misses h.sound h.ahead hmem u hu (by rw [hst]; decide)
        exact .inr (by omega)
      · exact .inl (h.sole.inLog hu hst hw)

/-- In every run whose persist threads get the mutex in order and whose client
rewinds only onto a cleared start of the ring, acknowledged records are durable. -/
theorem durable_of_in_order {s₀ : Conn × Shared} {tr : List ((Conn × Shared) × Label)}
    (hinit : system.init s₀) (hrun : system.Run s₀ tr s)
    (hok : Meets (fun s l => InOrder s l ∧ Cleared s l) tr) : Throughout Durable tr s := by
  refine hrun.throughout hok fun tr s hrun hok => ?_
  exact (hrun.invariant (init_safe hinit) (fun s l s' => Safe.step) hok).durable

/-- Nineteen writes, with the threads in order: the last record takes the place of the first,
which is in the log. -/
theorem nineteen_writes_durable :
    ∃ tr s, system.Run boot tr s ∧
      calls tr = (List.replicate 18 (sample 1 6991) ++ [sample 2 6991]).map .write ∧
      Meets (fun s l => InOrder s l ∧ Cleared s l) tr ∧
      s.1.client.acks[0]? = some (sample 1 6991, ringHeader) ∧
      s.1.client.acks[18]? = some (sample 2 6991, ringHeader) ∧ Throughout Durable tr s := by
  obtain ⟨tr, s, hrun, hcalls, hok, -, -, hfirst, hlast⟩ :=
    lap_in_order (length_sample 1 6991 (by decide) (by decide))
      (length_sample 2 6991 (by decide) (by decide))
  exact ⟨tr, s, hrun, hcalls, hok, hfirst, hlast, durable_of_in_order boot_init hrun hok⟩

/-- Records of 8184 bytes: sixteen fill the lap, and the next one makes the client
rewind. No persist thread has run, so the tail word still is `RING_HEADER`: the
client takes the ring for empty and writes over the first record. -/
theorem rewind_overwrites {old new : Record} (hold : old.length = 8184)
    (hnew : new.length = 8184) (hne : old.encode ≠ new.encode) :
    ∃ tr s, system.Run boot tr s ∧
      calls tr = (List.replicate 16 old ++ [new]).map .write ∧ ¬ Durable s := by
  obtain ⟨s, ⟨tr, hrun, -, hcalls⟩, hu, hring, -⟩ :=
    (init_untouched boot_init).writes (List.replicate 16 old ++ [new])
  refine ⟨tr, s, hrun, hcalls, fun hdur => ?_⟩
  have hack : s.1.client.acks[0]? = some (old, ringHeader) := by
    rw [hu.atRest.acks_eq, List.getElem?_map, hring]
    exact congrArg (Option.map Stored.ack) (boot_first old _)
  obtain ⟨g, hload, hring⟩ : ∃ g : Ring, g.load = (130952, 8184, 5) ∧
      s.1.ring = g.sendWrite new := by
    refine ⟨(List.replicate 16 old).foldl Ring.sendWrite boot.1.ring, ?_, ?_⟩
    · rw [Ring.load_writes, List.map_replicate, hold, boot_load]
      decide
    · rw [hring, List.foldl_append]
      rfl
  -- the new record lies at the start of the ring, intact
  have hfull : ¬ g.head + new.length < maxAsyncSize := by
    rw [show g.head = 130952 from congrArg Prod.fst hload, hnew]
    decide
  have hlt : (g.rewound new).size + new.length < batchSize := by
    rw [hnew]
    show 0 + 8184 < batchSize
    decide
  have hopen : ⟨g.placed.length, new, ringHeader⟩ ∈ s.1.clerk.openRecs := by
    have hput : s.1.ring.openRecs = [(g.rewound new).next new] := by
      rw [hring, Ring.sendWrite, if_neg hfull, Ring.put, if_pos hlt]
      rfl
    have htail : (g.rewound new).tail = ringHeader := by
      refine if_pos ?_
      rw [show g.size = 8184 from congrArg (fun p => p.2.1) hload]
      decide
    have hnext : (g.rewound new).next new = ⟨g.placed.length, new, ringHeader⟩ := by
      rw [Ring.next, htail]
      rfl
    show _ ∈ s.1.ring.openRecs
    rw [hput, hnext]
    exact List.mem_singleton.mpr rfl
  have hread := (hu.atRest.sound.running hopen).laid.intact _ hopen
  rcases hdur.kept 0 old ringHeader hack with ⟨pre, w, post, hlogged, -⟩ | hkept
  · have hnone : s.1.clerk.logged = [] := hu.logged
    rw [hnone] at hlogged
    simp at hlogged
  · rw [hold, ← hnew] at hkept
    exact hne (hkept.symm.trans hread)

/-- A concrete run in which an acknowledged record is lost from the ring before it
is in the log. -/
theorem unpersisted_record_overwritten :
    ∃ tr s, system.Run boot tr s ∧
      calls tr = (List.replicate 16 (sample 1 8175) ++ [sample 2 8175]).map .write ∧
      ¬ Durable s := by
  refine rewind_overwrites (length_sample _ _ _ _) (length_sample _ _ _ _) fun h => ?_
  have hdrop := congrArg (List.drop sizeofRequest) h
  rw [Record.drop_encode, Record.drop_encode] at hdrop
  exact absurd (List.cons.inj hdrop).1 (by decide)

end LogDirect.Hybrid
