import LogDirect.Hybrid.Invariant
import LogDirect.Hybrid.Ring

/-!
# A connection refines the ring protocol

`Conn.ring` forgets the messages. Every step of a connection that keeps its
invariant is a step of the ring machine (`step_ring`), so `Ring.Wf` and all that
follows from it hold of connections.
-/

namespace LogDirect.Hybrid

open Lib

/-- A tail word in flight. -/
def ToClient.tail? : ToClient → Option (Nat × Nat)
  | .tail w i => some (w, i)
  | _ => none

namespace Conn

/-- Tail words in flight, one after another. -/
def tails (l : List ToClient) : List (Nat × Nat) := l.filterMap ToClient.tail?

@[simp] theorem tails_nil : tails [] = [] := rfl

@[simp] theorem tails_body (bs : Bytes) (l : List ToClient) : tails (.body bs :: l) = tails l := rfl

@[simp] theorem tails_header (w : Nat) (l : List ToClient) : tails (.header w :: l) = tails l := rfl

@[simp] theorem tails_tail (w i : Nat) (l : List ToClient) :
    tails (.tail w i :: l) = (w, i) :: tails l := rfl

@[simp] theorem tails_append (l l' : List ToClient) : tails (l ++ l') = tails l ++ tails l' :=
  List.filterMap_append

/-- The ring protocol's view of a connection. -/
def ring (c : Conn) : Ring where
  head := c.client.bufHead
  word := c.client.bufTail
  lap := c.client.lap
  tail := c.clerk.bufTail
  clerkLap := c.clerk.lap
  openRecs := c.clerk.openRecs
  placed := c.clerk.placed
  threads := c.clerk.threads
  mu := c.clerk.mu
  logged := c.clerk.logged
  tails := tails c.toClient

/-- The ring event of a step. -/
def event (c : Conn) : Label → Ring.Event
  | .client =>
      match c.client.pc with
      | .spaceWait r => .post r
      | .rewindWait r => .rewind r
      | _ => .stay
  | .toClient =>
      match c.toClient with
      | .tail _ _ :: _ => .deliver
      | _ => .stay
  | .serve =>
      match c.client.pc with
      | .nopWait _ => .flush
      | .writeWait r pos => .take (c.next r pos)
      | .closeWait | .closed => if c.clerk.openRecs = [] then .stay else .flush
      | _ => .stay
  | .persist i => .persist i
  | .post i => .announce i
  | _ => .stay

variable {c c' : Conn} {sh sh' : Shared} {m : Mem} {l : Label}

/-- The client's steps. -/
theorem client_ring (hinv : c.Inv sh.mem) (h : c.step sh .client = some (c', sh')) :
    c.ring.Step (c.event .client) c'.ring := by
  have hph := hinv.phase
  obtain ⟨-, -, cl, out, hres, rfl⟩ := client_step h
  cases hres with
  | nop hpc hflag =>
    simp only [event, hpc]
    exact .stay
  | @rewind r hpc hguard =>
    have hq := hph.waiting (by simp [hpc, ClientPc.Awaits]) (by simp [hpc]) (by simp [hpc])
    have hheads := hq.heads
    simp only [HeadsBefore, hpc] at hheads
    simp only [event, hpc]
    have hstep : c.ring.Step (.rewind r) _ := .rewind hheads.2.2.2.2 hguard
    simpa only [ring, Client.rewind, Client.postRecord, totalLen_eq] using hstep
  | @space r hpc hguard =>
    have hq := hph.waiting (by simp [hpc, ClientPc.Awaits]) (by simp [hpc]) (by simp [hpc])
    have hheads := hq.heads
    simp only [HeadsBefore, hpc] at hheads
    simp only [event, hpc]
    have hsize : c.clerk.batchLength = c.ring.size := (hinv.batch hq.running).laid.len_eq
    have hhead : c.ring.head = c.ring.tail + c.ring.size := by
      rw [← hsize]
      exact hheads.1
    have hstep := Ring.Step.post (r := r) hhead hheads.2.1 hheads.2.2 hguard
    simpa only [ring, Client.postRecord, totalLen_eq] using hstep
  | @ret q hcall hflag =>
    have hev : c.event .client = .stay := by
      unfold event
      generalize c.client.pc = p at hcall
      cases p <;> first
        | rfl
        | cases hcall
    rw [hev]
    exact .stay
  | close hpc =>
    simp only [event, hpc]
    exact .stay

/-- The ring after the clerk, now `k`, has answered. -/
theorem ring_answer (c : Conn) (k : Clerk) :
    (c.answer k).ring = { c.ring with
      tail := k.bufTail, clerkLap := k.lap, openRecs := k.openRecs, placed := k.placed
      threads := k.threads, mu := k.mu, logged := k.logged } := by
  simp [ring, answer]

/-- A flush of a laid batch rewinds exactly when the batch is short. -/
theorem rewinds_iff {k : Clerk} (hl : k.Laid m) :
    k.Rewinds ↔ Batch.total (records k.openRecs) < batchSize := by
  have h1 := hl.head_lt
  have h2 := hl.len_eq
  unfold Clerk.Rewinds
  rw [← h2]
  omega

/-- A flush of the clerk is a flush of the ring. -/
theorem ring_flushed (c : Conn) {k : Clerk} (hl : k.Laid m) :
    (c.answer (k.flushed.reply .ok 0 [])).ring = Ring.flush { c.ring with
      tail := k.bufTail, clerkLap := k.lap, openRecs := k.openRecs, placed := k.placed
      threads := k.threads, mu := k.mu, logged := k.logged } := by
  rw [ring_answer]
  simp only [Ring.flush, Ring.thread, Ring.size, Thread.nextLap, Thread.size, Clerk.reply,
    Clerk.flushed, Clerk.spawn, Clerk.nextTail, rewinds_iff hl, hl.len_eq]
  rfl

/-- So is the last one. -/
theorem ring_lastFlushed (hl : c.clerk.Laid m) :
    { c with clerk := c.woken.lastFlushed }.ring = c.ring.flush := by
  have hl := woken_laid hl
  simp only [ring, Ring.flush, Ring.thread, Ring.size, Thread.nextLap, Thread.size,
    Clerk.lastFlushed, Clerk.spawn, Clerk.nextTail, rewinds_iff hl, hl.len_eq]
  rfl

/-- The clerk's steps. -/
theorem serve_ring (hinv : c.Inv sh.mem) (h : c.step sh .serve = some (c', sh')) :
    c.ring.Step (c.event .serve) c'.ring := by
  obtain ⟨hs, hrun, hb⟩ := serve_serves hinv.phase hinv.batch h
  have hflag := (serve_step h).2.1
  have hsize : c.clerk.batchLength = c.ring.size := hb.laid.len_eq
  cases hs with
  | @nop r hpc =>
    obtain ⟨l, hr⟩ := hinv.phase.requested hflag (by simp [hpc, ClientPc.Awaits])
    have hheads := hr.heads
    simp only [HeadsBefore, hpc] at hheads
    simp only [event, hpc]
    rw [ring_flushed c (woken_laid hb.laid)]
    exact .flush hheads.2.1
  | @short r pos hpc htake hlt =>
    obtain ⟨l, hr⟩ := hinv.phase.requested hflag (by simp [hpc, ClientPc.Awaits])
    have hheads := hr.heads
    simp only [HeadsBefore, hpc] at hheads
    obtain ⟨hpos, hlap, hhead, hfit⟩ := hheads
    simp only [event, hpc]
    rw [ring_answer]
    rw [clerkHead, hsize] at hpos
    rw [hsize] at hlt
    exact .take rfl hpos (hhead ▸ hfit) hlt
  | @full r pos hpc htake hge =>
    obtain ⟨l, hr⟩ := hinv.phase.requested hflag (by simp [hpc, ClientPc.Awaits])
    have hheads := hr.heads
    simp only [HeadsBefore, hpc] at hheads
    obtain ⟨hpos, hlap, hhead, hfit⟩ := hheads
    simp only [event, hpc]
    rw [ring_flushed c htake]
    rw [clerkHead, hsize] at hpos
    rw [hsize] at hge
    exact .takeFull rfl hpos (hhead ▸ hfit) hlap hge
  | @get k hpc hkey hsize =>
    obtain ⟨st, n, v, hget⟩ := c.woken.get_eq_reply sh
    simp only [event, hpc]
    rw [hget, ring_answer]
    exact .stay
  | sync hpc =>
    simp only [event, hpc]
    rw [ring_answer]
    exact .stay
  | @delete k hpc =>
    simp only [event, hpc]
    rw [ring_answer]
    exact .stay
  | closeFull hpc hne =>
    have hev : c.event .serve = .flush := by
      rcases hpc with hpc | hpc <;> simp only [event, hpc, if_neg hne]
    have hlap : c.clerk.lap = c.client.lap := by
      rcases hinv.phase with hq | ⟨l, hr⟩ | ⟨l, hr⟩ | hl | hc
      · exact absurd hflag hq.clerk_flag
      · have hheads := hr.heads
        rcases hpc with hpc | hpc <;> simp only [HeadsBefore, hpc] at hheads <;> exact hheads.2
      · have := hr.awaits
        rcases hpc with hpc | hpc <;> rw [hpc] at this <;> exact this.elim
      · have hheads := hl.heads
        simp only [HeadsBefore, hl.closed] at hheads
        exact hheads.2
      · rcases hc.clerk with ⟨sync, h'⟩ | h' <;> rw [h'] at hrun <;> cases hrun
    rw [hev, ring_lastFlushed hb.laid]
    exact .flush hlap
  | closeEmpty hpc he =>
    have hev : c.event .serve = .stay := by
      rcases hpc with hpc | hpc <;> simp only [event, hpc, if_pos he]
    rw [hev]
    exact .stay

/-- Entering a call does not touch the ring. -/
theorem call_ring (c : Conn) (q : Call) (out : List ToClerk) :
    { c with client := (c.client.call q).1, toClerk := out }.ring = c.ring := by
  cases q with
  | write r =>
    simp only [Client.call, Client.sendWrite]
    split <;> rfl
  | _ => rfl

/-- Every step of a connection is a step of the ring. -/
theorem step_ring (hinv : c.Inv sh.mem) (h : c.step sh l = some (c', sh')) :
    c.ring.Step (c.event l) c'.ring := by
  cases l with
  | call q =>
    obtain ⟨-, -, rfl⟩ := call_step h
    rw [call_ring]
    exact .stay
  | client => exact client_ring hinv h
  | toClerk =>
    obtain ⟨w, ws, hw, rfl, rfl⟩ := toClerk_step h
    cases w <;> exact .stay
  | toClient =>
    obtain ⟨w, ws, hw, rfl, rfl⟩ := toClient_step h
    cases w with
    | body bs =>
      have hring : ({ c with toClient := ws }.landClient (.body bs)).ring = c.ring := by
        simp [ring, landClient, hw]
      rw [hring]
      simp only [event, hw]
      exact .stay
    | header v =>
      have hring : ({ c with toClient := ws }.landClient (.header v)).ring = c.ring := by
        simp [ring, landClient, hw]
      rw [hring]
      simp only [event, hw]
      exact .stay
    | tail t i =>
      simp only [event, hw]
      exact .deliver (show tails c.toClient = _ by rw [hw, tails_tail]; rfl)
  | serve => exact serve_ring hinv h
  | callback =>
    obtain ⟨sync, -, -, -, rfl⟩ := callback_step h
    exact .stay
  | persist i =>
    obtain ⟨t, ht, hst, hmu, rfl, -⟩ := persist_step h
    exact .persist ht hst hmu
  | post i =>
    obtain ⟨t, ht, hst, -, rfl⟩ := post_step h
    have hstep : c.ring.Step (.announce i) _ := Ring.Step.announce ht hst
    simpa [ring, event, Ring.setStage, Clerk.setStage] using hstep

/-- Only the clerk takes records and flushes. -/
theorem event_not_flush (hl : l ≠ .serve) : c.event l ≠ .flush ∧ ∀ w, c.event l ≠ .take w := by
  cases l with
  | serve => exact absurd rfl hl
  | client =>
    simp only [event]
    split <;> simp
  | toClient =>
    simp only [event]
    split <;> simp
  | _ => simp [event]

/-- A fresh ring is well formed. -/
theorem fresh_wf (writeBuf flag : Nat) (m m' : Mem) : (Conn.fresh writeBuf flag m m').ring.Wf := by
  refine ⟨⟨rfl, rfl⟩, ?_, ?_, trivial, rfl, rfl, by simp [ring, Conn.fresh], .nil⟩
  · show ringHeader + 0 < maxAsyncSize
    decide
  · show 0 < batchSize
    decide

/-! ## What a step leaves alone -/

/-- A turn of the clerk touches neither memory nor the log. -/
theorem Serves.frame (h : c.Serves sh c' sh') :
    sh'.mem = sh.mem ∧ sh'.log = sh.log ∧ c'.clerk.writeBuf = c.clerk.writeBuf ∧
      c'.clerk.logged = c.clerk.logged ∧ c'.client = c.client := by
  cases h with
  | get hpc hkey hsize =>
    obtain ⟨st, n, v, hget⟩ := c.woken.get_eq_reply sh
    rw [hget]
    exact ⟨rfl, rfl, rfl, rfl, rfl⟩
  | _ => exact ⟨rfl, rfl, rfl, rfl, rfl⟩

/-- The steps that touch the shared state: deliveries at the clerk, turns of the
clerk, and appends to the log. All others leave it, the ring's place and the
log's history alone. -/
theorem step_frame (h : c.step sh l = some (c', sh')) :
    l = .toClerk ∨ l = .serve ∨ (∃ i, l = .persist i) ∨
      (sh' = sh ∧ c'.clerk.writeBuf = c.clerk.writeBuf ∧ c'.clerk.logged = c.clerk.logged) := by
  cases l with
  | toClerk => exact .inl rfl
  | serve => exact .inr (.inl rfl)
  | persist i => exact .inr (.inr (.inl ⟨i, rfl⟩))
  | client =>
    obtain ⟨-, rfl, cl, out, -, rfl⟩ := client_step h
    exact .inr (.inr (.inr ⟨rfl, rfl, rfl⟩))
  | toClient =>
    obtain ⟨w, ws, -, rfl, rfl⟩ := toClient_step h
    refine .inr (.inr (.inr ⟨rfl, ?_⟩))
    cases w <;> exact ⟨rfl, rfl⟩
  | call q =>
    obtain ⟨-, rfl, rfl⟩ := call_step h
    exact .inr (.inr (.inr ⟨rfl, rfl, rfl⟩))
  | callback =>
    obtain ⟨sync, -, -, rfl, rfl⟩ := callback_step h
    exact .inr (.inr (.inr ⟨rfl, rfl, rfl⟩))
  | post i =>
    obtain ⟨t, -, -, rfl, rfl⟩ := post_step h
    exact .inr (.inr (.inr ⟨rfl, rfl, rfl⟩))

/-- What only a turn of the clerk changes is unchanged. -/
structure SameBooks (c : Conn) (sh : Shared) (c' : Conn) (sh' : Shared) : Prop where
  openRecs : c'.clerk.openRecs = c.clerk.openRecs
  served : c'.clerk.served = c.clerk.served
  index : sh'.index = sh.index
  db : sh'.db = sh.db
  muts : sh'.muts = sh.muts

theorem step_books (h : c.step sh l = some (c', sh')) (hl : l ≠ .serve) :
    c.SameBooks sh c' sh' := by
  cases l with
  | serve => exact absurd rfl hl
  | toClerk =>
    obtain ⟨w, ws, -, rfl, rfl⟩ := toClerk_step h
    cases w <;> exact ⟨rfl, rfl, rfl, rfl, rfl⟩
  | persist i =>
    obtain ⟨t, -, -, -, rfl, rfl⟩ := persist_step h
    exact ⟨rfl, rfl, rfl, rfl, rfl⟩
  | client =>
    obtain ⟨-, rfl, cl, out, -, rfl⟩ := client_step h
    exact ⟨rfl, rfl, rfl, rfl, rfl⟩
  | toClient =>
    obtain ⟨w, ws, -, rfl, rfl⟩ := toClient_step h
    cases w <;> exact ⟨rfl, rfl, rfl, rfl, rfl⟩
  | call q =>
    obtain ⟨-, rfl, rfl⟩ := call_step h
    exact ⟨rfl, rfl, rfl, rfl, rfl⟩
  | callback =>
    obtain ⟨sync, -, -, rfl, rfl⟩ := callback_step h
    exact ⟨rfl, rfl, rfl, rfl, rfl⟩
  | post i =>
    obtain ⟨t, -, -, rfl, rfl⟩ := post_step h
    exact ⟨rfl, rfl, rfl, rfl, rfl⟩

/-- Steps other than deliveries at the clerk leave memory alone. -/
theorem step_mem (hinv : c.Inv sh.mem) (hl : l ≠ .toClerk) (h : c.step sh l = some (c', sh')) :
    sh'.mem = sh.mem := by
  rcases step_frame h with h' | rfl | ⟨i, rfl⟩ | ⟨rfl, -⟩
  · exact absurd h' hl
  · exact (serve_serves hinv.phase hinv.batch h).1.frame.1
  · obtain ⟨t, -, -, -, -, rfl⟩ := persist_step h
    rfl
  · rfl

/-- Memory is written in the ring only, and only while the clerk runs. -/
theorem step_mem_outside {a : Nat} (hinv : c.Inv sh.mem) (h : c.step sh l = some (c', sh'))
    (ha : c.clerk.pc = .running → a < c.clerk.writeBuf ∨ c.clerk.writeBuf + maxAsyncSize ≤ a) :
    sh'.mem a = sh.mem a := by
  by_cases hl : l = .toClerk
  · subst hl
    obtain ⟨w, ws, hw, -, rfl⟩ := toClerk_step h
    cases w with
    | ring off bs =>
      obtain ⟨r, -, rfl, -, -, hhead, hlt, hrun⟩ :=
        hinv.phase.ring_write (hw ▸ List.mem_cons_self)
      have hout := ha hrun
      have hlen := r.length_encode
      have hmiss : ¬ (c.clerk.writeBuf + off ≤ a ∧
          a < c.clerk.writeBuf + off + r.encode.length) := by
        omega
      exact if_neg hmiss
    | body bs => rfl
    | header v => rfl
    | send => rfl
  · rw [step_mem hinv hl h]

/-- The ring stays where it is. -/
theorem step_writeBuf (hinv : c.Inv sh.mem) (h : c.step sh l = some (c', sh')) :
    c'.clerk.writeBuf = c.clerk.writeBuf := by
  rcases step_frame h with rfl | rfl | ⟨i, rfl⟩ | ⟨-, h', -⟩
  · obtain ⟨w, ws, -, rfl, -⟩ := toClerk_step h
    cases w <;> rfl
  · exact (serve_serves hinv.phase hinv.batch h).1.frame.2.2.1
  · obtain ⟨t, -, -, -, rfl, -⟩ := persist_step h
    rfl
  · exact h'

/-- Only a persist thread logs records. -/
theorem step_logged (hinv : c.Inv sh.mem) (hl : ∀ i, l ≠ .persist i)
    (h : c.step sh l = some (c', sh')) : c'.clerk.logged = c.clerk.logged ∧ sh'.log = sh.log := by
  rcases step_frame h with rfl | rfl | ⟨i, rfl⟩ | ⟨rfl, -, h'⟩
  · obtain ⟨w, ws, -, rfl, rfl⟩ := toClerk_step h
    cases w <;> exact ⟨rfl, rfl⟩
  · have hf := (serve_serves hinv.phase hinv.batch h).1.frame
    exact ⟨hf.2.2.2.1, hf.2.1⟩
  · exact absurd rfl (hl i)
  · exact ⟨h', rfl⟩

/-- A step appends to the log exactly what it records as logged. -/
theorem step_log (hinv : c.Inv sh.mem) (hwf : c.ring.Wf) (h : c.step sh l = some (c', sh')) :
    ∃ ws, c'.clerk.logged = c.clerk.logged ++ ws ∧
      sh'.log = sh.log ++ Batch.bytes (records ws) := by
  by_cases hl : ∃ i, l = .persist i
  · obtain ⟨i, rfl⟩ := hl
    obtain ⟨t, ht, -, -, rfl, rfl⟩ := persist_step h
    refine ⟨t.recs, rfl, ?_⟩
    have hbuf := (hwf.chain.bounds.2 t (List.mem_of_getElem? ht)).1.buffer
    show sh.log ++ t.buffer = _
    rw [hbuf]
  · obtain ⟨h1, h2⟩ := step_logged hinv (fun i hi => hl ⟨i, hi⟩) h
    exact ⟨[], by simp [h1], by simp [h2]⟩

end Conn

/-! ## What holds in every reachable state -/

/-- The connection keeps its invariant and the ring is well formed. -/
structure Sound (s : Conn × Shared) : Prop where
  inv : s.1.Inv s.2.mem
  wf : s.1.ring.Wf

/-- The log is the bytes of the records of this connection: there is no other. -/
structure Sole (s : Conn × Shared) : Prop extends Sound s where
  log : s.2.log = Batch.bytes (records s.1.clerk.logged)

theorem fresh_sound (sh : Shared) (writeBuf : Nat) {flag : Nat} (m m' : Mem)
    (hflag : flag ≠ clientDone) : Sound (Conn.fresh writeBuf flag m m', sh) :=
  ⟨Conn.fresh_inv _ _ _ _ hflag, Conn.fresh_wf _ _ _ _⟩

variable {s : Conn × Shared}

theorem init_sole (h : system.init s) : Sole s := by
  obtain ⟨c, sh⟩ := s
  obtain ⟨hfresh, writeBuf, flag, m, m', hflag, rfl⟩ := h
  exact ⟨fresh_sound sh writeBuf m m' hflag, hfresh.log⟩

theorem Sound.step {s' : Conn × Shared} {l : Label} (h : Sound s) (hs : system.step s l = some s') :
    Sound s' :=
  ⟨Conn.step_inv h.inv hs, h.wf.step (Conn.step_ring h.inv hs)⟩

theorem Sole.step {s' : Conn × Shared} {l : Label} (h : Sole s) (hs : system.step s l = some s') :
    Sole s' := by
  refine ⟨h.toSound.step hs, ?_⟩
  obtain ⟨ws, hlogged, hlog⟩ := Conn.step_log h.inv h.wf hs
  rw [hlogged, hlog, h.log, records_append, Batch.bytes_append]

/-- The `i`-th acknowledged record is the `i`-th one the clerk has taken: it is in
the open batch or belongs to a thread. -/
theorem Sound.acked (h : Sound s) {i : Nat} {r : Record} {pos : Nat}
    (hack : s.1.client.acks[i]? = some (r, pos)) :
    ∃ w : Stored, w.seq = i ∧ w.record = r ∧ w.pos = pos ∧
      (w ∈ s.1.clerk.openRecs ∨ ∃ u ∈ s.1.clerk.threads, w ∈ u.recs) := by
  obtain ⟨rest, hacks⟩ := h.inv.phase.acks
  have hi := (List.getElem?_eq_some_iff.mp hack).1
  have hplaced : (s.1.clerk.placed.map Stored.ack)[i]? = some (r, pos) := by
    rw [hacks, List.getElem?_append_left hi]
    exact hack
  rw [List.getElem?_map, Option.map_eq_some_iff] at hplaced
  obtain ⟨w, hw, hwack⟩ := hplaced
  have hseq : w.seq = i := by
    have hseqs : (s.1.clerk.placed.map Stored.seq)[i]? = some w.seq := by
      rw [List.getElem?_map, hw]
      rfl
    have hrange : s.1.clerk.placed.map Stored.seq = List.range s.1.clerk.placed.length := h.wf.seqs
    rw [hrange, List.getElem?_range (List.getElem?_eq_some_iff.mp hw).1] at hseqs
    exact (Option.some.inj hseqs).symm
  refine ⟨w, hseq, congrArg Prod.fst hwack, congrArg Prod.snd hwack, ?_⟩
  have hpart : s.1.clerk.placed =
      s.1.clerk.threads.flatMap Thread.recs ++ s.1.clerk.openRecs := h.wf.partition
  have hmem := List.mem_of_getElem? hw
  rw [hpart, List.mem_append, List.mem_flatMap] at hmem
  exact hmem.symm

/-- Records in the open batch: the clerk is running. -/
theorem Sound.running (h : Sound s) {w : Stored} (hw : w ∈ s.1.clerk.openRecs) :
    s.1.clerk.BatchInv s.2.mem := by
  refine h.inv.batch ?_
  by_contra hpc
  rw [(h.inv.phase.closing hpc).emptied] at hw
  cases hw

theorem reachable_sole (h : system.Reachable s) : Sole s :=
  h.invariant Sole (fun _ => init_sole) fun _ _ _ => Sole.step

end LogDirect.Hybrid
