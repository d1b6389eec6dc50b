import LogDirect.Hybrid.Refine

/-!
# Calls run to their end

A request that has been posted is delivered, taken and answered by the steps of
the network, the clerk and the client alone, whatever the persist threads have
done so far (`Requested.completes`, `Replied.completes`). From this the lemmas of
the second part build whole calls: as long as the persist threads stay away, the
ring and the shared state after a call are computed by `Ring.sendWrite` and
`Shared.sendWrite`.
-/

namespace LogDirect.Hybrid

open Lib TSys Conn

/-! ## Schedules without persist threads -/

/-- Steps of the client, the clerk's loop and the network. -/
def Foreground (_ : Conn × Shared) : Label → Prop
  | .persist _ | .post _ | .callback => False
  | _ => True

theorem Foreground.no_callback {tr : List ((Conn × Shared) × Label)} (h : Meets Foreground tr) :
    ∀ p ∈ tr, p.2 ≠ .callback := by
  intro p hp hpc
  have hf := h p hp
  rw [hpc] at hf
  exact hf

/-- The calls made in a run. -/
def calls (tr : List ((Conn × Shared) × Label)) : List Call :=
  tr.filterMap fun p => match p.2 with
    | .call q => some q
    | _ => none

@[simp] theorem calls_append (tr tr' : List ((Conn × Shared) × Label)) :
    calls (tr ++ tr') = calls tr ++ calls tr' := List.filterMap_append

/-- A run without persist threads that makes the calls `qs`. -/
def Drives (qs : List Call) (s s' : Conn × Shared) : Prop :=
  ∃ tr, system.Run s tr s' ∧ Meets Foreground tr ∧ calls tr = qs

theorem Drives.refl (s : Conn × Shared) : Drives [] s s := ⟨[], .nil, .nil, rfl⟩

variable {s s' : Conn × Shared} {q : Call} {c : Conn} {r : Record} {sh : Shared}

theorem Drives.trans {qs qs' : List Call} {s'' : Conn × Shared} (h : Drives qs s s')
    (h' : Drives qs' s' s'') : Drives (qs ++ qs') s s'' := by
  obtain ⟨tr, hr, hok, rfl⟩ := h
  obtain ⟨tr', hr', hok', rfl⟩ := h'
  exact ⟨tr ++ tr', hr.trans hr', meets_append.mpr ⟨hok, hok'⟩, calls_append tr tr'⟩

/-- One step that is not a call. -/
theorem Drives.step (l : Label) (hl : Foreground s l) (hq : ∀ q, l ≠ .call q)
    (h : system.step s l = some s') : Drives [] s s' := by
  refine ⟨[(s, l)], .snoc .nil h, meets_snoc.mpr ⟨.nil, hl⟩, ?_⟩
  cases l with
  | call q => exact absurd rfl (hq q)
  | _ => rfl

/-- One call. -/
theorem Drives.call (q : Call) (h : system.step s (.call q) = some s') : Drives [q] s s' :=
  ⟨[(s, .call q)], .snoc .nil h, meets_snoc.mpr ⟨.nil, trivial⟩, rfl⟩

theorem Drives.sound {qs : List Call} (h : Drives qs s s') (hs : Sound s) : Sound s' := by
  obtain ⟨tr, hr, -, -⟩ := h
  exact hr.invariant hs (fun _ _ _ hs (_ : True) => hs.step) (fun _ _ => trivial)

/-! ## Delivering a request -/

/-- `resume` returns from an answered call. -/
theorem Client.resume_returned {c : Client} (hcall : c.pc.call = some q)
    (hflag : c.header = clerkDone) : c.resume = some (c.returned q, []) := by
  unfold resume returned
  generalize hpc : c.pc = p at hcall
  cases p <;> first
    | (cases hcall; simp [finish, hflag, ClientPc.ack])
    | cases hcall

/-- The client's step. -/
theorem client_steps (sh : Shared) {cl : Client} {out : List ToClerk} (he : c.toClerk = [])
    (h : c.client.resume = some (cl, out)) :
    system.step (c, sh) .client = some ({ c with client := cl, toClerk := out }, sh) := by
  show c.step sh .client = _
  simp only [Conn.step, he, h, Option.map_some]

theorem client_resumes (sh : Shared) {cl : Client} {out : List ToClerk} (he : c.toClerk = [])
    (h : c.client.resume = some (cl, out)) :
    Drives [] (c, sh) ({ c with client := cl, toClerk := out }, sh) :=
  Drives.step .client trivial (by simp) (client_steps sh he h)

namespace Conn

variable {c : Conn} {sh : Shared} {l : List ToClerk}

/-- A turn of the clerk posts no tail word. -/
theorem Serves.tails {c' : Conn} {sh' : Shared} (h : c.Serves sh c' sh') :
    tails c'.toClient = tails c.toClient := by
  cases h <;> simp [answer]

/-- The clerk after a delivery differs in its message area and flags only. -/
theorem landClerk_ring (c : Conn) (sh : Shared) (w : ToClerk) :
    (c.landClerk sh w).1.ring = c.ring ∧ (c.landClerk sh w).1.client = c.client ∧
      (c.landClerk sh w).1.toClient = c.toClient ∧ (c.landClerk sh w).1.toClerk = c.toClerk ∧
      (c.landClerk sh w).1.clerk.writeBuf = c.clerk.writeBuf ∧
      ∃ m, (c.landClerk sh w).2 = { sh with mem := m } := by
  cases w <;> exact ⟨rfl, rfl, rfl, rfl, rfl, _, rfl⟩

/-- What a posted request leaves alone until the clerk takes it. -/
structure Arrives (c : Conn) (sh : Shared) (c' : Conn) (sh' : Shared) : Prop where
  client : c'.client = c.client
  ring : c'.ring = c.ring
  toClerk : c'.toClerk = []
  toClient : c'.toClient = c.toClient
  writeBuf : c'.clerk.writeBuf = c.clerk.writeBuf
  shared : ∃ m, sh' = { sh with mem := m }

/-- A posted request arrives. -/
theorem Requested.drain (h : c.Requested sh.mem l) :
    ∃ c' sh' l', Drives [] (c, sh) (c', sh') ∧ c'.Requested sh'.mem l' ∧ c.Arrives sh c' sh' := by
  generalize hq : c.toClerk = q
  induction q generalizing c sh l with
  | nil => exact ⟨c, sh, l, .refl _, h, rfl, rfl, hq, rfl, rfl, sh.mem, rfl⟩
  | cons w ws ih =>
    obtain ⟨hring, hclient, htoClient, htoClerk, hbuf, m, hm⟩ :=
      landClerk_ring { c with toClerk := ws } sh w
    have hstep : system.step (c, sh) .toClerk =
        some ({ c with toClerk := ws }.landClerk sh w) := by
      show c.step sh .toClerk = _
      simp only [step, hq]
    obtain ⟨c', sh', l', hd, hr, ha⟩ := ih (h.land hq) htoClerk
    refine ⟨c', sh', l', (Drives.step .toClerk trivial (by simp) hstep).trans hd, hr,
      ha.client.trans hclient, ha.ring.trans hring, ha.toClerk, ha.toClient.trans htoClient,
      ha.writeBuf.trans hbuf, ?_⟩
    obtain ⟨m', hm'⟩ := ha.shared
    exact ⟨m', by rw [hm', hm]⟩

/-- A request that has arrived raises the flag. -/
theorem Requested.flag {m : Mem} (h : c.Requested m l) (he : c.toClerk = []) :
    c.clerk.header = clientDone := by
  have hp := h.posted
  rw [he, List.append_nil] at hp
  have hmem : ToClerk.header clientDone ∈ l := by
    generalize c.client.pc = pc at hp
    cases hp <;> simp
  exact h.landed _ hmem

/-- An arrived request is taken. -/
theorem Requested.taken (hinv : c.Inv sh.mem) (h : c.Requested sh.mem l) (he : c.toClerk = []) :
    ∃ c' sh', Drives [] (c, sh) (c', sh') ∧ c.Serves sh c' sh' := by
  have hstep : system.step (c, sh) .serve = some (c.serve sh) := by
    show c.step sh .serve = _
    simp only [step, h.running, h.flag he, and_self, if_true]
  exact ⟨_, _, Drives.step .serve trivial (by simp) hstep,
    (serve_serves hinv.phase hinv.batch hstep).1⟩

/-! ## Delivering a reply -/

/-- What holds while a reply travels. A tail word ahead of it in the queue is
delivered too; without one nothing changes at the clerk. -/
structure Returns (c c' : Conn) : Prop where
  pc : c'.client.pc = c.client.pc
  history : c'.client.history = c.client.history
  acks : c'.client.acks = c.client.acks
  toClient : c'.toClient = []
  served : c'.clerk.served = c.clerk.served
  placed : c'.clerk.placed = c.clerk.placed
  writeBuf : c'.clerk.writeBuf = c.clerk.writeBuf
  untouched : tails c.toClient = [] → c'.ring = c.ring

theorem Replied.tail {l : List ToClient} {t i : Nat} {ws : List ToClient} (h : c.Replied l)
    (hc : c.toClient = .tail t i :: ws) :
    ({ c with toClient := ws }.landClient (.tail t i)).Replied l := by
  have hreps : ws.filter ToClient.isReply = c.replies := by
    unfold replies
    rw [hc]
    rfl
  refine ⟨h.awaits, ?_, fun w hw => ?_, ?_, h.toClerk, h.clerk_flag, h.running, h.heads,
    h.books⟩
  · show l ++ ws.filter ToClient.isReply = _
    rw [hreps]
    exact h.posted
  · have hw := h.landed w hw
    cases w <;> exact hw
  · show ws.filter ToClient.isReply ≠ [] → _
    rw [hreps]
    exact h.client_flag

/-- A reply arrives. -/
theorem Replied.drain (sh : Shared) {l : List ToClient} (h : c.Replied l) :
    ∃ c' l', Drives [] (c, sh) (c', sh) ∧ c'.Replied l' ∧ c.Returns c' := by
  generalize hq : c.toClient = q
  induction q generalizing c l with
  | nil => exact ⟨c, l, .refl _, h, rfl, rfl, rfl, hq, rfl, rfl, rfl, fun _ => rfl⟩
  | cons w ws ih =>
    have hstep : system.step (c, sh) .toClient =
        some ({ c with toClient := ws }.landClient w, sh) := by
      show c.step sh .toClient = _
      simp only [step, hq]
    have hd := Drives.step .toClient trivial (by simp) hstep
    cases w with
    | body bs =>
      obtain ⟨c', l', hd', hr, ha⟩ := ih (h.land hq rfl) rfl
      refine ⟨c', l', hd.trans hd', hr, ha.pc, ha.history, ha.acks, ha.toClient, ha.served,
        ha.placed, ha.writeBuf, fun ht => ?_⟩
      rw [hq, tails_body] at ht
      rw [ha.untouched ht]
      simp [ring, landClient, hq]
    | header v =>
      obtain ⟨c', l', hd', hr, ha⟩ := ih (h.land hq rfl) rfl
      refine ⟨c', l', hd.trans hd', hr, ha.pc, ha.history, ha.acks, ha.toClient, ha.served,
        ha.placed, ha.writeBuf, fun ht => ?_⟩
      rw [hq, tails_header] at ht
      rw [ha.untouched ht]
      simp [ring, landClient, hq]
    | tail t i =>
      obtain ⟨c', l', hd', hr, ha⟩ := ih (h.tail hq) rfl
      refine ⟨c', l', hd.trans hd', hr, ha.pc, ha.history, ha.acks, ha.toClient, ha.served,
        ha.placed, ha.writeBuf, fun ht => ?_⟩
      rw [hq, tails_tail] at ht
      cases ht

/-- A reply that has arrived raises the client's flag. -/
theorem Replied.flag {l : List ToClient} (h : c.Replied l) (he : c.toClient = []) :
    c.client.header = clerkDone := by
  have hp := h.posted
  have hnil : c.replies = [] := by
    unfold replies
    rw [he]
    rfl
  rw [hnil, List.append_nil] at hp
  exact h.landed (.header clerkDone) (by simp [hp])

/-- An answered call returns. -/
theorem Replied.completes (sh : Shared) {l : List ToClient} (h : c.Replied l) {q : Call}
    (hcall : c.client.pc.call = some q) :
    ∃ c', Drives [] (c, sh) (c', sh) ∧ c'.client.pc = .idle ∧
      c'.client.history = c.clerk.served ∧ c'.client.acks = c.client.acks ++ c.client.pc.ack ∧
      c'.toClient = [] ∧ c'.clerk.writeBuf = c.clerk.writeBuf ∧
      (tails c.toClient = [] → c'.ring = c.ring) := by
  obtain ⟨c₁, l₁, hd, hr, ha⟩ := h.drain sh
  have hcall₁ : c₁.client.pc.call = some q := by
    rw [ha.pc]
    exact hcall
  have hflag := hr.flag ha.toClient
  have hd' := client_resumes sh hr.toClerk (Client.resume_returned hcall₁ hflag)
  have hq := hr.finish hcall₁ hflag
  refine ⟨_, hd.trans hd', rfl, ?_, ?_, ha.toClient,
    ha.writeBuf, fun ht => ha.untouched ht⟩
  · show (c₁.client.returned q).history = _
    rw [← ha.served]
    exact hq.books.1.symm
  · show c₁.client.acks ++ c₁.client.pc.ack = _
    rw [ha.acks, ha.pc]

/-- A posted call from `c` to its return in `c'`: it arrives in `c₁`, and the
clerk's turn leads to `c₂`. -/
structure Round (c : Conn) (sh : Shared) (c₁ : Conn) (sh₁ : Shared) (c₂ c' : Conn)
    (sh' : Shared) : Prop where
  drives : Drives [] (c, sh) (c', sh')
  arrives : c.Arrives sh c₁ sh₁
  sound : Sound (c₁, sh₁)
  requested : ∃ l, c₁.Requested sh₁.mem l
  serves : c₁.Serves sh₁ c₂ sh'
  idle : c'.client.pc = .idle
  history : c'.client.history = c.client.history ++
    c.client.pc.call.toList.map fun q => (q, q.ret c₂.clerk.msg)
  acks : c'.client.acks = c.client.acks ++ c.client.pc.ack
  toClient : c'.toClient = []
  writeBuf : c'.clerk.writeBuf = c.clerk.writeBuf
  untouched : tails c.toClient = [] → c'.ring = c₂.ring

/-- A posted call is taken by the clerk and returns. -/
theorem Requested.completes (hs : Sound (c, sh)) (h : c.Requested sh.mem l) {q : Call}
    (hcall : c.client.pc.call = some q) : ∃ c₁ sh₁ c₂ c' sh', c.Round sh c₁ sh₁ c₂ c' sh' := by
  obtain ⟨c₁, sh₁, l₁, hd₁, hr₁, ha⟩ := h.drain
  have hs₁ := hd₁.sound hs
  obtain ⟨c₂, sh₂, hd₂, hsv⟩ := hr₁.taken hs₁.inv ha.toClerk
  have hawaits : c₁.client.pc.Awaits := by
    rw [ha.client]
    exact ClientPc.awaits_of_call hcall
  have hrep := hsv.replied hr₁ (hr₁.flag ha.toClerk) hawaits (hs₁.inv.batch hr₁.running)
  have hclient : c₂.client = c.client := hsv.frame.2.2.2.2.trans ha.client
  obtain ⟨c', hd₃, hidle, hhist, hacks, htoClient, hbuf, hring⟩ :=
    hrep.completes sh₂ (q := q) (by rw [hclient]; exact hcall)
  refine ⟨c₁, sh₁, c₂, c', sh₂, (hd₁.trans hd₂).trans hd₃, ha, hs₁, ⟨l₁, hr₁⟩, hsv, hidle, ?_,
    ?_, htoClient, ?_, fun ht => hring ?_⟩
  · rw [hhist, hrep.books.1, hclient]
  · rw [hacks, hclient]
  · rw [hbuf, hsv.frame.2.2.1, ha.writeBuf]
  · rw [hsv.tails, ha.toClient]
    exact ht

end Conn

/-- A call that has been posted returns, whatever the persist threads do. -/
theorem call_returns (hs : Sound s) (hcall : s.1.client.pc.call = some q) :
    ∃ s' ret, Drives [] s s' ∧ s'.1.client.pc = .idle ∧
      s'.1.client.history = s.1.client.history ++ [(q, ret)] := by
  obtain ⟨c, sh⟩ := s
  have hcall : c.client.pc.call = some q := hcall
  have hawaits := ClientPc.awaits_of_call hcall
  rcases hs.inv.phase with hq | ⟨l, hr⟩ | ⟨l, hr⟩ | hl | hc
  · rcases hq.at_rest with h' | ⟨r, h'⟩ | ⟨r, h'⟩ <;> rw [h'] at hawaits <;> exact hawaits.elim
  · obtain ⟨c₁, sh₁, c₂, c', sh', hround⟩ := hr.completes hs hcall
    have hhist := hround.history
    rw [hcall] at hhist
    exact ⟨(c', sh'), _, hround.drives, hround.idle, hhist⟩
  · obtain ⟨c', hd, hidle, hhist, -⟩ := hr.completes sh hcall
    have hbooks : c.clerk.served = _ := hr.books.1
    rw [hcall] at hbooks
    exact ⟨(c', sh), _, hd, hidle, hhist.trans hbooks⟩
  · rw [hl.closed] at hawaits
    exact hawaits.elim
  · rcases hc.client with h' | h' <;> rw [h'] at hawaits <;> exact hawaits.elim

/-! ## Whole calls -/

namespace Ring

/-- The history entry of the next record. -/
def next (g : Ring) (r : Record) : Stored := ⟨g.placed.length, r, g.tail + g.size⟩

/-- The clerk takes a record, and flushes a batch that is full. -/
def put (g : Ring) (r : Record) : Ring :=
  if g.size + r.length < batchSize then g.take (g.next r) else (g.take (g.next r)).flush

/-- The head moves past a record. -/
def advance (g : Ring) (r : Record) : Ring := { g with head := g.head + r.length }

/-- The clerk flushes on `NOP`, the client rewinds and puts a record at the start. -/
def rewound (g : Ring) (r : Record) : Ring :=
  { g.flush with head := ringHeader + r.length, lap := g.lap + 1 }

/-- The ring after `SendWrite`. -/
def sendWrite (g : Ring) (r : Record) : Ring :=
  if g.head + r.length < maxAsyncSize then (g.advance r).put r else (g.rewound r).put r

end Ring

namespace Shared

def put (sh : Shared) (writeBuf : Nat) (g : Ring) (r : Record) : Shared :=
  if g.size + r.length < batchSize then sh.take writeBuf (g.next r)
  else (sh.take writeBuf (g.next r)).flushed (records (g.openRecs ++ [g.next r]))

/-- The shared state after `SendWrite`, up to memory. -/
def sendWrite (sh : Shared) (writeBuf : Nat) (g : Ring) (r : Record) : Shared :=
  if g.head + r.length < maxAsyncSize then sh.put writeBuf (g.advance r) r
  else (sh.flushed (records g.openRecs)).put writeBuf (g.rewound r) r

end Shared

/-- A record that fits the lap and the batch. -/
theorem sendWrite_short {g : Ring} (hfit : g.head + r.length < maxAsyncSize)
    (hshort : g.size + r.length < batchSize) :
    g.sendWrite r = (g.advance r).take (g.next r) ∧
      ∀ (sh : Shared) (writeBuf : Nat), sh.sendWrite writeBuf g r = sh.take writeBuf
        (g.next r) := by
  constructor
  · exact (if_pos hfit).trans (if_pos hshort)
  · intro sh writeBuf
    exact (if_pos hfit).trans (if_pos hshort)

/-- A record that fits the lap and fills the batch. -/
theorem sendWrite_full {g : Ring} (hfit : g.head + r.length < maxAsyncSize)
    (hfull : batchSize ≤ g.size + r.length) (sh : Shared) (writeBuf : Nat) :
    sh.sendWrite writeBuf g r =
      (sh.take writeBuf (g.next r)).flushed (records (g.openRecs ++ [g.next r])) :=
  (if_pos hfit).trans (if_neg (Nat.not_lt.mpr hfull))

namespace Conn

variable {c c' : Conn} {sh sh' : Shared}

/-- The clerk takes the record on the wire. -/
theorem Serves.put {l : List ToClerk} {r : Record} {pos : Nat} (h : c.Serves sh c' sh')
    (hr : c.Requested sh.mem l) (hb : c.clerk.BatchInv sh.mem)
    (hpc : c.client.pc = .writeWait r pos) :
    c'.ring = c.ring.put r ∧ sh' = sh.put c.clerk.writeBuf c.ring r ∧
      pos = c.ring.tail + c.ring.size := by
  have hsize : c.clerk.batchLength = c.ring.size := hb.laid.len_eq
  have hheads := hr.heads
  simp only [HeadsBefore, hpc] at hheads
  have hpos : pos = c.ring.tail + c.ring.size := by
    rw [← hsize]
    exact hheads.1
  have hnext : c.next r pos = c.ring.next r := by
    rw [hpos]
    rfl
  cases h with
  | short hpc' htake hlt =>
    rw [hpc] at hpc'
    cases hpc'
    rw [hsize] at hlt
    refine ⟨?_, ?_, hpos⟩
    · rw [ring_answer, Ring.put, if_pos hlt, ← hnext]
      rfl
    · rw [Shared.put, if_pos hlt, hnext]
  | full hpc' htake hge =>
    rw [hpc] at hpc'
    cases hpc'
    rw [hsize] at hge
    have hlt := Nat.not_lt.mpr hge
    refine ⟨?_, ?_, hpos⟩
    · rw [ring_flushed c htake, Ring.put, if_neg hlt, ← hnext]
      rfl
    · rw [Shared.put, if_neg hlt, hnext]
      rfl
  | _ => simp_all

/-- The clerk flushes on `NOP`. -/
theorem Serves.flushes {r : Record} (h : c.Serves sh c' sh') (hb : c.clerk.BatchInv sh.mem)
    (hpc : c.client.pc = .nopWait r) :
    c'.ring = c.ring.flush ∧ sh' = sh.flushed (records c.clerk.openRecs) := by
  cases h with
  | nop hpc' => exact ⟨ring_flushed c (woken_laid hb.laid), rfl⟩
  | _ => simp_all

/-- A call that takes no record leaves the ring as it is. -/
theorem Serves.stays {q : Call} (h : c.Serves sh c' sh') (hcall : c.client.pc.call = some q)
    (hq : ∀ r, q ≠ .write r) : c'.ring = c.ring := by
  cases h with
  | get hpc hkey hsize =>
    obtain ⟨st, n, v, hget⟩ := c.woken.get_eq_reply sh
    rw [hget, ring_answer]
    rfl
  | sync hpc => rw [ring_answer]; rfl
  | delete hpc => rw [ring_answer]; rfl
  | nop hpc => rw [hpc] at hcall; cases hcall
  | @short r pos hpc => rw [hpc] at hcall; cases hcall; exact absurd rfl (hq r)
  | @full r pos hpc => rw [hpc] at hcall; cases hcall; exact absurd rfl (hq r)
  | closeFull hpc => rcases hpc with hpc | hpc <;> rw [hpc] at hcall <;> cases hcall
  | closeEmpty hpc => rcases hpc with hpc | hpc <;> rw [hpc] at hcall <;> cases hcall

end Conn

/-- Between two calls, with no persist thread at work. -/
structure AtRest (s : Conn × Shared) : Prop where
  sound : Sound s
  idle : s.1.client.pc = .idle
  toClient : s.1.toClient = []

theorem AtRest.head_eq (h : AtRest s) : s.1.ring.head = s.1.ring.tail + s.1.ring.size := by
  have hq := h.sound.inv.phase.quiet h.idle
  have hheads := hq.heads
  simp only [HeadsBefore, h.idle] at hheads
  have hsize : s.1.clerk.batchLength = s.1.ring.size :=
    (h.sound.inv.batch hq.running).laid.len_eq
  rw [← hsize]
  exact hheads.1

/-- Between two calls every record taken is acknowledged. -/
theorem AtRest.acks_eq (h : AtRest s) : s.1.client.acks = s.1.ring.placed.map Stored.ack :=
  (h.sound.inv.phase.quiet h.idle).books.2.symm

theorem AtRest.acked_eq (h : AtRest s) :
    s.1.client.acks.map Prod.fst = records s.1.ring.placed := by
  rw [h.acks_eq, List.map_map]
  rfl

/-- A posted record is taken and acknowledged. -/
theorem record_completes {l : List ToClerk} {pos : Nat} (hs : Sound (c, sh))
    (h : c.Requested sh.mem l) (hpc : c.client.pc = .writeWait r pos) (ht : tails c.toClient = []) :
    ∃ c' m, Drives [] (c, sh) (c', { sh with mem := m }.put c.clerk.writeBuf c.ring r) ∧
      AtRest (c', { sh with mem := m }.put c.clerk.writeBuf c.ring r) ∧
      c'.ring = c.ring.put r ∧ c'.clerk.writeBuf = c.clerk.writeBuf ∧
      c'.client.acks = c.client.acks ++ [(r, c.ring.tail + c.ring.size)] := by
  have hcall : c.client.pc.call = some (.write r) := by rw [hpc]; rfl
  obtain ⟨c₁, sh₁, c₂, c', sh', hround⟩ := h.completes hs hcall
  obtain ⟨l₁, hr₁⟩ := hround.requested
  have ha := hround.arrives
  have hpc₁ : c₁.client.pc = .writeWait r pos := by rw [ha.client, hpc]
  obtain ⟨hring, hsh, hpos⟩ :=
    hround.serves.put hr₁ (hround.sound.inv.batch hr₁.running) hpc₁
  obtain ⟨m, hm⟩ := ha.shared
  rw [ha.writeBuf, ha.ring, hm] at hsh
  have hd := hround.drives
  rw [hsh] at hd
  refine ⟨c', m, hd, ⟨hd.sound hs, hround.idle, hround.toClient⟩, ?_, hround.writeBuf, ?_⟩
  · rw [hround.untouched ht, hring, ha.ring]
  · rw [hround.acks, hpc, ← ha.ring, ← hpos]
    rfl

/-- Entering a call changes nothing of the ring and the clerk. -/
theorem call_enters (h : AtRest (c, sh)) (q : Call) :
    ∃ c₀, Drives [q] (c, sh) (c₀, sh) ∧ c₀.client.pc = (c.client.call q).1.pc ∧
      c₀.clerk = c.clerk ∧ c₀.toClient = [] ∧ c₀.ring = c.ring ∧
      c₀.client.acks = c.client.acks ∧ c₀.client.header = clientDone ∧
      c₀.client.history = c.client.history := by
  have hq := h.sound.inv.phase.quiet h.idle
  have hstep : system.step (c, sh) (.call q) =
      some ({ c with client := (c.client.call q).1
                     toClerk := c.toClerk ++ (c.client.call q).2 }, sh) := by
    show c.step sh (.call q) = _
    simp only [Conn.step, show c.client.pc = .idle from h.idle]
  have hkept : (c.client.call q).1.acks = c.client.acks ∧
      (c.client.call q).1.header = c.client.header ∧
      (c.client.call q).1.history = c.client.history := by
    cases q with
    | write r =>
      simp only [Client.call, Client.sendWrite]
      split <;> exact ⟨rfl, rfl, rfl⟩
    | _ => exact ⟨rfl, rfl, rfl⟩
  exact ⟨_, Drives.call q hstep, rfl, rfl, h.toClient, call_ring c q _, hkept.1,
    hkept.2.1.trans hq.client_flag, hkept.2.2⟩

/-- A client that awaits an answer with nothing on its way has just posted. -/
theorem posted_of_flag {m : Mem} (hph : c.Phase m) (hw : c.client.pc.Awaits)
    (hflag : c.client.header = clientDone) (he : c.toClient = []) : ∃ l, c.Requested m l := by
  rcases hph with hq | ⟨l, hr⟩ | ⟨l, hr⟩ | hl | hc
  · rcases hq.at_rest with h' | ⟨r, h'⟩ | ⟨r, h'⟩ <;> rw [h'] at hw <;> exact hw.elim
  · exact ⟨l, hr⟩
  · rw [hr.flag he] at hflag
    exact absurd hflag clerkDone_ne_clientDone
  · rw [hl.closed] at hw
    exact hw.elim
  · rcases hc.client with h' | h' <;> rw [h'] at hw <;> exact hw.elim

/-- Leaving the wait for space. -/
theorem space_posts (hs : Sound (c, sh)) (hpc : c.client.pc = .spaceWait r)
    (hguard : ¬ (c.ring.head < c.ring.word ∧ c.ring.word ≤ c.ring.head + r.length)) :
    ∃ c', Drives [] (c, sh) (c', sh) ∧ (∃ l, c'.Requested sh.mem l) ∧
      c'.client.pc = .writeWait r c.ring.head ∧ c'.toClient = c.toClient ∧
      c'.clerk = c.clerk ∧ c'.ring = c.ring.advance r ∧ c'.client.acks = c.client.acks := by
  have hq := hs.inv.phase.waiting (by simp [hpc, ClientPc.Awaits]) (by simp [hpc]) (by simp [hpc])
  have hres : c.client.resume = some (c.client.postRecord r) := by
    simp only [Client.resume, hpc, totalLen_eq]
    exact if_neg hguard
  refine ⟨_, client_resumes sh hq.toClerk hres, ⟨[], spaceWait_requested hq hpc⟩, rfl,
    rfl, rfl, ?_, rfl⟩
  simp [ring, Ring.advance]

/-- Leaving the wait for the rewind. -/
theorem rewind_posts (hs : Sound (c, sh)) (hpc : c.client.pc = .rewindWait r)
    (hguard : c.ring.word < c.ring.head) :
    ∃ c', system.step (c, sh) .client = some (c', sh) ∧ (∃ l, c'.Requested sh.mem l) ∧
      c'.client.pc = .writeWait r ringHeader ∧ c'.toClient = c.toClient ∧
      c'.clerk = c.clerk ∧
      c'.ring = { c.ring with head := ringHeader + r.length, lap := c.ring.lap + 1 } ∧
      c'.client.acks = c.client.acks := by
  have hq := hs.inv.phase.waiting (by simp [hpc, ClientPc.Awaits]) (by simp [hpc]) (by simp [hpc])
  have hres : c.client.resume = some (c.client.rewind.postRecord r) := by
    simp only [Client.resume, hpc]
    exact if_neg (Nat.not_le.mpr hguard)
  refine ⟨_, client_steps sh hq.toClerk hres, ⟨[], rewindWait_requested hq hpc⟩, rfl,
    rfl, rfl, ?_, rfl⟩
  simp [ring, Client.rewind]

/-- The clerk flushes on `NOP`, and the client goes on to wait for the rewind. -/
theorem nop_flushes {l : List ToClerk} (hs : Sound (c, sh)) (h : c.Requested sh.mem l)
    (hpc : c.client.pc = .nopWait r) (ht : tails c.toClient = []) :
    ∃ c' m, Drives [] (c, sh) (c', { sh with mem := m }.flushed (records c.clerk.openRecs)) ∧
      c'.client.pc = .rewindWait r ∧ c'.toClient = [] ∧ c'.ring = c.ring.flush ∧
      c'.clerk.writeBuf = c.clerk.writeBuf ∧ c'.client.acks = c.client.acks := by
  obtain ⟨c₁, sh₁, l₁, hd₁, hr₁, ha⟩ := h.drain
  have hs₁ := hd₁.sound hs
  obtain ⟨c₂, sh₂, hd₂, hsv⟩ := hr₁.taken hs₁.inv ha.toClerk
  have hpc₁ : c₁.client.pc = .nopWait r := by rw [ha.client, hpc]
  have hb := hs₁.inv.batch hr₁.running
  have hrep := hsv.replied hr₁ (hr₁.flag ha.toClerk) (by rw [hpc₁]; trivial) hb
  obtain ⟨c₃, l₃, hd₃, hr₃, hret⟩ := hrep.drain sh₂
  obtain ⟨hring, hsh⟩ := hsv.flushes hb hpc₁
  obtain ⟨m, hm⟩ := ha.shared
  have hclient : c₂.client = c.client := hsv.frame.2.2.2.2.trans ha.client
  have hpc₃ : c₃.client.pc = .nopWait r := by rw [hret.pc, hclient, hpc]
  have hres : c₃.client.resume =
      some ({ c₃.client with pc := .rewindWait r, header := clientDone }, []) := by
    simp only [Client.resume, hpc₃, if_pos (hr₃.flag hret.toClient)]
  have hd₄ := client_resumes sh₂ hr₃.toClerk hres
  have hrecs : c₁.clerk.openRecs = c.clerk.openRecs := congrArg Ring.openRecs ha.ring
  rw [hm, hrecs] at hsh
  rw [hsh] at hd₂ hd₃ hd₄
  refine ⟨_, m, ((hd₁.trans hd₂).trans hd₃).trans hd₄, rfl, hret.toClient, ?_, ?_, ?_⟩
  · show c₃.ring = _
    rw [hret.untouched (by rw [hsv.tails, ha.toClient]; exact ht), hring, ha.ring]
  · show c₃.clerk.writeBuf = _
    rw [hret.writeBuf, hsv.frame.2.2.1, ha.writeBuf]
  · show c₃.client.acks = _
    rw [hret.acks, hclient]

/-- `SendWrite` at the end of a lap, up to the wait for the rewind. -/
theorem write_nops (h : AtRest (c, sh)) (hfull : maxAsyncSize ≤ c.ring.head + r.length) :
    ∃ c' m, Drives [.write r] (c, sh)
        (c', { sh with mem := m }.flushed (records c.ring.openRecs)) ∧
      c'.client.pc = .rewindWait r ∧ c'.toClient = [] ∧ c'.ring = c.ring.flush ∧
      c'.clerk.writeBuf = c.clerk.writeBuf ∧ c'.client.acks = c.client.acks := by
  obtain ⟨c₀, hd₀, hpc₀, hclerk₀, htoClient₀, hring₀, hacks₀, hflag₀, -⟩ :=
    call_enters h (.write r)
  have hs₀ := hd₀.sound h.sound
  have hpc : c₀.client.pc = .nopWait r := by
    have hge : c.client.bufHead + totalLen r ≥ maxAsyncSize := by
      rw [totalLen_eq]
      exact hfull
    rw [hpc₀]
    simp only [Client.call, Client.sendWrite, if_pos hge]
  obtain ⟨l, hr₀⟩ := posted_of_flag hs₀.inv.phase (by rw [hpc]; trivial) hflag₀ htoClient₀
  obtain ⟨c₁, m₁, hd₁, hpc₁, htoClient₁, hring₁, hbuf₁, hacks₁⟩ :=
    nop_flushes hs₀ hr₀ hpc (by rw [htoClient₀]; rfl)
  have hrecs : c₀.clerk.openRecs = c.ring.openRecs := by rw [hclerk₀]; rfl
  rw [hrecs] at hd₁
  exact ⟨c₁, m₁, hd₀.trans hd₁, hpc₁, htoClient₁, by rw [hring₁, hring₀],
    by rw [hbuf₁, hclerk₀], by rw [hacks₁, hacks₀]⟩

/-- `SendWrite` without persist threads: the client does not wait as long as its
head is past the tail word. -/
theorem write_completes (h : AtRest (c, sh)) (r : Record) (hword : c.ring.word ≤ c.ring.head)
    (hstrict : maxAsyncSize ≤ c.ring.head + r.length → c.ring.word < c.ring.head) :
    ∃ c' m, Drives [.write r] (c, sh)
        (c', { sh with mem := m }.sendWrite c.clerk.writeBuf c.ring r) ∧
      AtRest (c', { sh with mem := m }.sendWrite c.clerk.writeBuf c.ring r) ∧
      c'.ring = c.ring.sendWrite r ∧ c'.clerk.writeBuf = c.clerk.writeBuf ∧
      c'.client.acks = c.client.acks ++ [(r, if c.ring.head + r.length < maxAsyncSize
        then c.ring.head else ringHeader)] := by
  by_cases hfit : c.ring.head + r.length < maxAsyncSize
  · -- there is room in this lap
    obtain ⟨c₀, hd₀, hpc₀, hclerk₀, htoClient₀, hring₀, hacks₀, -⟩ := call_enters h (.write r)
    have hs₀ := hd₀.sound h.sound
    have hpc : c₀.client.pc = .spaceWait r := by
      have hnot : ¬ c.client.bufHead + totalLen r ≥ maxAsyncSize := by
        rw [totalLen_eq]
        exact Nat.not_le.mpr hfit
      rw [hpc₀]
      simp only [Client.call, Client.sendWrite, if_neg hnot]
    obtain ⟨c₁, hd₁, ⟨l, hr₁⟩, hpc₁, htoClient₁, hclerk₁, hring₁, hacks₁⟩ :=
      space_posts hs₀ hpc (by rw [hring₀]; omega)
    obtain ⟨c', m, hd, hrest, hring, hbuf, hacks⟩ :=
      record_completes (hd₁.sound hs₀) hr₁ hpc₁ (by rw [htoClient₁, htoClient₀]; rfl)
    rw [hclerk₁, hclerk₀, hring₁, hring₀] at hd hrest
    rw [hring₁, hring₀] at hring hacks
    refine ⟨c', m, ?_, ?_, ?_, ?_, ?_⟩
    · rw [Shared.sendWrite, if_pos hfit]
      exact (hd₀.trans hd₁).trans hd
    · rw [Shared.sendWrite, if_pos hfit]
      exact hrest
    · rw [Ring.sendWrite, if_pos hfit, hring]
    · rw [hbuf, hclerk₁, hclerk₀]
    · rw [hacks, hacks₁, hacks₀, if_pos hfit, h.head_eq]
      rfl
  · -- `NOP`, then the record at the start of the next lap
    have hfull : maxAsyncSize ≤ c.ring.head + r.length := Nat.le_of_not_lt hfit
    obtain ⟨c₁, m₁, hd₁, hpc₁, htoClient₁, hring₁, hbuf₁, hacks₁⟩ := write_nops h hfull
    have hs₁ := hd₁.sound h.sound
    obtain ⟨c₂, hstep₂, ⟨l₂, hr₂⟩, hpc₂, htoClient₂, hclerk₂, hring₂, hacks₂⟩ :=
      rewind_posts hs₁ hpc₁ (by rw [hring₁]; exact hstrict hfull)
    have hd₂ := Drives.step .client trivial (by simp) hstep₂
    obtain ⟨c', m, hd, hrest, hring, hbuf, hacks⟩ :=
      record_completes (hd₂.sound hs₁) hr₂ hpc₂ (by rw [htoClient₂, htoClient₁]; rfl)
    have hrew : c₂.ring = c.ring.rewound r := by
      rw [hring₂, hring₁]
      rfl
    have hbuf₂ : c₂.clerk.writeBuf = c.clerk.writeBuf := by rw [hclerk₂, hbuf₁]
    rw [hbuf₂, hrew] at hd hrest
    rw [hrew] at hring hacks
    refine ⟨c', m, ?_, ?_, ?_, ?_, ?_⟩
    · rw [Shared.sendWrite, if_neg hfit]
      exact (hd₁.trans hd₂).trans hd
    · rw [Shared.sendWrite, if_neg hfit]
      exact hrest
    · rw [Ring.sendWrite, if_neg hfit, hring]
    · rw [hbuf, hbuf₂]
    · rw [hacks, hacks₂, hacks₁, if_neg hfit]
      have htail : (c.ring.rewound r).tail = ringHeader := if_pos h.sound.wf.short
      rw [htail]
      rfl

/-- A call that posts its request at once goes around. -/
theorem call_rounds (h : AtRest (c, sh)) (hcall : (c.client.call q).1.pc.call = some q) :
    ∃ (c₀ c₁ : Conn) (sh₁ : Shared) (c₂ c' : Conn) (sh' : Shared),
      Drives [q] (c, sh) (c', sh') ∧ c₀.Round sh c₁ sh₁ c₂ c' sh' ∧
      c₀.client.pc.call = some q ∧ c₀.toClient = [] ∧ c₀.ring = c.ring ∧
      c₀.client.history = c.client.history := by
  obtain ⟨c₀, hd₀, hpc₀, -, htoClient₀, hring₀, -, hflag₀, hhist₀⟩ := call_enters h q
  have hs₀ := hd₀.sound h.sound
  rw [← hpc₀] at hcall
  obtain ⟨l, hr₀⟩ :=
    posted_of_flag hs₀.inv.phase (ClientPc.awaits_of_call hcall) hflag₀ htoClient₀
  obtain ⟨c₁, sh₁, c₂, c', sh', hround⟩ := hr₀.completes hs₀ hcall
  exact ⟨c₀, c₁, sh₁, c₂, c', sh', hd₀.trans hround.drives, hround, hcall, htoClient₀, hring₀,
    hhist₀⟩

/-- A call that takes no record returns. -/
theorem call_completes (h : AtRest (c, sh)) (hcall : (c.client.call q).1.pc.call = some q)
    (hq : ∀ r, q ≠ .write r) :
    ∃ c' sh', Drives [q] (c, sh) (c', sh') ∧ AtRest (c', sh') ∧ c'.ring = c.ring := by
  obtain ⟨c₀, c₁, sh₁, c₂, c', sh', hd, hround, hcall, htoClient₀, hring₀, -⟩ := call_rounds h hcall
  have ha := hround.arrives
  refine ⟨c', sh', hd, ⟨hd.sound h.sound, hround.idle, hround.toClient⟩, ?_⟩
  rw [hround.untouched (by rw [htoClient₀]; rfl),
    hround.serves.stays (by rw [ha.client]; exact hcall) hq, ha.ring, hring₀]

end LogDirect.Hybrid
