import LogDirect.Hybrid.Drive
import LogDirect.Lib.Exchange

/-!
# The hybrid front end: rounds

What is seen of a connection: the client posts a request, the clerk takes it and
posts a reply, the client reads the reply. A `SendWrite` at the end of a lap posts
two requests, a `NOP` and then its record. Of a write the clerk takes the record
that lies in the ring behind those it has taken.

Each phase of the handshake is a stage of a round, so every run is a sequence of
whole rounds and one under way.
-/

namespace LogDirect.Hybrid

open Lib
open Exchange (Event)

/-! ## What is seen -/

/-- A request as the clerk takes it: the operation, the key if it looks at one, the record in
the ring if it takes one. -/
structure Look where
  op : Option Operation
  key : Bytes
  record : Bytes
  deriving DecidableEq

/-- The request of a call. -/
def Look.ofCall : Call → Look
  | .write r => ⟨some r.op, r.key, r.encode⟩
  | .get k => ⟨some .get, k.bytes, []⟩
  | .sync => ⟨some .sync, [], []⟩
  | .delete k => ⟨some .delete, k.bytes, []⟩
  | .close => ⟨some .close, [], []⟩

/-- The request at the end of a lap. -/
def Look.nop : Look := ⟨some .nop, [], []⟩

/-- The record behind those the clerk has taken. -/
def Clerk.nextRecord (k : Clerk) (m : Mem) : Bytes :=
  m.read (k.writeBuf + k.bufTail + k.batchLength) (Request.length k.msg)

/-- What the clerk finds when it leaves its loop. -/
def Clerk.look (k : Clerk) (m : Mem) : Look :=
  match Request.op k.msg with
  | some .put => ⟨some .put, Request.key k.msg, k.nextRecord m⟩
  | some .update => ⟨some .update, Request.key k.msg, k.nextRecord m⟩
  | some .get => ⟨some .get, Request.key k.msg, []⟩
  | some .delete => ⟨some .delete, Request.key k.msg, []⟩
  | some .sync => ⟨some .sync, [], []⟩
  | some .close => ⟨some .close, [], []⟩
  | some .nop => .nop
  | none => ⟨none, [], []⟩

/-- What a call posts at once; a record waits until there is room for it. -/
def Client.callEvents (c : Client) : Call → List (Event Look Bytes)
  | .write r => if c.bufHead + totalLen r ≥ maxAsyncSize then [.ask .nop] else []
  | .get k => [.ask (.ofCall (.get k))]
  | .sync => [.ask (.ofCall .sync)]
  | .delete k => [.ask (.ofCall (.delete k))]
  | .close => [.ask (.ofCall .close)]

/-- What the client does as it leaves a loop. -/
def Client.resumeEvents (c : Client) : List (Event Look Bytes) :=
  match c.pc with
  | .rewindWait r => [.ask (.ofCall (.write r))]
  | .spaceWait r => [.ask (.ofCall (.write r))]
  | .nopWait _ => [.read (Reply.wire c.msg)]
  | .writeWait _ _ => [.read (Reply.wire c.msg)]
  | .getWait _ => [.read (Reply.wire c.msg)]
  | .syncWait => [.read (Reply.wire c.msg)]
  | .deleteWait _ => [.read (Reply.wire c.msg)]
  | .closeWait => []
  | .idle => []
  | .closed => []

/-- A turn of the clerk; there is no reply to `CLOSE`. -/
def Conn.serveEvents (c : Conn) (sh : Shared) : List (Event Look Bytes) :=
  .take (c.clerk.look sh.mem) ::
    if (c.serve sh).1.clerk.pc = .running then [.answer (Reply.wire (c.serve sh).1.clerk.msg)]
    else []

/-- The questions and answers of a step. -/
def stepEvents (s : Conn × Shared) : Label → List (Event Look Bytes)
  | .call q => s.1.client.callEvents q
  | .client => s.1.client.resumeEvents
  | .serve => s.1.serveEvents s.2
  | .toClerk => []
  | .toClient => []
  | .callback => []
  | .persist _ => []
  | .post _ => []

/-- The questions and answers of a run. -/
def events (tr : List ((Conn × Shared) × Label)) : List (Event Look Bytes) :=
  tr.flatMap fun p => stepEvents p.1 p.2

@[simp] theorem events_snoc (tr : List ((Conn × Shared) × Label)) (s : Conn × Shared) (l : Label) :
    events (tr ++ [(s, l)]) = events tr ++ stepEvents s l := by
  simp [events]

/-! ## The round under way -/

/-- The request the client waits on. -/
def ClientPc.look : ClientPc → Option Look
  | .nopWait _ => some .nop
  | .writeWait r _ => some (.ofCall (.write r))
  | .getWait k => some (.ofCall (.get k))
  | .syncWait => some (.ofCall .sync)
  | .deleteWait k => some (.ofCall (.delete k))
  | .closeWait => some (.ofCall .close)
  | .closed => some (.ofCall .close)
  | .idle => none
  | .rewindWait _ => none
  | .spaceWait _ => none

theorem ClientPc.Awaits.look {pc : ClientPc} (h : pc.Awaits) : ∃ x, pc.look = some x := by
  cases pc with
  | nopWait | writeWait | getWait | syncWait | deleteWait => exact ⟨_, rfl⟩
  | idle | rewindWait | spaceWait | closeWait | closed => exact h.elim

/-- A client that waits for a reply reads it as it goes on. -/
theorem Client.resumeEvents_of_awaits (c : Client) (h : c.pc.Awaits) :
    c.resumeEvents = [.read (Reply.wire c.msg)] := by
  unfold resumeEvents
  cases hpc : c.pc with
  | nopWait | writeWait | getWait | syncWait | deleteWait => rfl
  | idle | rewindWait | spaceWait | closeWait | closed =>
    rw [hpc] at h
    exact h.elim

theorem Posted.look {pc : ClientPc} {l : List ToClerk} (h : Posted pc l) :
    ∃ x, pc.look = some x := by
  rcases h.awaits with hawaits | rfl
  · exact hawaits.look
  · exact ⟨_, rfl⟩

namespace Conn

/-- How far the round under way has come. -/
def round (c : Conn) : Exchange.Round Look Bytes :=
  match c.client.pc.look with
  | none => .rest
  | some x =>
      if c.clerk.pc = .running then
        match c.toClerk with
        | [] =>
            if c.clerk.header = clerkDone then .answered x (Reply.wire c.clerk.msg) else .asked x
        | _ :: _ => .asked x
      else .taken x

variable {c : Conn} {m : Mem}

theorem Quiet.round (h : c.Quiet) : c.round = .rest := by
  unfold Conn.round
  rcases h.at_rest with hpc | ⟨r, hpc⟩ | ⟨r, hpc⟩ <;> rw [hpc] <;> rfl

theorem Requested.round {l : List ToClerk} (h : c.Requested m l) {x : Look}
    (hx : c.client.pc.look = some x) : c.round = .asked x := by
  unfold Conn.round
  rw [hx, h.running]
  cases hq : c.toClerk with
  | nil =>
    show (if c.clerk.header = clerkDone then _ else _ : Exchange.Round Look Bytes) = _
    rw [if_neg]
    rw [h.flag hq]
    exact clerkDone_ne_clientDone.symm
  | cons w ws => rfl

theorem Replied.round {l : List ToClient} (h : c.Replied l) {x : Look}
    (hx : c.client.pc.look = some x) : c.round = .answered x (Reply.wire c.clerk.msg) := by
  unfold Conn.round
  rw [hx, h.running, h.toClerk]
  exact if_pos h.clerk_flag

theorem Leaving.round (h : c.Leaving) : c.round = .asked (.ofCall .close) := by
  unfold Conn.round
  rw [h.closed, h.running]
  rcases h.toClerk with hq | hq
  · rw [hq]
    show (if c.clerk.header = clerkDone then _ else _ : Exchange.Round Look Bytes) = _
    rw [if_neg]
    rw [h.clerk_flag]
    exact clerkDone_ne_clientDone.symm
  · rw [hq]
    rfl

theorem Closing.round (h : c.Closing) : c.round = .taken (.ofCall .close) := by
  unfold Conn.round
  have hrun : c.clerk.pc ≠ .running := by
    rcases h.clerk with ⟨sync, hpc⟩ | hpc <;> rw [hpc] <;> simp
  rcases h.client with hpc | hpc
  · rw [hpc]
    exact if_neg hrun
  · rw [hpc]
    exact if_neg hrun

/-- A request that has arrived is the one the client waits on, whole. -/
theorem Requested.look {l : List ToClerk} (h : c.Requested m l)
    (hflag : c.clerk.header = clientDone) : c.client.pc.look = some (c.clerk.look m) := by
  obtain ⟨-, hp⟩ := h.arrived hflag
  have hland := h.landed
  generalize hpc : c.client.pc = pc at hp
  cases hp with
  | @nop r rest hrest =>
    have hbody := hland _ List.mem_cons_self
    have hop : Request.op c.clerk.msg = some .nop := by
      refine Request.op_of_read rest ?_
      simpa [Landed] using hbody
    rw [Clerk.look, hop]
    rfl
  | @write r pos =>
    have hholds : c.clerk.Holds r := Clerk.holds_of_read (hland (.body r.metaPart) (by simp))
    have hring : m.read (c.clerk.writeBuf + pos) r.encode.length = r.encode :=
      hland (.ring pos r.encode) (by simp)
    have hheads := h.heads
    simp only [HeadsBefore, hpc] at hheads
    have hrecord : c.clerk.nextRecord m = r.encode := by
      have hlen : Request.length c.clerk.msg = r.encode.length := by
        rw [Request.length, hholds.keySize, hholds.valSize, Record.length_encode]
        exact Nat.mod_eq_of_lt (r.fits.trans_lt (by decide))
      rw [Clerk.nextRecord, hlen, Nat.add_assoc, ← clerkHead, ← hheads.1]
      exact hring
    rw [Clerk.look, hholds.op, hholds.key, hrecord, ClientPc.look, Look.ofCall]
    rcases r.isWrite with hop | hop <;> rw [hop]
  | @get k =>
    obtain ⟨hop, -, hkey⟩ := Requested.key (hland _ List.mem_cons_self)
    rw [Clerk.look, hop, hkey]
    rfl
  | sync =>
    rw [Clerk.look, Requested.bare (hland _ List.mem_cons_self)]
    rfl
  | @delete k =>
    obtain ⟨hop, -, hkey⟩ := Requested.key (hland _ List.mem_cons_self)
    rw [Clerk.look, hop, hkey]
    rfl
  | close =>
    rw [Clerk.look, Requested.bare (hland _ List.mem_cons_self)]
    rfl

theorem Leaving.look (h : c.Leaving) (m : Mem) : c.clerk.look m = .ofCall .close := by
  rw [Clerk.look, h.request]
  rfl

/-! ## Steps -/

variable {c' : Conn} {sh sh' : Shared} {es : List (Event Look Bytes)}

/-- The client has posted something. -/
theorem round_posted (hrun : c.clerk.pc = .running) {cl : Client} {x : Look}
    (hx : cl.pc.look = some x) (w : ToClerk) (ws : List ToClerk) :
    { c with client := cl, toClerk := w :: ws }.round = .asked x := by
  unfold Conn.round
  rw [hx]
  exact if_pos hrun

theorem call_ends {q : Call} (hinv : c.Inv sh.mem) (h : c.step sh (.call q) = some (c', sh'))
    (hes : c.round.Ends es) : c'.round.Ends (es ++ c.client.callEvents q) := by
  obtain ⟨hidle, rfl, rfl⟩ := call_step h
  have hq := hinv.phase.quiet hidle
  rw [hq.round] at hes
  rw [hq.toClerk, List.nil_append]
  cases q with
  | write r =>
    by_cases hfull : c.client.bufHead + totalLen r ≥ maxAsyncSize
    · simp only [Client.callEvents, Client.call, Client.sendWrite, if_pos hfull]
      rw [round_posted hq.running (x := .nop) rfl]
      exact hes.ask _
    · simp only [Client.callEvents, Client.call, Client.sendWrite, if_neg hfull, List.append_nil]
      exact hes
  | get k =>
    rw [Client.call, Client.sendGet, Client.sendKey, round_posted hq.running rfl]
    exact hes.ask _
  | sync =>
    rw [Client.call, Client.sendSync, Client.sendBare, round_posted hq.running rfl]
    exact hes.ask _
  | delete k =>
    rw [Client.call, Client.sendDelete, Client.sendKey, round_posted hq.running rfl]
    exact hes.ask _
  | close =>
    rw [Client.call, Client.sendClose, Client.sendBare, round_posted hq.running rfl]
    exact hes.ask _

/-- The client reads the reply to its request. -/
theorem read_ends (hinv : c.Inv sh.mem) (hawaits : c.client.pc.Awaits)
    (hflag : c.client.header = clerkDone) (hes : c.round.Ends es) :
    Exchange.Round.Ends (es ++ c.client.resumeEvents) (.rest : Exchange.Round Look Bytes) := by
  obtain ⟨l, hr⟩ := hinv.phase.replied hawaits hflag
  obtain ⟨x, hx⟩ := hawaits.look
  rw [hr.round hx] at hes
  rw [c.client.resumeEvents_of_awaits hawaits, Reply.wire_of_read (hr.answer hflag).2]
  exact hes.read

/-- A `CLOSE` that the clerk has not taken. -/
theorem Phase.requested_close (hph : c.Phase m) (hrun : c.clerk.pc = .running)
    (hpc : c.client.pc = .closeWait) : ∃ l, c.Requested m l := by
  rcases hph with hq | ⟨l, hr⟩ | ⟨l, hr⟩ | hl | hc
  · rcases hq.at_rest with h' | ⟨r, h'⟩ | ⟨r, h'⟩ <;> rw [hpc] at h' <;> cases h'
  · exact ⟨l, hr⟩
  · have hawaits := hr.awaits
    rw [hpc] at hawaits
    exact hawaits.elim
  · exact nomatch hpc.symm.trans hl.closed
  · rcases hc.clerk with ⟨sync, h'⟩ | h' <;> rw [hrun] at h' <;> cases h'

theorem client_ends (hinv : c.Inv sh.mem) (h : c.step sh .client = some (c', sh'))
    (hes : c.round.Ends es) : c'.round.Ends (es ++ c.client.resumeEvents) := by
  obtain ⟨hempty, rfl, cl, out, hres, rfl⟩ := client_step h
  cases hres with
  | @nop r hpc hflag => exact read_ends hinv (by rw [hpc]; trivial) hflag hes
  | @rewind r hpc hguard =>
    have hq := hinv.phase.waiting (by simp [hpc, ClientPc.Awaits]) (by simp [hpc]) (by simp [hpc])
    rw [hq.round] at hes
    rw [Client.postRecord, round_posted hq.running rfl, Client.resumeEvents, hpc]
    exact hes.ask _
  | @space r hpc hguard =>
    have hq := hinv.phase.waiting (by simp [hpc, ClientPc.Awaits]) (by simp [hpc]) (by simp [hpc])
    rw [hq.round] at hes
    rw [Client.postRecord, round_posted hq.running rfl, Client.resumeEvents, hpc]
    exact hes.ask _
  | @ret q hcall hflag => exact read_ends hinv (ClientPc.awaits_of_call hcall) hflag hes
  | close hpc =>
    have hevents : c.client.resumeEvents = [] := by
      rw [Client.resumeEvents, hpc]
    rw [hevents, List.append_nil]
    have hsame : { c with client := { c.client with pc := .closed }
                          toClerk := [.send] }.round = c.round := by
      by_cases hrun : c.clerk.pc = .running
      · rw [round_posted hrun rfl]
        obtain ⟨l, hr⟩ := hinv.phase.requested_close hrun hpc
        exact (hr.round (by rw [hpc]; rfl)).symm
      · rw [(hinv.phase.closing hrun).round]
        exact if_neg hrun
    rw [hsame]
    exact hes

/-- A delivery at the clerk. -/
theorem toClerk_round (hinv : c.Inv sh.mem) (h : c.step sh .toClerk = some (c', sh')) :
    c'.round = c.round := by
  obtain ⟨w, ws, hw, rfl, rfl⟩ := toClerk_step h
  have hclient := (landClerk_ring { c with toClerk := ws } sh w).2.1
  rcases hinv.phase with hq | ⟨l, hr⟩ | ⟨l, hr⟩ | hl | hc
  · simp [hq.toClerk] at hw
  · obtain ⟨x, hx⟩ := hr.posted.look
    rw [hr.round hx]
    refine (hr.land hw).round ?_
    rw [hclient]
    exact hx
  · simp [hr.toClerk] at hw
  · -- the last message of the client
    rcases hl.toClerk with h' | h'
    · simp [h'] at hw
    · rw [h'] at hw
      cases hw
      rw [hl.round]
      exact Leaving.round ⟨hl.closed, .inl rfl, hl.replies, hl.clerk_flag, hl.request, hl.running,
        hl.heads, hl.books⟩
  · rcases hc.toClerk with h' | h'
    · simp [h'] at hw
    · rw [h'] at hw
      cases hw
      rw [hc.round]
      exact Closing.round ⟨hc.client, .inl rfl, hc.replies, hc.clerk, hc.emptied, hc.books⟩

/-- A delivery at the client. -/
theorem toClient_round (h : c.step sh .toClient = some (c', sh')) : c'.round = c.round := by
  obtain ⟨w, ws, -, rfl, rfl⟩ := toClient_step h
  cases w with
  | body bs => rfl
  | header v => rfl
  | tail t i => rfl

/-- A turn of the clerk. -/
theorem serve_ends (hinv : c.Inv sh.mem) (h : c.step sh .serve = some (c', sh'))
    (hes : c.round.Ends es) : c'.round.Ends (es ++ c.serveEvents sh) := by
  obtain ⟨hs, hrun, hb⟩ := serve_serves hinv.phase hinv.batch h
  obtain ⟨-, hflag, heq⟩ := serve_step h
  have hself : (c.serve sh).1 = c' := (congrArg Prod.fst heq).symm
  have hclient : c'.client = c.client := hs.frame.2.2.2.2
  rw [serveEvents, hself]
  by_cases hawaits : c.client.pc.Awaits
  · obtain ⟨l, hr⟩ := hinv.phase.requested hflag hawaits
    have hlook := hr.look hflag
    have hrep := hs.replied hr hflag hawaits hb
    rw [hr.round hlook] at hes
    rw [hrep.round (by rw [hclient]; exact hlook), if_pos hrep.running]
    have := hes.take.answer (Reply.wire c'.clerk.msg)
    rwa [List.append_assoc] at this
  · -- the clerk takes `CLOSE`
    have hclose : c.round = .asked (.ofCall .close) ∧ c.clerk.look sh.mem = .ofCall .close := by
      rcases hinv.phase with hq | ⟨l, hr⟩ | ⟨l, hr⟩ | hl | hc
      · exact absurd hflag hq.clerk_flag
      · have hpc := hr.posted.awaits.resolve_left hawaits
        have hlook := hr.look hflag
        rw [hpc] at hlook
        exact ⟨hr.round (by rw [hpc]; rfl), (Option.some.inj hlook).symm⟩
      · exact absurd hr.awaits hawaits
      · exact ⟨hl.round, hl.look sh.mem⟩
      · rcases hc.clerk with ⟨sync, h'⟩ | h' <;> rw [hrun] at h' <;> cases h'
    have hleft : c'.clerk.pc ≠ .running := by
      cases hs with
      | closeFull => simp [Clerk.lastFlushed]
      | closeEmpty => simp
      | nop hpc | short hpc | full hpc | get hpc | sync hpc | delete hpc =>
        rw [hpc] at hawaits
        exact absurd trivial hawaits
    rw [hclose.1] at hes
    rw [((hs.phase hinv.phase hrun hflag hb).closing hleft).round, if_neg hleft, hclose.2]
    exact hes.take

/-- One step. -/
theorem step_ends {l : Label} (hinv : c.Inv sh.mem) (h : c.step sh l = some (c', sh'))
    (hes : c.round.Ends es) : c'.round.Ends (es ++ stepEvents (c, sh) l) := by
  cases l with
  | call q => exact call_ends hinv h hes
  | client => exact client_ends hinv h hes
  | toClerk =>
    rw [toClerk_round hinv h, stepEvents, List.append_nil]
    exact hes
  | toClient =>
    rw [toClient_round h, stepEvents, List.append_nil]
    exact hes
  | serve => exact serve_ends hinv h hes
  | callback =>
    have hround : c'.round = c.round := by
      have hc' := (callback_phase hinv.phase h).closing
      obtain ⟨sync, hpc, -, rfl, rfl⟩ := callback_step h
      rw [(hc' (by simp)).round, (hinv.phase.closing (by rw [hpc]; simp)).round]
    rw [hround, stepEvents, List.append_nil]
    exact hes
  | persist i =>
    obtain ⟨t, -, -, -, rfl, rfl⟩ := persist_step h
    rw [stepEvents, List.append_nil]
    exact hes
  | post i =>
    obtain ⟨t, -, -, rfl, rfl⟩ := post_step h
    rw [stepEvents, List.append_nil]
    exact hes

end Conn

/-- A run. -/
theorem run_ends {s s' : Conn × Shared} {tr : List ((Conn × Shared) × Label)}
    (hinit : system.init s) (hrun : system.Run s tr s') : s'.1.round.Ends (events tr) := by
  induction hrun with
  | nil =>
    obtain ⟨-, writeBuf, flag, m, m', -, hs⟩ := hinit
    rw [hs]
    exact Exchange.Round.ends_nil
  | @snoc tr s l s' hr hstep ih =>
    rw [events_snoc]
    exact Conn.step_ends (reachable_inv ⟨_, _, hinit, hr⟩) hstep ih

/-! ## A request under way can be finished -/

/-- What is still to be delivered to the clerk; a flag weighs more than the reply to it. -/
def ToClerk.weight : ToClerk → Nat
  | .header _ => 11
  | .body _ => 1
  | .ring _ _ => 1
  | .send => 1

/-- What a client has to do about a reply. -/
def ClientPc.work : ClientPc → Nat
  | .nopWait _ => 1
  | .writeWait _ _ => 1
  | .getWait _ => 1
  | .syncWait => 1
  | .deleteWait _ => 1
  | .idle => 0
  | .rewindWait _ => 0
  | .spaceWait _ => 0
  | .closeWait => 0
  | .closed => 0

/-- What a clerk has to do about a flag. -/
def flagWork (header : Nat) : Nat := if header = clientDone then 10 else 0

theorem flagWork_le (header : Nat) : flagWork header ≤ 10 := by
  unfold flagWork
  split <;> decide

/-- What is left of the round under way. -/
def Conn.work (c : Conn) : Nat :=
  (c.toClerk.map ToClerk.weight).sum + flagWork c.clerk.header + c.toClient.length +
    c.client.pc.work

/-- The steps that finish a round. -/
def Finishes (s : Conn × Shared) : Label → Prop
  | .client => s.1.client.pc.Awaits
  | .toClerk => True
  | .toClient => True
  | .serve => True
  | .call _ => False
  | .callback => False
  | .persist _ => False
  | .post _ => False

/-- A client that waits for a reply goes on once the flag is there. -/
theorem Client.resume_some {c : Client} (hawaits : c.pc.Awaits) (hflag : c.header = clerkDone) :
    ∃ p, c.resume = some p := by
  cases hpc : c.pc with
  | nopWait | writeWait | getWait | syncWait | deleteWait => simp [resume, hpc, finish, hflag]
  | idle | rewindWait | spaceWait | closeWait | closed =>
    rw [hpc] at hawaits
    exact hawaits.elim

namespace Conn

variable {c c' : Conn} {sh sh' : Shared}

theorem toClerk_work (h : c.step sh .toClerk = some (c', sh')) : c'.work < c.work := by
  obtain ⟨w, ws, hw, rfl, rfl⟩ := toClerk_step h
  unfold work
  rw [hw, List.map_cons, List.sum_cons]
  cases w with
  | header v =>
    have hle := flagWork_le v
    simp only [landClerk, ToClerk.weight]
    omega
  | body bs =>
    simp only [landClerk, ToClerk.weight]
    omega
  | ring off bs =>
    simp only [landClerk, ToClerk.weight]
    omega
  | send =>
    simp only [landClerk, ToClerk.weight]
    omega

theorem toClient_work (h : c.step sh .toClient = some (c', sh')) : c'.work < c.work := by
  obtain ⟨w, ws, hw, rfl, rfl⟩ := toClient_step h
  unfold work
  rw [hw, List.length_cons]
  cases w with
  | body bs =>
    simp only [landClient]
    omega
  | header v =>
    simp only [landClient]
    omega
  | tail v i =>
    simp only [landClient, Clerk.setStage]
    omega

/-- A turn of the clerk posts two writes at most. -/
theorem Serves.posts (h : c.Serves sh c' sh') : c'.toClerk = c.toClerk ∧
    c'.clerk.header = clerkDone ∧ c'.toClient.length ≤ c.toClient.length + 2 := by
  cases h with
  | nop | short | full | sync | delete =>
    exact ⟨rfl, rfl, by simp [answer]⟩
  | get =>
    obtain ⟨st, n, v, hget⟩ := c.woken.get_eq_reply sh
    rw [hget]
    exact ⟨rfl, rfl, by simp [answer]⟩
  | closeFull | closeEmpty => exact ⟨rfl, rfl, Nat.le_add_right _ _⟩

theorem serve_work (hinv : c.Inv sh.mem) (h : c.step sh .serve = some (c', sh')) :
    c'.work < c.work := by
  obtain ⟨hs, -, -⟩ := serve_serves hinv.phase hinv.batch h
  obtain ⟨-, hflag, -⟩ := serve_step h
  obtain ⟨hq, hdone, hlen⟩ := hs.posts
  have hclient : c'.client = c.client := hs.frame.2.2.2.2
  have hnew : flagWork clerkDone = 0 := if_neg clerkDone_ne_clientDone
  have hold : flagWork clientDone = 10 := if_pos rfl
  unfold work
  rw [hq, hdone, hclient, hflag, hnew, hold]
  omega

theorem client_work (hawaits : c.client.pc.Awaits) (h : c.step sh .client = some (c', sh')) :
    c'.work < c.work := by
  obtain ⟨hempty, rfl, cl, out, hres, rfl⟩ := client_step h
  have hwork : c.client.pc.work = 1 := by
    cases hpc : c.client.pc with
    | nopWait | writeWait | getWait | syncWait | deleteWait => rfl
    | idle | rewindWait | spaceWait | closeWait | closed =>
      rw [hpc] at hawaits
      exact hawaits.elim
  unfold work
  rw [hempty, hwork]
  cases hres with
  | nop => exact Nat.lt_succ_self _
  | ret => exact Nat.lt_succ_self _
  | rewind hpc | space hpc | close hpc =>
    rw [hpc] at hawaits
    exact hawaits.elim

/-- A request under way is not stuck. -/
theorem Phase.goes {m : Mem} (hph : c.Phase m) (sh : Shared) (hopen : ¬ c.round.Over) :
    ∃ l s', Finishes (c, sh) l ∧ c.step sh l = some s' := by
  rcases hph with hq | ⟨l, hr⟩ | ⟨l, hr⟩ | hl | hc
  · rw [hq.round] at hopen
    exact absurd trivial hopen
  · cases hq : c.toClerk with
    | nil =>
      refine ⟨.serve, c.serve sh, trivial, ?_⟩
      simp only [step]
      rw [if_pos ⟨hr.running, hr.flag hq⟩]
    | cons w ws =>
      obtain ⟨s', hs'⟩ : ∃ s', c.step sh .toClerk = some s' := by
        simp [step, hq]
      exact ⟨.toClerk, s', trivial, hs'⟩
  · cases hq : c.toClient with
    | nil =>
      obtain ⟨p, hp⟩ := Client.resume_some hr.awaits (hr.flag hq)
      obtain ⟨s', hs'⟩ : ∃ s', c.step sh .client = some s' := by
        simp [step, hr.toClerk, hp]
      exact ⟨.client, s', hr.awaits, hs'⟩
    | cons w ws =>
      obtain ⟨s', hs'⟩ : ∃ s', c.step sh .toClient = some s' := by
        simp [step, hq]
      exact ⟨.toClient, s', trivial, hs'⟩
  · refine ⟨.serve, c.serve sh, trivial, ?_⟩
    simp only [step]
    rw [if_pos ⟨hl.running, hl.clerk_flag⟩]
  · rw [hc.round] at hopen
    exact absurd trivial hopen

end Conn

/-- The steps that finish a round ask nothing new. -/
theorem asks_of_finishes {tr : List ((Conn × Shared) × Label)} (h : TSys.Meets Finishes tr) :
    (events tr).flatMap Event.asks = [] := by
  rw [List.flatMap_eq_nil_iff]
  intro e he
  obtain ⟨⟨⟨c, sh⟩, l⟩, hp, he⟩ := List.mem_flatMap.mp he
  have hl : Finishes (c, sh) l := h _ hp
  cases l with
  | client =>
    have he : e ∈ c.client.resumeEvents := he
    rw [c.client.resumeEvents_of_awaits hl] at he
    rw [List.mem_singleton.mp he]
    rfl
  | serve =>
    rcases List.mem_cons.mp he with rfl | he
    · rfl
    · split at he
      · rw [List.mem_singleton.mp he]
        rfl
      · cases he
  | toClerk | toClient => cases he
  | call | callback | persist | post => exact hl.elim

/-- A request under way can be finished. -/
theorem finishes {c : Conn} {sh : Shared} (hinv : c.Inv sh.mem) :
    ∃ tr s', system.Run (c, sh) tr s' ∧ (events tr).flatMap Event.asks = [] ∧ s'.1.round.Over := by
  have hstep : ∀ s l s', s.1.Inv s.2.mem → Finishes s l → system.step s l = some s' →
      s'.1.Inv s'.2.mem ∧ s'.1.work < s.1.work := by
    rintro ⟨c, sh⟩ l ⟨c', sh'⟩ hinv hl hstep
    refine ⟨Conn.step_inv hinv hstep, ?_⟩
    cases l with
    | client => exact Conn.client_work hl hstep
    | toClerk => exact Conn.toClerk_work hstep
    | toClient => exact Conn.toClient_work hstep
    | serve => exact Conn.serve_work hinv hstep
    | call | callback | persist | post => exact hl.elim
  have hgo : ∀ s : Conn × Shared, s.1.Inv s.2.mem → ¬ s.1.round.Over →
      ∃ l s', Finishes s l ∧ system.step s l = some s' := by
    rintro ⟨c, sh⟩ hinv hopen
    exact hinv.phase.goes sh hopen
  obtain ⟨tr, s', hrun, hmeets, -, hover⟩ :=
    TSys.reaches (fun s : Conn × Shared => s.1.work) hstep hgo (s := (c, sh)) hinv
  exact ⟨tr, s', hrun, asks_of_finishes hmeets, hover⟩

/-- Requests and replies of one connection. -/
theorem exactlyOnce : Exchange.ExactlyOnce system events := by
  constructor
  · intro s tr s' hinit hrun
    exact ⟨_, run_ends hinit hrun⟩
  · intro s tr s' hinit hrun
    obtain ⟨tr', s'', hrun', hasks, hover⟩ := finishes (reachable_inv ⟨s, tr, hinit, hrun⟩)
    exact ⟨tr', s'', hrun', hasks, _, run_ends hinit (hrun.trans hrun'), hover⟩

end LogDirect.Hybrid
