import LogDirect.Sync.Handshake
import LogDirect.Lib.Atomic

/-!
# Sync and persistent-memory servers with any number of clients

`SyncServer::Listen` and `PMemServer::Listen` start a clerk for every client that connects.
The clerks share one store and call it whenever they like, also while calls of other clerks
are under way. A clerk takes a request, calls the store, waits, and writes the reply over the
request.

If the store can be followed as an atomic one, so can the server (`server_linear`): to the
clients, a call of theirs takes effect on the store at one moment between `Send` and its
return, for any number of clients, any order of deliveries and any order of the steps of
the clerks and of the store. `SendClose` waits for no answer, and is not answered.
-/

namespace LogDirect.Sync

open Lib Lib.Atomic

variable {σ μ ω ℓ : Type}

/-! ## Calls of the store -/

/-- The calls that a clerk makes of its `DBType`. -/
inductive StoreCall
  | put (key val : Bytes)
  | get (key : Bytes)
  | delete (key : Bytes)
  | setSync

/-- What they return. -/
inductive StoreRet
  | stored (ok : Bool)
  | got (v : Option Bytes)
  | deleted (found : Bool)
  | synced

/-- The return value of a call. -/
def StoreRet.Answers : StoreRet → StoreCall → Prop
  | .stored _, .put _ _ => True
  | .got _, .get _ => True
  | .deleted _, .delete _ => True
  | .synced, .setSync => True
  | _, _ => False

/-- A call of a `DBType` as a whole. -/
def StoreCall.exec (B : DBType σ) (db : σ) : StoreCall → StoreRet × σ
  | .put key val => (.stored (B.put db key val).1, (B.put db key val).2)
  | .get key => (.got (B.get db key).1, (B.get db key).2)
  | .delete key => (.deleted (B.delete db key).1, (B.delete db key).2)
  | .setSync => (.synced, B.setSync db)

/-- What the switch of `Run` leads to. -/
inductive Order
  | call (c : StoreCall)
  | close
  | exit

/-- The label of the request in a message area. -/
def Order.ofMem (m : Mem) : Order :=
  match Request.op m with
  | some .update => .call (.put (Request.key m) (requestVal m))
  | some .put => .call (.put (Request.key m) (requestVal m))
  | some .get => .call (.get (Request.key m))
  | some .sync => .call .setSync
  | some .delete => .call (.delete (Request.key m))
  | some .close => .close
  | some .nop => .exit
  | none => .exit

/-- What is written over the request once the store has answered. -/
def StoreRet.reply (m : Mem) : StoreRet → Mem
  | .stored ok => Sync.reply m (if ok then .ok else .error) 0 []
  | .got (some v) => Sync.reply m .ok v.length (v.take (v.length % 2 ^ 32))
  | .got none => Sync.reply m .notFound 0 []
  | .deleted found => Sync.reply m (if found then .ok else .notFound) 0 []
  | .synced => m

/-- The turn of a clerk with the store called in the middle of it. -/
def Order.turn (B : DBType σ) (db : σ) (m : Mem) : Order → Turn σ
  | .call c => .reply ((c.exec B db).1.reply m) (c.exec B db).2
  | .close => .close
  | .exit => .exit

/-- It is the turn of `SyncClerk::Run` and `PMemClerk::Run`. -/
theorem serve_eq (B : DBType σ) (db : σ) (m : Mem) :
    serve B db m = (Order.ofMem m).turn B db m := by
  unfold serve Order.ofMem
  cases Request.op m with
  | none => rfl
  | some op =>
    cases op with
    | get =>
      dsimp only [serveGet, Order.turn, StoreCall.exec]
      rcases B.get db (Request.key m) with ⟨_ | v, db'⟩
      · rfl
      · rfl
    | _ => rfl

/-! ## Requests -/

/-- The call of the store that a call of the client asks for. -/
def storeCall : Call → Option StoreCall
  | .write r => some (.put r.key r.val)
  | .get k => some (.get k.bytes)
  | .sync => some .setSync
  | .delete k => some (.delete k.bytes)
  | .close => none

/-- What the client makes of the answer. -/
def callRet : Call → StoreRet → Ret
  | .get _, .got v => .value (v.map clip)
  | .delete _, .deleted found => .deleted found
  | _, _ => .done

theorem exec_eq (B : DBType σ) (db : σ) {q : Call} {c : StoreCall} (h : storeCall q = some c) :
    exec B db q = (callRet q (c.exec B db).1, (c.exec B db).2) := by
  cases q <;> cases h <;> rfl

/-- A request that is there whole is taken for what it is. -/
theorem ofMem_body {m : Mem} {q : Call} (h : m.read 0 (body q).length = body q) :
    Order.ofMem m = (storeCall q).elim .close .call := by
  have hseen := Seen.ofMem_body h
  unfold Order.ofMem
  cases q with
  | write r =>
    obtain ⟨hop, hkey, hval⟩ := Seen.mk.inj hseen
    rw [hop, hkey, requestVal, hval]
    rcases r.isWrite with hr | hr
    · rw [hr]
      rfl
    · rw [hr]
      rfl
  | get k =>
    obtain ⟨hop, hkey, -⟩ := Seen.mk.inj hseen
    rw [hop, hkey]
    rfl
  | sync =>
    obtain ⟨hop, -⟩ := Seen.mk.inj hseen
    rw [hop]
    rfl
  | delete k =>
    obtain ⟨hop, hkey, -⟩ := Seen.mk.inj hseen
    rw [hop, hkey]
    rfl
  | close =>
    obtain ⟨hop, -⟩ := Seen.mk.inj hseen
    rw [hop]
    rfl

/-- A store that always answers the same. -/
def oracle : StoreRet → DBType Unit
  | .stored ok => ⟨fun _ _ _ => (ok, ()), fun _ _ => (none, ()), fun _ _ => (false, ()),
      fun _ _ _ _ => (), fun _ => ()⟩
  | .got v => ⟨fun _ _ _ => (false, ()), fun _ _ => (v, ()), fun _ _ => (false, ()),
      fun _ _ _ _ => (), fun _ => ()⟩
  | .deleted found => ⟨fun _ _ _ => (false, ()), fun _ _ => (none, ()), fun _ _ => (found, ()),
      fun _ _ _ _ => (), fun _ => ()⟩
  | .synced => ⟨fun _ _ _ => (false, ()), fun _ _ => (none, ()), fun _ _ => (false, ()),
      fun _ _ _ _ => (), fun _ => ()⟩

theorem exec_oracle {r : StoreRet} {c : StoreCall} (h : r.Answers c) :
    c.exec (oracle r) () = (r, ()) := by
  cases r <;> cases c <;> first | rfl | exact h.elim

/-- The reply to a request reads back as the answer of the store. -/
theorem ret_storeReply {m : Mem} {q : Call} (h : m.read 0 (body q).length = body q)
    {c : StoreCall} (hc : storeCall q = some c) {r : StoreRet} (hr : r.Answers c) :
    q.ret (r.reply m) = callRet q r := by
  have hq : q ≠ .close := by
    rintro rfl
    cases hc
  obtain ⟨m', hserve, hret⟩ := serve_body (oracle r) () h hq
  rw [serve_eq, ofMem_body h, hc] at hserve
  change Turn.reply ((c.exec (oracle r) ()).1.reply m) _ = _ at hserve
  rw [exec_oracle hr] at hserve
  cases hserve
  rw [hret, exec_eq _ _ hc, exec_oracle hr]

/-! ## The server -/

/-- How far a clerk is with a request: it waits for one, has read one, or waits for the store. -/
inductive Work
  | loop
  | holding (c : StoreCall)
  | calling

/-- A connection, and what its clerk is doing. -/
structure Line where
  conn : Conn
  work : Work

/-- The connections in the order of `clerk_num_`, and the store. -/
structure Server (ω : Type) where
  lines : List Line
  store : ω

/-- A client connects; a client, or the network, moves; a clerk takes a request; a clerk
calls the store; the store moves. -/
inductive ServerLabel (ℓ : Type)
  | connect (flag : Nat) (clientMsg clerkMsg ring : Mem)
  | conn (i : Nat) (l : Label)
  | take (i : Nat)
  | call (i : Nat)
  | store (l : ℓ)

/-- The steps of a connection in which the store has no part. -/
def Conn.move (send : Send) (c : Conn) : Label → Option Conn
  | .serve => none
  | .call q => (step send (oracle .synced) (c, ()) (.call q)).map Prod.fst
  | .client => (step send (oracle .synced) (c, ()) .client).map Prod.fst
  | .toClerk => (step send (oracle .synced) (c, ()) .toClerk).map Prod.fst
  | .toClient => (step send (oracle .synced) (c, ()) .toClient).map Prod.fst
  | .leave => (step send (oracle .synced) (c, ()) .leave).map Prod.fst

/-- The clerk leaves its loop on `CLIENT_DONE` and reads the request. -/
def Line.take (x : Line) : Option Line :=
  match x.work with
  | .loop =>
      if x.conn.clerk = .running ∧ x.conn.link.clerk.header = clientDone then
        match Order.ofMem x.conn.link.clerk.msg with
        | .call c => some ⟨{ x.conn with link := x.conn.link.take }, .holding c⟩
        | .close => some ⟨{ x.conn with clerk := .closing, link := x.conn.link.take }, .loop⟩
        | .exit => some ⟨{ x.conn with clerk := .exited, link := x.conn.link.take }, .loop⟩
      else none
  | _ => none

/-- The store has answered: the clerk writes the reply and posts it. -/
def Line.answer (x : Line) (r : StoreRet) : Line :=
  ⟨{ x.conn with link := (x.conn.link.overwrite (r.reply x.conn.link.clerk.msg)).answer }, .loop⟩

namespace Server

/-- One step. The flag word a clerk starts from is not `CLIENT_DONE`. -/
def step (send : Send) (O : Object ω ℓ StoreCall StoreRet) (s : Server ω) :
    ServerLabel ℓ → Option (Server ω)
  | .connect flag clientMsg clerkMsg ring =>
      if flag = clientDone then none
      else some ⟨s.lines ++ [⟨.fresh flag clientMsg clerkMsg ring, .loop⟩], s.store⟩
  | .conn i l =>
      s.lines[i]?.bind fun x =>
        (x.conn.move send l).map fun c => ⟨s.lines.set i ⟨c, x.work⟩, s.store⟩
  | .take i => s.lines[i]?.bind fun x => x.take.map fun y => ⟨s.lines.set i y, s.store⟩
  | .call i =>
      s.lines[i]?.bind fun x =>
        match x.work with
        | .holding c =>
            (O.step s.store (O.invoke i c)).map fun o => ⟨s.lines.set i ⟨x.conn, .calling⟩, o⟩
        | _ => none
  | .store l =>
      match O.seen s.store l with
      | [] => (O.step s.store l).map fun o => ⟨s.lines, o⟩
      | [.respond i r] =>
          s.lines[i]?.bind fun x =>
            (O.step s.store l).map fun o => ⟨s.lines.set i (x.answer r), o⟩
      | _ => none

/-- What the callers of the clients see. -/
def seen (s : Server ω) : ServerLabel ℓ → List (Event Nat Call Ret)
  | .conn i (.call q) => [.invoke i q]
  | .conn i .client =>
      match s.lines[i]? with
      | some x =>
          match x.conn.client.pc with
          | .waiting q => [.respond i (q.ret x.conn.link.client.msg)]
          | _ => []
      | none => []
  | _ => []

end Server

/-- The server, from a store that nobody has called. -/
def server (send : Send) (O : Object ω ℓ StoreCall StoreRet) (o : ω) :
    TSys (Server ω) (ServerLabel ℓ) where
  init := fun s => s = ⟨[], o⟩
  step := Server.step send O

/-! ## Where a connection stands -/

/-- The clerk is at work on a call. -/
structure Serving (x : Line) (q : Call) (c : StoreCall) : Prop where
  pc : x.conn.client.pc = .waiting q
  clerk : x.conn.clerk = .running
  link : x.conn.link.Taken
  body : x.conn.link.clerk.msg.read 0 (body q).length = body q
  call : storeCall q = some c

/-- A connection, how far its clerk is with a call of the store, and how far its client is
with a call of its own. -/
inductive LineAt (place : Place) (x : Line) : Phase StoreCall StoreRet → Phase Call Ret → Prop
  | rest : x.conn.client.pc = .idle → x.conn.clerk = .running → x.conn.link.Rest →
      x.work = .loop → LineAt place x .idle .idle
  | asked {q} : (x.conn.client.pc = .ofCall q ∨ q = .close ∧ x.conn.client.pc = .closed) →
      x.conn.clerk = .running → x.conn.link.Asked (posted place x.conn.client.bufHead q) →
      x.work = .loop → LineAt place x .idle (.called q)
  | holding {q c} : Serving x q c → x.work = .holding c → LineAt place x .idle (.called q)
  | calling {q c} : Serving x q c → x.work = .calling → LineAt place x (.called c) (.called q)
  -- the call has taken effect
  | served {q c r} : Serving x q c → x.work = .calling → r.Answers c →
      LineAt place x (.answered r) (.answered (callRet q r))
  | answered {q m} : x.conn.client.pc = .waiting q → x.conn.clerk = .running →
      x.conn.link.Answered (Reply.wire m) → x.work = .loop →
      LineAt place x .idle (.answered (q.ret m))
  | closing : (x.conn.client.pc = .closing ∨ x.conn.client.pc = .closed) →
      (x.conn.clerk = .closing ∨ x.conn.clerk = .closed) → x.conn.link.Taken → x.work = .loop →
      LineAt place x .idle (.called .close)

theorem Conn.move_step {send : Send} {c c' : Conn} {l : Label} (h : c.move send l = some c') :
    Sync.step send (oracle .synced) (c, ()) l = some (c', ()) := by
  cases l with
  | serve => cases h
  | _ =>
    obtain ⟨p, hp, rfl⟩ := Option.map_eq_some_iff.mp h
    exact hp

section Moves

variable {send : Send} {place : Place} {x : Line} {c' : Conn} {p : Phase StoreCall StoreRet}
  {b : Phase Call Ret}

/-- A client calls. -/
theorem LineAt.call (hsend : Sends send place) (h : LineAt place x p b) {q : Call}
    (hstep : x.conn.move send (.call q) = some c') :
    b = .idle ∧ LineAt place ⟨c', x.work⟩ p (.called q) := by
  have hstep := Conn.move_step hstep
  simp only [Sync.step] at hstep
  split at hstep
  · rename_i hidle
    cases hstep
    cases h with
    | rest hpc hclerk hlink hwork =>
      have hlink := rest_post hlink q (place (send x.conn.client x.conn.link q).1.bufHead q)
      rw [← hsend.link] at hlink
      exact ⟨rfl, .asked (.inl (hsend.pc ..)) hclerk hlink hwork⟩
    | asked hpc _ _ _ =>
      rcases hpc with hpc | ⟨-, hpc⟩
      · exact absurd (hpc.symm.trans hidle) (ofCall_ne_idle _)
      · cases hpc.symm.trans hidle
    | holding h _ => cases h.pc.symm.trans hidle
    | calling h _ => cases h.pc.symm.trans hidle
    | served h _ _ => cases h.pc.symm.trans hidle
    | answered hpc _ _ _ => cases hpc.symm.trans hidle
    | closing hpc _ _ _ =>
      rcases hpc with hpc | hpc
      · cases hpc.symm.trans hidle
      · cases hpc.symm.trans hidle
  · cases hstep

/-- A client returns from a call, or closes. -/
theorem LineAt.client (h : LineAt place x p b) (hstep : x.conn.move send .client = some c') :
    (∃ q, x.conn.client.pc = .waiting q ∧ b = .answered (q.ret x.conn.link.client.msg) ∧
      LineAt place ⟨c', x.work⟩ p .idle) ∨
    (x.conn.client.pc = .closing ∧ LineAt place ⟨c', x.work⟩ p b) := by
  obtain ⟨⟨cl, k⟩, hres, heq⟩ := Option.map_eq_some_iff.mp (Conn.move_step hstep)
  cases heq
  obtain ⟨-, ⟨q, hpc, hflag, rfl, rfl⟩ | ⟨hpc, rfl, rfl⟩⟩ := Client.resume_inv hres
  · -- the reply is there
    refine .inl ⟨q, hpc, ?_⟩
    have hne : ¬ x.conn.link.client.header = clientDone := fun heq =>
      clerkDone_ne_clientDone (hflag.symm.trans heq)
    cases h with
    | rest _ _ hlink _ => exact absurd hlink.client_flag hne
    | asked _ _ hlink _ => exact absurd hlink.client_flag hne
    | holding h _ => exact absurd h.link.client_flag hne
    | calling h _ => exact absurd h.link.client_flag hne
    | served h _ _ => exact absurd h.link.client_flag hne
    | closing _ _ hlink _ => exact absurd hlink.client_flag hne
    | @answered q' m hpc' hclerk hlink hwork =>
      cases hpc.symm.trans hpc'
      have hread := (hlink.flag (hlink.arrived hflag)).2
      refine ⟨?_, .rest rfl hclerk (hlink.read hflag) hwork⟩
      rw [q.ret_of_wire hread]
  · -- it closes
    refine .inr ⟨hpc, ?_⟩
    cases h with
    | rest hpc' _ _ _ => cases hpc.symm.trans hpc'
    | @asked q hpc' hclerk hlink hwork =>
      have hclose : q = .close := by
        rcases hpc' with hpc' | ⟨hclose, -⟩
        · exact ofCall_closing (hpc'.symm.trans hpc)
        · exact hclose
      exact .asked (.inr ⟨hclose, rfl⟩) hclerk hlink hwork
    | holding h _ => cases hpc.symm.trans h.pc
    | calling h _ => cases hpc.symm.trans h.pc
    | served h _ _ => cases hpc.symm.trans h.pc
    | answered hpc' _ _ _ => cases hpc.symm.trans hpc'
    | closing _ hclerk hlink hwork => exact .closing (.inr rfl) hclerk hlink hwork

/-- A write reaches the clerk. -/
theorem LineAt.toClerk (h : LineAt place x p b) (hstep : x.conn.move send .toClerk = some c') :
    LineAt place ⟨c', x.work⟩ p b := by
  obtain ⟨k, hk, heq⟩ := Option.map_eq_some_iff.mp (Conn.move_step hstep)
  cases heq
  obtain ⟨w, ws, hq, -⟩ := Link.deliverClerk_inv hk
  cases h with
  | rest _ _ hlink _ => cases hlink.toClerk.symm.trans hq
  | asked hpc hclerk hlink hwork => exact .asked hpc hclerk (hlink.deliver hk) hwork
  | holding h _ => cases h.link.toClerk.symm.trans hq
  | calling h _ => cases h.link.toClerk.symm.trans hq
  | served h _ _ => cases h.link.toClerk.symm.trans hq
  | answered _ _ hlink _ => cases hlink.toClerk.symm.trans hq
  | closing _ _ hlink _ => cases hlink.toClerk.symm.trans hq

/-- A write reaches the client. -/
theorem LineAt.toClient (h : LineAt place x p b) (hstep : x.conn.move send .toClient = some c') :
    LineAt place ⟨c', x.work⟩ p b := by
  obtain ⟨k, hk, heq⟩ := Option.map_eq_some_iff.mp (Conn.move_step hstep)
  cases heq
  obtain ⟨w, ws, hq, -⟩ := Link.deliverClient_inv hk
  cases h with
  | rest _ _ hlink _ => cases hlink.toClient.symm.trans hq
  | asked _ _ hlink _ => cases hlink.toClient.symm.trans hq
  | holding h _ => cases h.link.toClient.symm.trans hq
  | calling h _ => cases h.link.toClient.symm.trans hq
  | served h _ _ => cases h.link.toClient.symm.trans hq
  | answered hpc hclerk hlink hwork => exact .answered hpc hclerk (hlink.deliver hk) hwork
  | closing _ _ hlink _ => cases hlink.toClient.symm.trans hq

/-- A clerk leaves. -/
theorem LineAt.leave (h : LineAt place x p b) (hstep : x.conn.move send .leave = some c') :
    LineAt place ⟨c', x.work⟩ p b := by
  have hstep := Conn.move_step hstep
  simp only [Sync.step] at hstep
  split at hstep
  · rename_i hclosing hclosed
    cases hstep
    cases h with
    | rest _ hclerk _ _ => cases hclerk.symm.trans hclosing
    | asked _ hclerk _ _ => cases hclerk.symm.trans hclosing
    | holding h _ => cases h.clerk.symm.trans hclosing
    | calling h _ => cases h.clerk.symm.trans hclosing
    | served h _ _ => cases h.clerk.symm.trans hclosing
    | answered _ hclerk _ _ => cases hclerk.symm.trans hclosing
    | closing hpc _ hlink hwork => exact .closing hpc (.inr rfl) hlink hwork
  · cases hstep

/-- A clerk takes a request. -/
theorem LineAt.take (h : LineAt place x p b) {y : Line} (hstep : x.take = some y) :
    LineAt place y p b := by
  unfold Line.take at hstep
  split at hstep
  · split at hstep
    · rename_i hwork hg
      obtain ⟨-, hflag⟩ := hg
      cases h with
      | rest _ _ hlink _ => exact absurd hflag hlink.clerk_flag
      | @asked q hpc hclerk hlink _ =>
        have hbody := (hlink.complete (hlink.arrived hflag)).body
        have htaken := hlink.take hflag
        have hbody : x.conn.link.clerk.msg.read 0 (Sync.body q).length = Sync.body q := hbody
        rw [ofMem_body hbody] at hstep
        cases hc : storeCall q with
        | none =>
          rw [hc] at hstep
          cases hstep
          have hclose : q = .close := by
            cases q with
            | close => rfl
            | _ => cases hc
          subst hclose
          refine .closing ?_ (.inl rfl) htaken rfl
          rcases hpc with hpc | ⟨-, hpc⟩
          · exact .inl hpc
          · exact .inr hpc
        | some c =>
          rw [hc] at hstep
          cases hstep
          have hq : q ≠ .close := by
            rintro rfl
            cases hc
          have hpc : x.conn.client.pc = .waiting q := by
            rcases hpc with hpc | ⟨hclose, -⟩
            · rw [hpc, ofCall_of_ne hq]
            · exact absurd hclose hq
          exact .holding ⟨hpc, hclerk, htaken, hbody, hc⟩ rfl
      | holding _ hw => cases hw.symm.trans hwork
      | calling _ hw => cases hw.symm.trans hwork
      | served _ hw _ => cases hw.symm.trans hwork
      | answered _ _ hlink _ =>
        exact absurd (hlink.clerk_flag.symm.trans hflag) clerkDone_ne_clientDone
      | closing _ _ hlink _ =>
        exact absurd (hlink.clerk_flag.symm.trans hflag) clerkDone_ne_clientDone
    · cases hstep
  · cases hstep

/-- The clerk calls the store. -/
theorem LineAt.invoke {c : StoreCall} (h : LineAt place x p b) (hwork : x.work = .holding c) :
    LineAt place ⟨x.conn, .calling⟩ (.called c) b := by
  cases h with
  | holding h hw =>
    cases hw.symm.trans hwork
    exact .calling ⟨h.pc, h.clerk, h.link, h.body, h.call⟩ rfl
  | rest _ _ _ hw => cases hw.symm.trans hwork
  | asked _ _ _ hw => cases hw.symm.trans hwork
  | calling _ hw => cases hw.symm.trans hwork
  | served _ hw _ => cases hw.symm.trans hwork
  | answered _ _ _ hw => cases hw.symm.trans hwork
  | closing _ _ _ hw => cases hw.symm.trans hwork

/-- What a clerk is about to call the store for is what its client has asked for. -/
theorem LineAt.holds {c : StoreCall} (h : LineAt place x p b) (hwork : x.work = .holding c) :
    ∃ q, storeCall q = some c := by
  cases h with
  | @holding q _ h hw =>
    cases hw.symm.trans hwork
    exact ⟨q, h.call⟩
  | rest _ _ _ hw => cases hw.symm.trans hwork
  | asked _ _ _ hw => cases hw.symm.trans hwork
  | calling _ hw => cases hw.symm.trans hwork
  | served _ hw _ => cases hw.symm.trans hwork
  | answered _ _ _ hw => cases hw.symm.trans hwork
  | closing _ _ _ hw => cases hw.symm.trans hwork

/-- The store has answered. -/
theorem LineAt.respond {r : StoreRet} (h : LineAt place x (.answered r) b) :
    LineAt place (x.answer r) .idle b := by
  cases h with
  | served h hw hr =>
    have htaken := h.link.overwrite (r.reply x.conn.link.clerk.msg)
    rw [← ret_storeReply h.body h.call hr]
    exact .answered h.pc h.clerk htaken.answer rfl

end Moves

/-! ## The server and its store -/

/-- What a call of a client does, if calls of the store do what `eff` says. -/
def CallEffect (eff : StoreCall → μ → StoreRet → μ → Prop) (q : Call) (m : μ) (r : Ret) (m' : μ) :
    Prop :=
  ∃ c sr, storeCall q = some c ∧ eff c m sr m' ∧ r = callRet q sr

/-- A connection that may not be there yet. -/
def LineOpt (place : Place) :
    Option Line → Phase StoreCall StoreRet → Phase Call Ret → Prop
  | some x, p, b => LineAt place x p b
  | none, p, b => p = .idle ∧ b = .idle

/-- The server, the atomic store that its clerks call, and the atomic store that the clients
see. -/
structure ServerFollows (place : Place) (R : ω → State Nat StoreCall StoreRet μ → Prop)
    (s : Server ω) (a : State Nat StoreCall StoreRet μ) (b : State Nat Call Ret μ) : Prop where
  store : R s.store a
  obj : b.obj = a.obj
  lines : ∀ i, LineOpt place s.lines[i]? (a.phase i) (b.phase i)

section Steps

variable {send : Send} {place : Place} {O : Object ω ℓ StoreCall StoreRet}
  {ok : StoreCall → Prop} {eff : StoreCall → μ → StoreRet → μ → Prop}
  {R : ω → State Nat StoreCall StoreRet μ → Prop} {s s' : Server ω}
  {a a' : State Nat StoreCall StoreRet μ} {b b' : State Nat Call Ret μ}
  {i : Nat} {x y : Line} {o : ω}

theorem ServerFollows.line (h : ServerFollows place R s a b) (hx : s.lines[i]? = some x) :
    LineAt place x (a.phase i) (b.phase i) := by
  have hi := h.lines i
  rw [hx] at hi
  exact hi

/-- One connection changes, and the store. -/
theorem ServerFollows.set (h : ServerFollows place R s a b) (hx : s.lines[i]? = some x)
    (hstore : R o a') (hobj : b'.obj = a'.obj) (ha : ∀ j, j ≠ i → a'.phase j = a.phase j)
    (hb : ∀ j, j ≠ i → b'.phase j = b.phase j) (hline : LineAt place y (a'.phase i) (b'.phase i)) :
    ServerFollows place R ⟨s.lines.set i y, o⟩ a' b' := by
  refine ⟨hstore, hobj, fun j => ?_⟩
  dsimp only
  by_cases hj : j = i
  · subst hj
    rw [List.getElem?_set_self (List.getElem?_eq_some_iff.mp hx).1]
    exact hline
  · rw [List.getElem?_set_ne (Ne.symm hj), ha j hj, hb j hj]
    exact h.lines j

/-- A step that the clients do not see and in which nothing happens to the store. -/
theorem ServerFollows.quiet (h : ServerFollows place R s a b) (hx : s.lines[i]? = some x)
    (hline : LineAt place y (a.phase i) (b.phase i)) :
    ServerFollows place R ⟨s.lines.set i y, s.store⟩ a b :=
  h.set hx h.store h.obj (fun _ _ => rfl) (fun _ _ => rfl) hline

/-- A client connects. -/
theorem ServerFollows.connect (h : ServerFollows place R s a b) {flag : Nat}
    (hflag : flag ≠ clientDone) (clientMsg clerkMsg ring : Mem) :
    ServerFollows place R ⟨s.lines ++ [⟨.fresh flag clientMsg clerkMsg ring, .loop⟩], s.store⟩
      a b := by
  refine ⟨h.store, h.obj, fun j => ?_⟩
  dsimp only
  have hj := h.lines j
  rcases Nat.lt_trichotomy j s.lines.length with hlt | heq | hgt
  · rwa [List.getElem?_append_left hlt]
  · rw [List.getElem?_eq_none (Nat.le_of_eq heq.symm)] at hj
    subst heq
    rw [List.getElem?_concat_length, hj.1, hj.2]
    exact .rest rfl rfl ⟨rfl, rfl, rfl, hflag⟩ rfl
  · rw [List.getElem?_eq_none (Nat.le_of_lt hgt)] at hj
    rw [List.getElem?_eq_none]
    · exact hj
    · rw [List.length_append]
      exact hgt

/-- A client or the network moves. -/
theorem ServerFollows.conn (hsend : Sends send place) (h : ServerFollows place R s a b) {l : Label}
    (hstep : s.step send O (.conn i l) = some s') :
    ∃ b', Step (CallEffect eff) b (s.seen (.conn i l : ServerLabel ℓ)) b' ∧
      ServerFollows place R s' a b' := by
  obtain ⟨x, hx, hstep⟩ := Option.bind_eq_some_iff.mp hstep
  obtain ⟨c, hmove, rfl⟩ := Option.map_eq_some_iff.mp hstep
  have hline := h.line hx
  cases l with
  | serve => cases hmove
  | call q =>
    obtain ⟨hidle, hcalled⟩ := hline.call hsend hmove
    refine ⟨_, .invoke q hidle, h.set hx h.store h.obj (fun _ _ => rfl)
      (fun _ hj => Function.update_of_ne hj ..) ?_⟩
    dsimp only
    rw [Function.update_self]
    exact hcalled
  | client =>
    rcases hline.client hmove with ⟨q, hpc, hanswered, hidle⟩ | ⟨hpc, hsame⟩
    · have hseen : s.seen (.conn i .client : ServerLabel ℓ) =
          [.respond i (q.ret x.conn.link.client.msg)] := by
        rw [Server.seen, hx]
        dsimp only
        rw [hpc]
      rw [hseen]
      refine ⟨_, .respond hanswered, h.set hx h.store h.obj (fun _ _ => rfl)
        (fun _ hj => Function.update_of_ne hj ..) ?_⟩
      dsimp only
      rw [Function.update_self]
      exact hidle
    · have hseen : s.seen (.conn i .client : ServerLabel ℓ) = [] := by
        rw [Server.seen, hx]
        dsimp only
        rw [hpc]
      rw [hseen]
      exact ⟨b, .stay b, h.quiet hx hsame⟩
  | toClerk => exact ⟨b, .stay b, h.quiet hx (hline.toClerk hmove)⟩
  | toClient => exact ⟨b, .stay b, h.quiet hx (hline.toClient hmove)⟩
  | leave => exact ⟨b, .stay b, h.quiet hx (hline.leave hmove)⟩

/-- A clerk calls the store. -/
theorem ServerFollows.call (hlinear : O.Linear ok eff R) (hok : ∀ q c, storeCall q = some c → ok c)
    (h : ServerFollows place R s a b)
    (hstep : s.step send O (.call i) = some s') : ∃ a', ServerFollows place R s' a' b := by
  obtain ⟨x, hx, hstep⟩ := Option.bind_eq_some_iff.mp hstep
  cases hwork : x.work with
  | holding c =>
    rw [hwork] at hstep
    obtain ⟨o, ho, rfl⟩ := Option.map_eq_some_iff.mp hstep
    have hcall : ∀ j c', O.seen s.store (O.invoke i c) = [.invoke j c'] → ok c' := by
      intro j c' hseen
      rw [hlinear.invoke] at hseen
      cases hseen
      obtain ⟨q, hq⟩ := (h.line hx).holds hwork
      exact hok q c hq
    obtain ⟨a', hone, hR⟩ := hlinear.step _ _ _ _ h.store hcall ho
    rw [hlinear.invoke] at hone
    cases hone with
    | invoke _ _ =>
      refine ⟨_, h.set hx hR h.obj (fun _ hj => Function.update_of_ne hj ..) (fun _ _ => rfl) ?_⟩
      dsimp only
      rw [Function.update_self]
      exact (h.line hx).invoke hwork
  | loop =>
    rw [hwork] at hstep
    cases hstep
  | calling =>
    rw [hwork] at hstep
    cases hstep

/-- A call of the store takes effect, and with it the call of the client. -/
theorem ServerFollows.effect (hans : ∀ c m r m', eff c m r m' → r.Answers c)
    (h : ServerFollows place R s a b) {c : StoreCall} {r : StoreRet} {m' : μ}
    (hcalled : a.phase i = .called c) (heff : eff c a.obj r m')
    (hR : R o ⟨m', Function.update a.phase i (.answered r)⟩) :
    ∃ b', Step (CallEffect eff) b [] b' ∧ ServerFollows place R ⟨s.lines, o⟩
      ⟨m', Function.update a.phase i (.answered r)⟩ b' := by
  have hi := h.lines i
  cases hx : s.lines[i]? with
  | none =>
    rw [hx, hcalled] at hi
    cases hi.1
  | some x =>
    rw [hx, hcalled] at hi
    cases hq : b.phase i with
    | idle =>
      rw [hq] at hi
      cases hi
    | answered r =>
      rw [hq] at hi
      cases hi
    | called q =>
      rw [hq] at hi
      cases hi with
      | calling hserving hwork =>
        refine ⟨⟨m', Function.update b.phase i (.answered (callRet q r))⟩, .effect hq ?_, ?_⟩
        · rw [h.obj]
          exact ⟨c, r, hserving.call, heff, rfl⟩
        · refine ⟨hR, rfl, fun j => ?_⟩
          dsimp only
          by_cases hj : j = i
          · subst hj
            rw [Function.update_self, Function.update_self, hx]
            exact .served hserving hwork (hans _ _ _ _ heff)
          · rw [Function.update_of_ne hj, Function.update_of_ne hj]
            exact h.lines j

/-- A step of which something else is seen is no call. -/
theorem no_call {w : ω} {l : ℓ} {es : List (Event Nat StoreCall StoreRet)} (hseen : O.seen w l = es)
    (hes : ∀ i c, es ≠ [.invoke i c]) : ∀ i c, O.seen w l = [.invoke i c] → ok c := by
  intro i c heq
  exact absurd (hseen.symm.trans heq) (hes i c)

/-- The store makes a step. -/
theorem ServerFollows.store_step (hlinear : O.Linear ok eff R)
    (hans : ∀ c m r m', eff c m r m' → r.Answers c) (h : ServerFollows place R s a b) {l : ℓ}
    (hstep : s.step send O (.store l) = some s') :
    ∃ a' b', Step (CallEffect eff) b [] b' ∧ ServerFollows place R s' a' b' := by
  unfold Server.step at hstep
  dsimp only at hstep
  split at hstep
  · rename_i hseen
    obtain ⟨o, ho, rfl⟩ := Option.map_eq_some_iff.mp hstep
    obtain ⟨a', hone, hR⟩ := hlinear.step _ _ _ _ h.store (no_call hseen (by simp)) ho
    rw [hseen] at hone
    cases hone with
    | stay => exact ⟨a, b, .stay b, hR, h.obj, h.lines⟩
    | effect hcalled heff =>
      obtain ⟨b', hone, h'⟩ := h.effect hans hcalled heff hR
      exact ⟨_, b', hone, h'⟩
  · rename_i i r hseen
    obtain ⟨x, hx, hstep⟩ := Option.bind_eq_some_iff.mp hstep
    obtain ⟨o, ho, rfl⟩ := Option.map_eq_some_iff.mp hstep
    obtain ⟨a', hone, hR⟩ := hlinear.step _ _ _ _ h.store (no_call hseen (by simp)) ho
    rw [hseen] at hone
    cases hone with
    | respond hanswered =>
      have hline := h.line hx
      rw [hanswered] at hline
      refine ⟨_, b, .stay b, h.set hx hR h.obj (fun _ hj => Function.update_of_ne hj ..)
        (fun _ _ => rfl) ?_⟩
      dsimp only
      rw [Function.update_self]
      exact hline.respond
  · cases hstep

theorem ServerFollows.step (hsend : Sends send place) (hlinear : O.Linear ok eff R)
    (hok : ∀ q c, storeCall q = some c → ok c)
    (hans : ∀ c m r m', eff c m r m' → r.Answers c) (h : ServerFollows place R s a b)
    {l : ServerLabel ℓ} (hstep : s.step send O l = some s') :
    ∃ a' b', Step (CallEffect eff) b (s.seen l) b' ∧ ServerFollows place R s' a' b' := by
  cases l with
  | connect flag clientMsg clerkMsg ring =>
    unfold Server.step at hstep
    dsimp only at hstep
    split at hstep
    · cases hstep
    · rename_i hflag
      cases hstep
      exact ⟨a, b, .stay b, h.connect hflag _ _ _⟩
  | conn i l =>
    have hconn : ∃ b', Step (CallEffect eff) b (s.seen (.conn i l : ServerLabel ℓ)) b' ∧
        ServerFollows place R s' a b' := h.conn hsend hstep
    obtain ⟨b', hone, h'⟩ := hconn
    exact ⟨a, b', hone, h'⟩
  | take i =>
    obtain ⟨x, hx, hstep⟩ := Option.bind_eq_some_iff.mp hstep
    obtain ⟨y, hy, rfl⟩ := Option.map_eq_some_iff.mp hstep
    exact ⟨a, b, .stay b, h.quiet hx ((h.line hx).take hy)⟩
  | call i =>
    obtain ⟨a', h'⟩ := h.call hlinear hok hstep
    exact ⟨a', b, .stay b, h'⟩
  | store l => exact h.store_step hlinear hans hstep

/-- Every run of the server is followed by the atomic store that the clients see. -/
theorem server_linear (hsend : Sends send place) (hlinear : O.Linear ok eff R)
    (hok : ∀ q c, storeCall q = some c → ok c)
    (hans : ∀ c m r m', eff c m r m' → r.Answers c) {m : μ} (h₀ : R o (.start m))
    {tr : List (Server ω × ServerLabel ℓ)} (hrun : (server send O o).Run ⟨[], o⟩ tr s) :
    ∃ a b, Steps (CallEffect eff) (.start m) (seenOf Server.seen tr) b ∧
      ServerFollows place R s a b := by
  have hstart : ServerFollows place R (⟨[], o⟩ : Server ω) (.start m) (.start m) :=
    ⟨h₀, rfl, fun _ => ⟨rfl, rfl⟩⟩
  have hstep : ∀ (s : Server ω) (l : ServerLabel ℓ) (s' : Server ω) (b : State Nat Call Ret μ),
      (∃ a, ServerFollows place R s a b) → True → (server send O o).step s l = some s' →
      ∃ b', Step (CallEffect eff) b (s.seen l) b' ∧ ∃ a, ServerFollows place R s' a b' := by
    rintro s l s' b ⟨a, h⟩ - hstep
    obtain ⟨a', b', hone, h'⟩ := h.step hsend hlinear hok hans hstep
    exact ⟨b', hone, a', h'⟩
  obtain ⟨b, hsteps, a, h⟩ := follows (fun _ _ => True) hstep hrun (fun _ _ => trivial) ⟨_, hstart⟩
  exact ⟨a, b, hsteps, h⟩

end Steps

/-! ## A store with atomic calls -/

/-- `SyncServer` or `PMemServer`. -/
inductive Front
  | sync
  | pmem

/-- Its clients. -/
def Front.send : Front → Send
  | .sync => SyncClient.send
  | .pmem => PMemClient.send

theorem Front.sends (front : Front) : ∃ place, Sends front.send place := by
  cases front with
  | sync => exact ⟨_, syncClient_sends⟩
  | pmem => exact ⟨_, pmemClient_sends⟩

theorem exec_answers (B : DBType σ) (db : σ) (c : StoreCall) : (c.exec B db).1.Answers c := by
  cases c <;> exact trivial

/-- A call of a client on a store with atomic calls. -/
theorem callEffect_exec {B : DBType σ} {q : Call} {db db' : σ} {r : Ret}
    (h : CallEffect (fun c db r db' => (r, db') = c.exec B db) q db r db') :
    q ≠ .close ∧ (r, db') = exec B db q := by
  obtain ⟨c, sr, hc, heff, rfl⟩ := h
  refine ⟨?_, ?_⟩
  · rintro rfl
    cases hc
  · rw [exec_eq B db hc, ← heff]

/-- **Any number of clients.** Every run of `SyncServer` or `PMemServer` on a store whose calls
are atomic is, to the callers of the clients, one of the store itself: each call is made on
the store at one moment between its start and its return, and returns what the store says. -/
theorem clients_linearizable (front : Front) (B : DBType σ) (db : σ)
    {tr : List (Server (State Nat StoreCall StoreRet σ) × ServerLabel (Tick StoreCall))}
    {s : Server (State Nat StoreCall StoreRet σ)}
    (hrun : (server front.send (atomic fun db c => c.exec B db) (.start db)).Run
      ⟨[], .start db⟩ tr s) :
    ∃ b, Steps (fun q db r db' => q ≠ .close ∧ (r, db') = exec B db q) (.start db)
        (seenOf Server.seen tr) b ∧ b.obj = s.store.obj := by
  obtain ⟨place, hsend⟩ := front.sends
  have hans : ∀ (c : StoreCall) (m : σ) (r : StoreRet) (m' : σ), (r, m') = c.exec B m →
      r.Answers c := by
    intro c m r m' h
    have hr : r = (c.exec B m).1 := congrArg Prod.fst h
    rw [hr]
    exact exec_answers B m c
  obtain ⟨a, b, hsteps, h⟩ := server_linear hsend (atomic_linear _) (fun _ _ _ => trivial) hans rfl
    hrun
  refine ⟨b, hsteps.mono fun _ _ _ _ heff => callEffect_exec heff, ?_⟩
  rw [h.obj, ← h.store]

theorem put_isWrite : Operation.put = .put ∨ Operation.put = .update := .inl rfl

theorem one_cstr : (0 : UInt8) ∉ [1] := by decide

theorem two_cstr : (0 : UInt8) ∉ [2] := by decide

theorem one_fits : sizeofRequest + 1 ≤ maxRequest := by decide

theorem two_fits : sizeofRequest + 1 + 1 ≤ maxRequest := by decide

/-- A pair to store, and its key. -/
def smallRecord : Record := ⟨.put, [1], [2], put_isWrite, one_cstr, two_cstr, two_fits⟩

@[inherit_doc smallRecord]
def smallKey : Key := ⟨[1], one_cstr, one_fits⟩

theorem twos_cstr (n : Nat) : (0 : UInt8) ∉ List.replicate n 2 := by
  intro h
  exact absurd (List.eq_of_mem_replicate h) (by decide)

theorem twos_fit {n : Nat} (hn : n ≤ 8183) :
    sizeofRequest + [(1 : UInt8)].length + (List.replicate n (2 : UInt8)).length ≤ maxRequest := by
  rw [List.length_replicate, List.length_singleton, sizeofRequest, maxRequest]
  omega

/-- A pair with a value of `n` bytes. -/
def largeRecord (n : Nat) (hn : n ≤ 8183) : Record :=
  ⟨.put, [1], List.replicate n 2, put_isWrite, one_cstr, twos_cstr n, twos_fit hn⟩

/-- A client connects, with whatever bytes `m` its buffers hold, and calls, and its clerk reads
the request. -/
theorem first_call_taken (O : Object ω ℓ StoreCall StoreRet) (o : ω) (m : Mem) {q : Call}
    {c : StoreCall} (hc : storeCall q = some c) :
    ∃ tr x, (server Front.sync.send O o).Run ⟨[], o⟩ tr ⟨[⟨x, .holding c⟩], o⟩ := by
  obtain ⟨tr, x, htr, hclerk, hflag, hmsg⟩ : ∃ tr x, (server Front.sync.send O o).trace ⟨[], o⟩
      [.connect 0 m m m, .conn 0 (.call q), .conn 0 .toClerk, .conn 0 .toClerk] =
        some (tr, ⟨[⟨x, .loop⟩], o⟩) ∧
      x.clerk = .running ∧ x.link.clerk.header = clientDone ∧
      x.link.clerk.msg = m.write 0 ((prepare m q).read 0 (bodyLen q)) :=
    ⟨_, _, rfl, rfl, rfl, rfl⟩
  have horder : Order.ofMem x.link.clerk.msg = .call c := by
    rw [hmsg, read_prepare, ofMem_body (Mem.read_write m 0 (body q)), hc]
    rfl
  have htake : Line.take ⟨x, .loop⟩ = some ⟨{ x with link := x.link.take }, .holding c⟩ := by
    simp only [Line.take, hclerk, hflag, horder, and_self, if_true]
  have hstep : (server Front.sync.send O o).step ⟨[⟨x, .loop⟩], o⟩ (.take 0) =
      some ⟨[⟨{ x with link := x.link.take }, .holding c⟩], o⟩ := by
    show (Line.take ⟨x, .loop⟩).map _ = _
    rw [htake]
    rfl
  exact ⟨_, _, (TSys.run_of_trace htr).snoc hstep⟩

/-- The store goes on by itself, and the connections stay as they are. -/
theorem store_goes_on {send : Send} {O : Object ω ℓ StoreCall StoreRet} {o w w' : ω}
    {lines : List Line} {ls : List ℓ} (hseen : ∀ l ∈ ls, ∀ w, O.seen w l = [])
    (h : ls.foldlM O.step w = some w') :
    ∃ tr, (server send O o).Run ⟨lines, w⟩ tr ⟨lines, w'⟩ := by
  induction ls generalizing w with
  | nil =>
    obtain rfl : w = w' := Option.some.inj h
    exact ⟨[], .nil⟩
  | cons l ls ih =>
    rw [List.foldlM_cons] at h
    obtain ⟨w₁, hstep, hrest⟩ := Option.bind_eq_some_iff.mp h
    obtain ⟨tr, hrun⟩ := ih (fun l hl => hseen l (List.mem_cons_of_mem _ hl)) hrest
    have hfirst : (server send O o).step ⟨lines, w⟩ (.store l) = some ⟨lines, w₁⟩ := by
      simp only [server, Server.step, hseen l List.mem_cons_self, hstep, Option.map_some]
    exact ⟨_, (TSys.Run.nil.snoc hfirst).trans hrun⟩

/-- What client `i` and its clerk do from a call to its return, with the store called in between. -/
def callSchedule (i : Nat) (q : Call) : List (ServerLabel (Tick StoreCall)) :=
  [.conn i (.call q), .conn i .toClerk, .conn i .toClerk, .take i, .call i, .store (.effect i),
    .store (.respond i), .conn i .toClient, .conn i .toClient, .conn i .client]

/-- One client stores a pair, and another one gets it. -/
theorem clients_linearizable_two :
    ∃ tr s, (server Front.sync.send (atomic fun db c => c.exec DB.dbType db)
        (.start fun _ => none)).Run ⟨[], .start fun _ => none⟩ tr s ∧
      seenOf Server.seen tr = [.invoke 0 (.write smallRecord), .respond 0 .done,
        .invoke 1 (.get smallKey), .respond 1 (.value (some [2]))] ∧
      ∃ b, Steps (fun q db r db' => q ≠ .close ∧ (r, db') = exec DB.dbType db q)
        (.start fun _ => none) (seenOf Server.seen tr) b ∧ b.obj = s.store.obj := by
  obtain ⟨tr, s, htr, hseen⟩ : ∃ tr s, (server Front.sync.send
      (atomic fun db c => c.exec DB.dbType db) (.start fun _ => none)).trace
        ⟨[], .start fun _ => none⟩
        ([.connect 0 (fun _ => 0) (fun _ => 0) (fun _ => 0),
          .connect 0 (fun _ => 0) (fun _ => 0) (fun _ => 0)] ++
          callSchedule 0 (.write smallRecord) ++ callSchedule 1 (.get smallKey)) = some (tr, s) ∧
      seenOf Server.seen tr = [.invoke 0 (.write smallRecord), .respond 0 .done,
        .invoke 1 (.get smallKey), .respond 1 (.value (some [2]))] := ⟨_, _, rfl, rfl⟩
  have hrun := TSys.run_of_trace htr
  exact ⟨tr, s, hrun, hseen, clients_linearizable .sync DB.dbType _ hrun⟩

end LogDirect.Sync
