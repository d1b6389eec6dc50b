import LogDirect.Sync.Clerk

/-!
# Sync and persistent-memory front ends: the handshake

A run of one connection goes through rounds: the call asked is the request taken,
whole, and the reply given is the reply read. Between rounds the results of the
calls and the store are those of calls made one after the other (`runCalls`).
-/

namespace LogDirect.Sync

open Lib Exchange

variable {σ : Type}

/-! ## Calls one after the other -/

/-- Calls one after the other, each by `f`. -/
def runCalls (f : σ → Call → Ret × σ) (db : σ) (qs : List Call) : List Ret × σ :=
  qs.foldl (fun p q => (p.1 ++ [(f p.2 q).1], (f p.2 q).2)) ([], db)

theorem runCalls_snoc (f : σ → Call → Ret × σ) (db : σ) (qs : List Call) (q : Call) :
    runCalls f db (qs ++ [q]) = ((runCalls f db qs).1 ++ [(f (runCalls f db qs).2 q).1],
      (f (runCalls f db qs).2 q).2) := by
  simp [runCalls]

/-- The calls that returned, their results and the store are those of `f`. -/
structure Done (f : σ → Call → Ret × σ) (db₀ : σ) (qs : List Call) (history : List (Call × Ret))
    (db : σ) : Prop where
  calls : history.map Prod.fst = qs
  runs : runCalls f db₀ qs = (history.map Prod.snd, db)

/-- One more call has returned. -/
theorem Done.snoc {f : σ → Call → Ret × σ} {db₀ db : σ} {qs : List Call}
    {history : List (Call × Ret)} (h : Done f db₀ qs history db) {q : Call} {ret : Ret} {db' : σ}
    (hq : f db q = (ret, db')) : Done f db₀ (qs ++ [q]) (history ++ [(q, ret)]) db' := by
  refine ⟨by rw [List.map_append, h.calls]; rfl, ?_⟩
  rw [runCalls_snoc, h.runs, List.map_append, hq]
  rfl

/-- What is left of a value in a reply, whose size field has 32 bits. -/
def clip (v : Bytes) : Bytes := v.take (v.length % 2 ^ 32)

/-- A call on the store. -/
def exec (B : DBType σ) (db : σ) : Call → Ret × σ
  | .write r => (.done, (B.put db r.key r.val).2)
  | .get k => (.value ((B.get db k.bytes).1.map clip), (B.get db k.bytes).2)
  | .sync => (.done, B.setSync db)
  | .delete k => (.deleted (B.delete db k.bytes).1, (B.delete db k.bytes).2)
  | .close => (.done, db)

/-- A reply reads back as written. -/
theorem ret_reply (m : Mem) (st : RequestStatus) (v : Bytes) :
    Reply.isOk (reply m st v.length (clip v)) = decide (st = .ok) ∧
      (reply m st v.length (clip v)).read sizeofReply
        (Reply.valSize (reply m st v.length (clip v))) = clip v := by
  have hlen : (clip v).length = v.length % 2 ^ 32 := by
    rw [clip, List.length_take]
    exact Nat.min_eq_left (Nat.mod_le _ _)
  have hsize : leBytes 4 v.length = leBytes 4 (clip v).length := by
    rw [hlen]
    exact (leBytes_mod 4 v.length).symm
  have henc : Reply.encode st v.length (clip v) = Reply.encode st (clip v).length (clip v) := by
    rw [Reply.encode, hsize, Reply.encode]
  obtain ⟨hok, hsize, hval⟩ := Reply.fields_of_write m st (n := (clip v).length) rfl (by
    rw [hlen]
    exact Nat.mod_lt _ (by decide))
  rw [reply, henc]
  exact ⟨hok, by rw [hsize, hval]⟩

/-- What the clerk makes of a request that is there whole. -/
theorem serve_body (B : DBType σ) (db : σ) {m : Mem} {q : Call}
    (h : m.read 0 (body q).length = body q) (hq : q ≠ .close) : ∃ m',
    serve B db m = .reply m' (exec B db q).2 ∧ q.ret m' = (exec B db q).1 := by
  have hseen := Seen.ofMem_body h
  cases q with
  | write r =>
    obtain ⟨hop, hkey, hval⟩ := Seen.mk.inj hseen
    have hserve : serve B db m = servePut B db m := by
      unfold serve
      rw [hop]
      rcases r.isWrite with h' | h' <;> rw [h']
    rw [hserve, servePut, hkey, requestVal, hval]
    exact ⟨_, rfl, rfl⟩
  | get k =>
    obtain ⟨hop, hkey, -⟩ := Seen.mk.inj hseen
    have hserve : serve B db m = serveGet B db m := by
      unfold serve
      rw [hop]
    rw [hserve, serveGet, hkey, exec]
    obtain ⟨v, db'⟩ := B.get db k.bytes
    cases v with
    | none =>
      refine ⟨_, rfl, ?_⟩
      have hok := (ret_reply m .notFound []).1
      exact congrArg Ret.value (if_neg (by rw [show reply m .notFound 0 [] =
        reply m .notFound [].length (clip []) from rfl, hok]; decide))
    | some v =>
      obtain ⟨hok, hval⟩ := ret_reply m .ok v
      refine ⟨_, rfl, congrArg Ret.value ?_⟩
      rw [if_pos (by rw [show v.take (v.length % 2 ^ 32) = clip v from rfl, hok]; rfl)]
      exact congrArg some hval
  | sync =>
    obtain ⟨hop, -⟩ := Seen.mk.inj hseen
    refine ⟨m, ?_, rfl⟩
    unfold serve
    rw [hop]
    rfl
  | delete k =>
    obtain ⟨hop, hkey, -⟩ := Seen.mk.inj hseen
    have hserve : serve B db m = serveDelete B db m := by
      unfold serve
      rw [hop]
    rw [hserve, serveDelete, hkey, exec]
    obtain ⟨found, db'⟩ := B.delete db k.bytes
    refine ⟨_, rfl, congrArg Ret.deleted ?_⟩
    have hok := (ret_reply m (if found then .ok else .notFound) []).1
    refine hok.trans ?_
    cases found <;> rfl
  | close => exact absurd rfl hq

theorem serve_close (B : DBType σ) (db : σ) {m : Mem}
    (h : m.read 0 (body .close).length = body .close) : serve B db m = .close := by
  obtain ⟨hop, -⟩ := Seen.mk.inj (Seen.ofMem_body h)
  unfold serve
  rw [hop]

/-! ## Phases of a connection -/

/-- Where a client with this `buf_head_` has put the record of the call it waits in. -/
abbrev Place := Nat → Call → Option Nat

/-- What the handshake needs of a client: it posts the request, with the record at its
place, and waits. -/
structure Sends (send : Send) (place : Place) : Prop where
  link : ∀ c k q, (send c k q).2 = post k q (place (send c k q).1.bufHead q)
  pc : ∀ c k q, (send c k q).1.pc = .ofCall q
  history : ∀ c k q, (send c k q).1.history = c.history

/-- No ring. -/
def noPlace : Place := fun _ _ => none

theorem syncClient_sends : Sends SyncClient.send noPlace :=
  ⟨fun _ _ _ => rfl, fun _ _ _ => rfl, fun _ _ _ => rfl⟩

/-- The record of a write lies in front of `buf_head_`. -/
def pmemPlace : Place := fun head q =>
  match q with
  | .write r => some (head - r.length)
  | _ => none

theorem pmemClient_sends : Sends PMemClient.send pmemPlace := by
  refine ⟨?_, ?_, ?_⟩
  · intro c k q
    cases q with
    | write r =>
      have hhead : ∀ head, head + totalLen r - r.length = head := by
        intro head
        rw [totalLen_eq, Nat.add_sub_cancel]
      simp only [PMemClient.send, pmemPlace, hhead]
    | get k => rfl
    | sync => rfl
    | delete k => rfl
    | close => rfl
  · intro c k q
    cases q <;> rfl
  · intro c k q
    cases q <;> rfl

/-- The request of a call as it was posted. -/
def posted (place : Place) (head : Nat) (q : Call) : Post :=
  ⟨body q, (place head q).map fun off => (off, body q)⟩

section Phases

variable (B : DBType σ) (db₀ : σ) (place : Place) (qs : List Call) (s : Conn × σ)

/-- Between calls. -/
structure AtRest : Prop where
  pc : s.1.client.pc = .idle
  clerk : s.1.clerk = .running
  link : s.1.link.Rest
  done : Done (exec B) db₀ qs s.1.client.history s.2

/-- The request of a call is on its way. -/
structure AtAsked (q : Call) : Prop where
  pc : s.1.client.pc = .ofCall q ∨ q = .close ∧ s.1.client.pc = .closed
  clerk : s.1.clerk = .running
  link : s.1.link.Asked (posted place s.1.client.bufHead q)
  done : ∃ before, qs = before ++ [q] ∧ Done (exec B) db₀ before s.1.client.history s.2

/-- The clerk has taken `CLOSE`. -/
structure AtTaken : Prop where
  pc : s.1.client.pc = .closing ∨ s.1.client.pc = .closed
  clerk : s.1.clerk = .closing ∨ s.1.clerk = .closed
  link : s.1.link.Taken
  done : ∃ before, qs = before ++ [.close] ∧ Done (exec B) db₀ before s.1.client.history s.2

/-- The reply in `m` is on its way. -/
structure AtAnswered (q : Call) (m : Mem) : Prop where
  pc : s.1.client.pc = .waiting q
  clerk : s.1.clerk = .running
  link : s.1.link.Answered (Reply.wire m)
  done : Done (exec B) db₀ qs (s.1.client.history ++ [(q, q.ret m)]) s.2

/-- The phase of a round. -/
def At : Round Seen Bytes → Prop
  | .rest => AtRest B db₀ qs s
  | .asked x => ∃ q, x = .ofCall q ∧ AtAsked B db₀ place qs s q
  | .taken x => x = .ofCall .close ∧ AtTaken B db₀ qs s
  | .answered x a => ∃ q m, x = .ofCall q ∧ a = Reply.wire m ∧ AtAnswered B db₀ qs s q m

end Phases

/-! ## Steps -/

/-- What the client does when it goes on. -/
theorem Client.resume_inv {c c' : Client} {k k' : Link} (h : c.resume k = some (c', k')) :
    k.toClerk = [] ∧
      ((∃ q, c.pc = .waiting q ∧ k.client.header = clerkDone ∧ k' = k.read ∧
          c' = { c with pc := .idle, history := c.history ++ [(q, q.ret k.client.msg)] }) ∨
        c.pc = .closing ∧ k' = k ∧ c' = { c with pc := .closed }) := by
  unfold resume at h
  split at h
  · rename_i q hk hpc
    split at h
    · rename_i hflag
      cases h
      exact ⟨hk, .inl ⟨q, hpc, hflag, rfl, rfl⟩⟩
    · cases h
  · rename_i hk hpc
    cases h
    exact ⟨hk, .inr ⟨hpc, rfl, rfl⟩⟩
  · cases h

theorem ofCall_inj_waiting {q q' : Call} (h : ClientPc.ofCall q = .waiting q') :
    q = q' ∧ q ≠ .close := by
  cases q with
  | close => cases h
  | write r => cases h; exact ⟨rfl, by simp⟩
  | get k => cases h; exact ⟨rfl, by simp⟩
  | sync => cases h; exact ⟨rfl, by simp⟩
  | delete k => cases h; exact ⟨rfl, by simp⟩

theorem ofCall_ne_idle (q : Call) : ClientPc.ofCall q ≠ .idle := by
  cases q <;> simp [ClientPc.ofCall]

theorem ofCall_ne_closed (q : Call) : ClientPc.ofCall q ≠ .closed := by
  cases q <;> simp [ClientPc.ofCall]

theorem ofCall_inj {q q' : Call} (h : ClientPc.ofCall q = .ofCall q') : q = q' := by
  cases q <;> cases q' <;> cases h <;> rfl

theorem ofCall_closing {q : Call} (h : ClientPc.ofCall q = .closing) : q = .close := by
  cases q with
  | close => rfl
  | write | get | sync | delete => cases h

theorem ofCall_of_ne {q : Call} (hq : q ≠ .close) : ClientPc.ofCall q = .waiting q := by
  cases q with
  | close => exact absurd rfl hq
  | write | get | sync | delete => rfl

section Steps

variable {B : DBType σ} {db₀ : σ} {send : Send} {place : Place} {qs : List Call} {s s' : Conn × σ}
  {r : Round Seen Bytes} {es : List (Event Seen Bytes)}

/-- The next state is in a phase, and the events lead there. -/
def Goes (B : DBType σ) (db₀ : σ) (place : Place) (qs : List Call) (s' : Conn × σ)
    (es : List (Event Seen Bytes)) : Prop :=
  ∃ r, At B db₀ place qs s' r ∧ r.Ends es

theorem At.call (hsend : Sends send place) (h : At B db₀ place qs s r) (hes : r.Ends es) {q : Call}
    (hstep : step send B s (.call q) = some s') :
    Goes B db₀ place (qs ++ [q]) s' (es ++ [.ask (.ofCall q)]) := by
  simp only [step] at hstep
  split at hstep
  · rename_i hidle
    cases hstep
    cases r with
    | rest =>
      refine ⟨.asked (.ofCall q), ⟨q, rfl, ?_⟩, hes.ask _⟩
      have hlink := rest_post h.link q (place (send s.1.client s.1.link q).1.bufHead q)
      rw [← hsend.link] at hlink
      refine ⟨.inl (hsend.pc ..), h.clerk, hlink, qs, rfl, ?_⟩
      rw [hsend.history]
      exact h.done
    | asked x =>
      obtain ⟨q', -, h⟩ := h
      rcases h.pc with hpc | ⟨-, hpc⟩
      · exact absurd (hpc.symm.trans hidle) (ofCall_ne_idle q')
      · rw [hpc] at hidle
        cases hidle
    | taken x =>
      rcases h.2.pc with hpc | hpc <;> rw [hpc] at hidle <;> cases hidle
    | answered x a =>
      obtain ⟨q', m, -, -, h⟩ := h
      rw [h.pc] at hidle
      cases hidle
  · cases hstep

theorem At.client (h : At B db₀ place qs s r) (hes : r.Ends es)
    (hstep : step send B s .client = some s') :
    Goes B db₀ place qs s' (es ++ s.1.client.readEvents s.1.link) := by
  obtain ⟨⟨c', k'⟩, hres, rfl⟩ := Option.map_eq_some_iff.mp hstep
  obtain ⟨hnil, ⟨q, hpc, hflag, rfl, rfl⟩ | ⟨hpc, rfl, rfl⟩⟩ := Client.resume_inv hres
  · -- it returns from a call
    have hev : s.1.client.readEvents s.1.link = [.read (Reply.wire s.1.link.client.msg)] := by
      rw [Client.readEvents, hpc]
    rw [hev]
    cases r with
    | rest =>
      rw [h.pc] at hpc
      cases hpc
    | asked x =>
      obtain ⟨q', -, h⟩ := h
      exact absurd (hflag.symm.trans h.link.client_flag) clerkDone_ne_clientDone
    | taken x => exact absurd (hflag.symm.trans h.2.link.client_flag) clerkDone_ne_clientDone
    | answered x a =>
      obtain ⟨q', m, rfl, rfl, h⟩ := h
      rw [h.pc] at hpc
      cases hpc
      have hread := (h.link.flag (h.link.arrived hflag)).2
      rw [Reply.wire_of_read hread]
      refine ⟨.rest, ⟨rfl, h.clerk, h.link.read hflag, ?_⟩, hes.read⟩
      rw [q.ret_of_wire hread]
      exact h.done
  · -- it closes
    have hev : s.1.client.readEvents s.1.link = [] := by
      rw [Client.readEvents, hpc]
    rw [hev, List.append_nil]
    cases r with
    | rest =>
      rw [h.pc] at hpc
      cases hpc
    | asked x =>
      obtain ⟨q', rfl, h⟩ := h
      have hclose : q' = .close := by
        rcases h.pc with hpc' | ⟨hclose, -⟩
        · exact ofCall_closing (hpc'.symm.trans hpc)
        · exact hclose
      exact ⟨.asked _, ⟨q', rfl, .inr ⟨hclose, rfl⟩, h.clerk, h.link, h.done⟩, hes⟩
    | taken x => exact ⟨.taken x, ⟨h.1, .inr rfl, h.2.clerk, h.2.link, h.2.done⟩, hes⟩
    | answered x a =>
      obtain ⟨q', m, -, -, h⟩ := h
      rw [h.pc] at hpc
      cases hpc

theorem At.toClerk (h : At B db₀ place qs s r) (hes : r.Ends es)
    (hstep : step send B s .toClerk = some s') : Goes B db₀ place qs s' es := by
  obtain ⟨k', hk, rfl⟩ := Option.map_eq_some_iff.mp hstep
  obtain ⟨w, ws, hq, -⟩ := Link.deliverClerk_inv hk
  cases r with
  | rest =>
    rw [h.link.toClerk] at hq
    cases hq
  | asked x =>
    obtain ⟨q, hx, h⟩ := h
    exact ⟨.asked x, ⟨q, hx, h.pc, h.clerk, h.link.deliver hk, h.done⟩, hes⟩
  | taken x =>
    rw [h.2.link.toClerk] at hq
    cases hq
  | answered x a =>
    obtain ⟨q, m, -, -, h⟩ := h
    rw [h.link.toClerk] at hq
    cases hq

theorem At.toClient (h : At B db₀ place qs s r) (hes : r.Ends es)
    (hstep : step send B s .toClient = some s') : Goes B db₀ place qs s' es := by
  obtain ⟨k', hk, rfl⟩ := Option.map_eq_some_iff.mp hstep
  obtain ⟨w, ws, hq, -⟩ := Link.deliverClient_inv hk
  cases r with
  | rest =>
    rw [h.link.toClient] at hq
    cases hq
  | asked x =>
    obtain ⟨q, -, h⟩ := h
    rw [h.link.toClient] at hq
    cases hq
  | taken x =>
    rw [h.2.link.toClient] at hq
    cases hq
  | answered x a =>
    obtain ⟨q, m, hx, ha, h⟩ := h
    have hlink := h.link.deliver hk
    exact ⟨.answered x a, ⟨q, m, hx, ha, h.pc, h.clerk, hlink, h.done⟩, hes⟩

/-- The clerk takes the request that was asked. -/
theorem AtAsked.serve {q : Call} (h : AtAsked B db₀ place qs s q)
    (hes : (Round.asked (.ofCall q)).Ends es) (hflag : s.1.link.clerk.header = clientDone) :
    Goes B db₀ place qs (s.1.serve B s.2)
      (es ++ turnEvents s.1.link.clerk.msg (Sync.serve B s.2 s.1.link.clerk.msg)) := by
  have hbody := (h.link.complete (h.link.arrived hflag)).body
  have hseen := Seen.ofMem_body hbody
  have htaken := h.link.take hflag
  obtain ⟨before, hqs, hdone⟩ := h.done
  by_cases hq : q = .close
  · subst hq
    have hserve := serve_close B s.2 hbody
    unfold Conn.serve
    rw [hserve, turnEvents, hseen]
    refine ⟨.taken _, ⟨rfl, ?_, .inl rfl, htaken, before, hqs, hdone⟩, hes.take⟩
    rcases h.pc with hpc | ⟨-, hpc⟩
    · exact .inl hpc
    · exact .inr hpc
  · obtain ⟨m', hserve, hret⟩ := serve_body B s.2 hbody hq
    unfold Conn.serve
    rw [hserve, turnEvents, hseen]
    have hpc : s.1.client.pc = .waiting q := by
      rcases h.pc with hpc | ⟨hclose, -⟩
      · rw [hpc, ofCall_of_ne hq]
      · exact absurd hclose hq
    refine ⟨.answered _ _, ⟨q, m', rfl, rfl, hpc, h.clerk, (htaken.overwrite m').answer, ?_⟩, ?_⟩
    · rw [hqs]
      exact hdone.snoc (Prod.ext hret.symm rfl)
    · have := hes.take.answer (Reply.wire m')
      rwa [List.append_assoc] at this

theorem At.serve (h : At B db₀ place qs s r) (hes : r.Ends es)
    (hstep : step send B s .serve = some s') : Goes B db₀ place qs s'
      (es ++ turnEvents s.1.link.clerk.msg (Sync.serve B s.2 s.1.link.clerk.msg)) := by
  simp only [step] at hstep
  split at hstep
  · rename_i hg
    cases hstep
    cases r with
    | rest => exact absurd hg.2 h.link.clerk_flag
    | asked x =>
      obtain ⟨q, rfl, h⟩ := h
      exact h.serve hes hg.2
    | taken x =>
      exact absurd (h.2.link.clerk_flag.symm.trans hg.2) clerkDone_ne_clientDone
    | answered x a =>
      obtain ⟨q, m, -, -, h⟩ := h
      exact absurd (h.link.clerk_flag.symm.trans hg.2) clerkDone_ne_clientDone
  · cases hstep

theorem At.leave (h : At B db₀ place qs s r) (hes : r.Ends es)
    (hstep : step send B s .leave = some s') : Goes B db₀ place qs s' es := by
  simp only [step] at hstep
  split at hstep
  · rename_i hclosing hclosed
    cases hstep
    cases r with
    | rest =>
      rw [h.clerk] at hclosing
      cases hclosing
    | asked x =>
      obtain ⟨q, -, h⟩ := h
      rw [h.clerk] at hclosing
      cases hclosing
    | taken x => exact ⟨.taken x, ⟨h.1, h.2.pc, .inr rfl, h.2.link, h.2.done⟩, hes⟩
    | answered x a =>
      obtain ⟨q, m, -, -, h⟩ := h
      rw [h.clerk] at hclosing
      cases hclosing
  · cases hstep

/-- One step. -/
theorem At.step (hsend : Sends send place) (h : At B db₀ place qs s r) (hes : r.Ends es) {l : Label}
    (hstep : step send B s l = some s') :
    Goes B db₀ place (qs ++ l.calls) s' (es ++ stepEvents B s l) := by
  cases l with
  | call q => exact h.call hsend hes hstep
  | client => exact (List.append_nil qs).symm ▸ h.client hes hstep
  | toClerk => exact (List.append_nil qs).symm ▸ (List.append_nil es).symm ▸ h.toClerk hes hstep
  | toClient => exact (List.append_nil qs).symm ▸ (List.append_nil es).symm ▸ h.toClient hes hstep
  | serve => exact (List.append_nil qs).symm ▸ h.serve hes hstep
  | leave => exact (List.append_nil qs).symm ▸ (List.append_nil es).symm ▸ h.leave hes hstep

theorem init_at (h : (system send B).init s) : At B s.2 place [] s .rest := by
  obtain ⟨flag, m, m', ring, hflag, hs⟩ := h
  rw [show s = (s.1, s.2) from rfl, hs]
  exact ⟨rfl, rfl, ⟨rfl, rfl, rfl, hflag⟩, rfl, rfl⟩

/-- A run. -/
theorem run_at (hsend : Sends send place) {tr : List ((Conn × σ) × Label)}
    (hinit : (system send B).init s) (hrun : (system send B).Run s tr s') :
    Goes B s.2 place (calls tr) s' (events B tr) := by
  induction hrun with
  | nil => exact ⟨.rest, init_at hinit, Round.ends_nil⟩
  | snoc _ hstep ih =>
    obtain ⟨r, h, hes⟩ := ih
    rw [calls_snoc, events_snoc]
    exact h.step hsend hes hstep

end Steps

end LogDirect.Sync
