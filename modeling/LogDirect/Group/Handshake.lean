import LogDirect.Group.Model

/-!
# The group front end: the handshake

However the clerks are interleaved, each client and its clerk go through rounds:
the call asked is the request the clerk looks at, whole, and the reply it posts is
the reply read. While a clerk has a request in the queue, the request stays in its
message area.
-/

namespace LogDirect.Group

open Lib Exchange
open Sync (Client ClientPc Seen clip reply body)

variable {ι σ : Type}

/-! ## What is seen of a client -/

/-- The questions and answers of client `i` in a step. -/
def stepEvents [DecidableEq ι] (i : ι) (s : Server ι σ) : Label ι → List (Event Seen Bytes)
  | .call j q => if j = i then [.ask (.ofCall q)] else []
  | .client j => if j = i then (s.conns i).client.readEvents (s.conns i).link else []
  | .serve j => if j = i then [.take (.ofMem (s.conns i).request)] else []
  | .reply j => if j = i then [.answer (Reply.wire (s.conns i).request)] else []
  | _ => []

/-- The questions and answers of client `i` in a run. -/
def events [DecidableEq ι] (i : ι) (tr : List (Server ι σ × Label ι)) : List (Event Seen Bytes) :=
  tr.flatMap fun p => stepEvents i p.1 p.2

@[simp] theorem events_snoc [DecidableEq ι] (i : ι) (tr : List (Server ι σ × Label ι))
    (s : Server ι σ) (l : Label ι) :
    events i (tr ++ [(s, l)]) = events i tr ++ stepEvents i s l := by
  simp [events]

/-! ## Phases of a connection -/

/-- The calls whose requests are logged. -/
def LoggedCall (q : Call) : Prop := Logged (Seen.ofCall q).op

/-- The clerk has a request to be logged. -/
def ClerkPc.Queued : ClerkPc ι → Prop
  | .waiting | .pausing | .writing _ | .written _ => True
  | .running | .serving | .replying | .closing | .closed => False

namespace Conn

/-- The client waits in the call. -/
def Calls (c : Conn ι) (q : Call) : Prop :=
  c.client.pc = .ofCall q ∨ q = .close ∧ c.client.pc = .closed

/-- The request of the call lies in the clerk's message area. -/
def Holds (c : Conn ι) (q : Call) : Prop := c.request.read 0 (body q).length = body q

/-- The clerk is at work on the call. -/
def Works (c : Conn ι) (q : Call) : Prop :=
  match c.clerk.pc with
  | .waiting => LoggedCall q ∧ c.Holds q
  | .pausing => LoggedCall q ∧ c.Holds q
  | .writing _ => LoggedCall q ∧ c.Holds q
  | .written _ => LoggedCall q ∧ c.Holds q
  | .replying => q ≠ .close
  | .closing => q = .close
  | .closed => q = .close
  | .running => False
  | .serving => False

/-- The phase of a round. -/
def At (c : Conn ι) : Round Seen Bytes → Prop
  | .rest => c.client.pc = .idle ∧ c.clerk.pc = .running ∧ c.link.Rest
  | .asked x => ∃ q, x = .ofCall q ∧ c.Calls q ∧
      (c.clerk.pc = .running ∧ c.link.Asked ⟨body q, none⟩ ∨
        c.clerk.pc = .serving ∧ c.link.Taken ∧ c.Holds q)
  | .taken x => ∃ q, x = .ofCall q ∧ c.Calls q ∧ c.Works q ∧ c.link.Taken
  | .answered x a => ∃ q m, x = .ofCall q ∧ a = Reply.wire m ∧ c.client.pc = .waiting q ∧
      c.clerk.pc = .running ∧ c.link.Answered a

theorem works_iff {c : Conn ι} (h : c.clerk.pc.Queued) (q : Call) :
    c.Works q ↔ LoggedCall q ∧ c.Holds q := by
  unfold Works
  cases hpc : c.clerk.pc with
  | waiting | pausing | writing | written => exact Iff.rfl
  | running | serving | replying | closing | closed =>
    rw [hpc] at h
    exact h.elim

/-- The connection is in a phase, and the events lead there. -/
def Follows (c : Conn ι) (es : List (Event Seen Bytes)) : Prop := ∃ r, c.At r ∧ r.Ends es

/-! ## Steps of one connection -/

variable {c : Conn ι} {r : Round Seen Bytes} {es : List (Event Seen Bytes)}

variable {q : Call} {c' : Conn ι}

theorem Calls.waiting {q' : Call} (h : c.Calls q) (hpc : c.client.pc = .waiting q') : q = q' := by
  rcases h with h | ⟨-, h⟩
  · exact (Sync.ofCall_inj_waiting (h.symm.trans hpc)).1
  · rw [hpc] at h
    cases h

theorem Calls.closing (h : c.Calls q) (hpc : c.client.pc = .closing) : q = .close := by
  rcases h with h | ⟨hq, -⟩
  · exact Sync.ofCall_closing (h.symm.trans hpc)
  · exact hq

theorem Calls.not_idle (h : c.Calls q) : c.client.pc ≠ .idle := by
  rcases h with h | ⟨-, h⟩
  · rw [h]
    exact Sync.ofCall_ne_idle q
  · rw [h]
    simp

theorem Follows.call (h : c.Follows es) (hidle : c.client.pc = .idle) (q : Call) :
    (c.setClient (Sync.GroupClient.send c.client c.link q)).Follows (es ++ [.ask (.ofCall q)]) := by
  obtain ⟨r, h, hes⟩ := h
  cases r with
  | rest => exact ⟨.asked _, ⟨q, rfl, .inl rfl, .inl ⟨h.2.1, Sync.rest_post h.2.2 q none⟩⟩,
    hes.ask _⟩
  | asked x =>
    obtain ⟨q', -, hc, -⟩ := h
    exact absurd hidle hc.not_idle
  | taken x =>
    obtain ⟨q', -, hc, -⟩ := h
    exact absurd hidle hc.not_idle
  | answered x a =>
    obtain ⟨q', m, -, -, hpc, -⟩ := h
    rw [hidle] at hpc
    cases hpc

theorem Follows.client (h : c.Follows es) {p : Client × Link}
    (hp : c.client.resume c.link = some p) :
    (c.setClient p).Follows (es ++ c.client.readEvents c.link) := by
  obtain ⟨r, h, hes⟩ := h
  obtain ⟨cl, k⟩ := p
  obtain ⟨hnil, ⟨q, hpc, hflag, rfl, rfl⟩ | ⟨hpc, rfl, rfl⟩⟩ := Sync.Client.resume_inv hp
  · -- it returns from a call
    have hev : c.client.readEvents c.link = [.read (Reply.wire c.link.client.msg)] := by
      rw [Sync.Client.readEvents, hpc]
    rw [hev]
    cases r with
    | rest =>
      rw [h.1] at hpc
      cases hpc
    | asked x =>
      obtain ⟨q', -, -, ⟨-, hk⟩ | ⟨-, hk, -⟩⟩ := h
      · exact absurd (hflag.symm.trans hk.client_flag) clerkDone_ne_clientDone
      · exact absurd (hflag.symm.trans hk.client_flag) clerkDone_ne_clientDone
    | taken x =>
      obtain ⟨q', -, -, -, hk⟩ := h
      exact absurd (hflag.symm.trans hk.client_flag) clerkDone_ne_clientDone
    | answered x a =>
      obtain ⟨q', m, rfl, rfl, -, hclerk, hk⟩ := h
      rw [Reply.wire_of_read (hk.flag (hk.arrived hflag)).2]
      exact ⟨.rest, ⟨rfl, hclerk, hk.read hflag⟩, hes.read⟩
  · -- it closes
    have hev : c.client.readEvents c.link = [] := by
      rw [Sync.Client.readEvents, hpc]
    rw [hev, List.append_nil]
    cases r with
    | rest =>
      rw [h.1] at hpc
      cases hpc
    | asked x =>
      obtain ⟨q, hx, hc, hk⟩ := h
      exact ⟨.asked x, ⟨q, hx, .inr ⟨hc.closing hpc, rfl⟩, hk⟩, hes⟩
    | taken x =>
      obtain ⟨q, hx, hc, hk⟩ := h
      exact ⟨.taken x, ⟨q, hx, .inr ⟨hc.closing hpc, rfl⟩, hk⟩, hes⟩
    | answered x a =>
      obtain ⟨q, m, -, -, hpc', -⟩ := h
      rw [hpc] at hpc'
      cases hpc'

theorem Follows.toClerk (h : c.Follows es) {k : Link} (hk : c.link.deliverClerk = some k) :
    (c.setLink k).Follows es := by
  obtain ⟨r, h, hes⟩ := h
  obtain ⟨w, ws, hq, -⟩ := Link.deliverClerk_inv hk
  cases r with
  | rest =>
    rw [h.2.2.toClerk] at hq
    cases hq
  | asked x =>
    obtain ⟨q, hx, hc, ⟨hpc, hl⟩ | ⟨-, hl, -⟩⟩ := h
    · exact ⟨.asked x, ⟨q, hx, hc, .inl ⟨hpc, hl.deliver hk⟩⟩, hes⟩
    · rw [hl.toClerk] at hq
      cases hq
  | taken x =>
    obtain ⟨q, -, -, -, hl⟩ := h
    rw [hl.toClerk] at hq
    cases hq
  | answered x a =>
    obtain ⟨q, m, -, -, -, -, hl⟩ := h
    rw [hl.toClerk] at hq
    cases hq

theorem Follows.toClient (h : c.Follows es) {k : Link} (hk : c.link.deliverClient = some k) :
    (c.setLink k).Follows es := by
  obtain ⟨r, h, hes⟩ := h
  obtain ⟨w, ws, hq, -⟩ := Link.deliverClient_inv hk
  cases r with
  | rest =>
    rw [h.2.2.toClient] at hq
    cases hq
  | asked x =>
    obtain ⟨q, -, -, ⟨-, hl⟩ | ⟨-, hl, -⟩⟩ := h
    · rw [hl.toClient] at hq
      cases hq
    · rw [hl.toClient] at hq
      cases hq
  | taken x =>
    obtain ⟨q, -, -, -, hl⟩ := h
    rw [hl.toClient] at hq
    cases hq
  | answered x a =>
    obtain ⟨q, m, hx, ha, hpc, hclerk, hl⟩ := h
    exact ⟨.answered x a, ⟨q, m, hx, ha, hpc, hclerk, hl.deliver hk⟩, hes⟩

theorem Follows.take (h : c.Follows es) (hpc : c.clerk.pc = .running)
    (hflag : c.link.clerk.header = clientDone) :
    ((c.setLink c.link.take).goto .serving).Follows es := by
  obtain ⟨r, h, hes⟩ := h
  cases r with
  | rest => exact absurd hflag h.2.2.clerk_flag
  | asked x =>
    obtain ⟨q, hx, hc, ⟨-, hl⟩ | ⟨hserving, -⟩⟩ := h
    · have hbody := (hl.complete (hl.arrived hflag)).body
      exact ⟨.asked x, ⟨q, hx, hc, .inr ⟨rfl, hl.take hflag, hbody⟩⟩, hes⟩
    · rw [hpc] at hserving
      cases hserving
  | taken x =>
    obtain ⟨q, -, -, hw, -⟩ := h
    rw [Works, hpc] at hw
    exact hw.elim
  | answered x a =>
    obtain ⟨q, m, -, -, -, -, hl⟩ := h
    exact absurd (hl.clerk_flag.symm.trans hflag) clerkDone_ne_clientDone

/-- A clerk with a request has that of the call the client waits in. -/
theorem At.serving (h : c.At r) (hpc : c.clerk.pc = .serving) : ∃ q, r = .asked (.ofCall q) ∧
    c.Calls q ∧ c.link.Taken ∧ c.Holds q := by
  cases r with
  | rest =>
    rw [h.2.1] at hpc
    cases hpc
  | asked x =>
    obtain ⟨q, rfl, hc, ⟨hrun, -⟩ | ⟨-, hl, hbody⟩⟩ := h
    · rw [hrun] at hpc
      cases hpc
    · exact ⟨q, rfl, hc, hl, hbody⟩
  | taken x =>
    obtain ⟨q, -, -, hw, -⟩ := h
    rw [Works, hpc] at hw
    exact hw.elim
  | answered x a =>
    obtain ⟨q, m, -, -, -, hrun, -⟩ := h
    rw [hrun] at hpc
    cases hpc

theorem Holds.seen (h : c.Holds q) : Seen.ofMem c.request = .ofCall q :=
  Seen.ofMem_body h

/-- The requests that clients send are short. -/
theorem Holds.noWrap (h : c.Holds q) : Request.NoWrap c.request := by
  have hkey : Request.keySize c.request = (Seen.ofCall q).key.length :=
    (Mem.length_read ..).symm.trans (congrArg (fun x => x.key.length) h.seen)
  have hval : Request.valSize c.request = (Seen.ofCall q).val.length :=
    (Mem.length_read ..).symm.trans (congrArg (fun x => x.val.length) h.seen)
  rw [Request.NoWrap, hkey, hval]
  cases q with
  | write r => exact r.fits.trans_lt (by decide)
  | get k => exact k.fits.trans_lt (by decide)
  | delete k => exact k.fits.trans_lt (by decide)
  | sync => decide
  | close => decide

theorem Holds.op (h : c.Holds q) : Request.op c.request = (Seen.ofCall q).op :=
  congrArg Seen.op h.seen

/-- The clerk goes to work on a request; it may have its reply at once. -/
theorem Follows.serve (h : c.Follows es) (hpc : c.clerk.pc = .serving)
    (hclient : c'.client = c.client) (hlink : c.link.Taken → c'.link.Taken)
    (hworks : ∀ q, c.Holds q → c'.Works q) : c'.Follows (es ++ [.take (.ofMem c.request)]) := by
  obtain ⟨r, h, hes⟩ := h
  obtain ⟨q, rfl, hc, hl, hbody⟩ := h.serving hpc
  rw [hbody.seen]
  refine ⟨.taken _, ⟨q, rfl, ?_, hworks q hbody, hlink hl⟩, hes.take⟩
  rw [Calls, hclient]
  exact hc

/-- A clerk that has looked at its request works on the call the client waits in. -/
theorem At.works (h : c.At r) (hrun : c.clerk.pc ≠ .running) (hserve : c.clerk.pc ≠ .serving) :
    ∃ q, r = .taken (.ofCall q) ∧ c.Calls q ∧ c.Works q ∧ c.link.Taken := by
  cases r with
  | rest => exact absurd h.2.1 hrun
  | asked x =>
    obtain ⟨q, -, -, ⟨hpc, -⟩ | ⟨hpc, -⟩⟩ := h
    · exact absurd hpc hrun
    · exact absurd hpc hserve
  | taken x =>
    obtain ⟨q, rfl, h⟩ := h
    exact ⟨q, rfl, h⟩
  | answered x a =>
    obtain ⟨q, m, -, -, -, hpc, -⟩ := h
    exact absurd hpc hrun

/-- It goes on with its work. -/
theorem Follows.work (h : c.Follows es) (hrun : c.clerk.pc ≠ .running)
    (hserve : c.clerk.pc ≠ .serving) (hclient : c'.client = c.client)
    (hlink : c.link.Taken → c'.link.Taken) (hworks : ∀ q, c.Works q → c'.Works q) :
    c'.Follows es := by
  obtain ⟨r, h, hes⟩ := h
  obtain ⟨q, rfl, hc, hw, hl⟩ := h.works hrun hserve
  refine ⟨.taken _, ⟨q, rfl, ?_, hworks q hw, hlink hl⟩, hes⟩
  rw [Calls, hclient]
  exact hc

/-- A request in the queue moves on there. -/
theorem Follows.goto (h : c.Follows es) (hpc : c.clerk.pc.Queued) {pc : ClerkPc ι}
    (hpc' : pc.Queued) : (c.goto pc).Follows es := by
  refine h.work ?_ ?_ rfl id ?_
  · intro hrun
    rw [hrun] at hpc
    exact hpc
  · intro hserve
    rw [hserve] at hpc
    exact hpc
  · intro q hw
    exact (works_iff hpc' q).mpr ((works_iff hpc q).mp hw)

theorem LoggedCall.ne_close (h : LoggedCall q) : q ≠ .close := by
  rintro rfl
  exact h.1 rfl

/-- A request is through the queue. -/
theorem Follows.through (h : c.Follows es) (hpc : c.clerk.pc.Queued)
    (hclient : c'.client = c.client) (hlink : c.link.Taken → c'.link.Taken)
    (hpc' : c'.clerk.pc = .replying) : c'.Follows es := by
  refine h.work ?_ ?_ hclient hlink ?_
  · intro hrun
    rw [hrun] at hpc
    exact hpc
  · intro hserve
    rw [hserve] at hpc
    exact hpc
  · intro q hw
    rw [Works, hpc']
    exact LoggedCall.ne_close ((works_iff hpc q).mp hw).1

theorem Follows.reply (h : c.Follows es) (hpc : c.clerk.pc = .replying) :
    ((c.setLink c.link.answer).goto .running).Follows
      (es ++ [.answer (Reply.wire c.request)]) := by
  obtain ⟨r, h, hes⟩ := h
  obtain ⟨q, rfl, hc, hw, hl⟩ := h.works (by rw [hpc]; simp) (by rw [hpc]; simp)
  rw [Works, hpc] at hw
  have hclient : c.client.pc = .waiting q := by
    rcases hc with hc | ⟨hq, -⟩
    · rw [hc, Sync.ofCall_of_ne hw]
    · exact absurd hq hw
  exact ⟨.answered _ _, ⟨q, c.request, rfl, rfl, hclient, rfl, hl.answer⟩, hes.answer _⟩

/-- A client that goes on has no request at its clerk. -/
theorem Follows.resume_pc (hf : c.Follows es) {p : Client × Link}
    (hp : c.client.resume c.link = some p) :
    c.clerk.pc = .running ∨ (∀ q, c.client.pc ≠ .waiting q) ∧ ∀ q, p.1.pc ≠ .waiting q := by
  obtain ⟨cl, k⟩ := p
  obtain ⟨-, ⟨q, hwait, hflag, rfl, rfl⟩ | ⟨hclosing, rfl, rfl⟩⟩ := Sync.Client.resume_inv hp
  · left
    obtain ⟨r, h, -⟩ := hf
    cases r with
    | rest => exact h.2.1
    | asked x =>
      obtain ⟨q', -, -, ⟨hpc, -⟩ | ⟨-, hl, -⟩⟩ := h
      · exact hpc
      · exact absurd (hflag.symm.trans hl.client_flag) clerkDone_ne_clientDone
    | taken x =>
      obtain ⟨q', -, -, -, hl⟩ := h
      exact absurd (hflag.symm.trans hl.client_flag) clerkDone_ne_clientDone
    | answered x a =>
      obtain ⟨q', m, -, -, -, hpc, -⟩ := h
      exact hpc
  · right
    refine ⟨fun q hq => ?_, fun q hq => by cases hq⟩
    rw [hclosing] at hq
    cases hq

theorem Follows.idle_pc (hf : c.Follows es) (hidle : c.client.pc = .idle) :
    c.clerk.pc = .running := by
  obtain ⟨r, h, -⟩ := hf
  cases r with
  | rest => exact h.2.1
  | asked x =>
    obtain ⟨q, -, hc, -⟩ := h
    exact absurd hidle hc.not_idle
  | taken x =>
    obtain ⟨q, -, hc, -⟩ := h
    exact absurd hidle hc.not_idle
  | answered x a =>
    obtain ⟨q, m, -, -, hpc, -⟩ := h
    rw [hidle] at hpc
    cases hpc

/-- A request that is not logged is not one to be logged. -/
theorem Follows.serving_call (hf : c.Follows es) (hpc : c.clerk.pc = .serving)
    (hop : ¬ Logged (Request.op c.request)) :
    ∀ q, c.client.pc = .waiting q → ¬ LoggedCall q := by
  intro q hq hl
  obtain ⟨r, h, -⟩ := hf
  obtain ⟨q', -, hcalls, -, hholds⟩ := h.serving hpc
  rw [hcalls.waiting hq] at hholds
  rw [hholds.op] at hop
  exact hop hl

end Conn

/-! ## Steps of the server -/

namespace Server

variable [DecidableEq ι] {B : DBType σ} {s s' : Server ι σ}

@[simp] theorem set_self (s : Server ι σ) (i : ι) (c : Conn ι) : (s.set i c).conns i = c :=
  Function.update_self ..

variable {i j : ι} {es : List (Event Seen Bytes)}

theorem set_other (s : Server ι σ) (c : Conn ι) (h : j ≠ i) : (s.set i c).conns j = s.conns j :=
  Function.update_of_ne h ..

/-- A clerk that is notified stays where it is. -/
theorem notify_follows (s : Server ι σ) (queue marked : List ι) (h : (s.conns j).Follows es) :
    ((s.notify queue marked).conns j).Follows es := by
  show (if j ∈ marked then _ else _ : Conn ι).Follows es
  split
  · exact h
  · split
    · exact h
    · exact h

/-- One connection moves. -/
theorem set_follows {c : Conn ι} {evs : List (Event Seen Bytes)}
    (hother : j ≠ i → (s.conns j).Follows es) (hself : j = i → c.Follows (es ++ evs)) :
    ((s.set i c).conns j).Follows (es ++ if i = j then evs else []) := by
  by_cases hj : j = i
  · subst hj
    rw [set_self, if_pos rfl]
    exact hself rfl
  · rw [set_other s c hj, if_neg (Ne.symm hj), List.append_nil]
    exact hother hj

/-- One connection moves, and nothing is seen of it. -/
theorem set_follows_quiet {c : Conn ι} (h : (s.conns j).Follows es) (hself : j = i → c.Follows es) :
    ((s.set i c).conns j).Follows (es ++ []) := by
  have hset : ((s.set i c).conns j).Follows (es ++ if i = j then [] else []) := by
    refine set_follows (fun _ => h) ?_
    intro hj
    rw [List.append_nil]
    exact hself hj
  rwa [ite_self] at hset

/-- One step, seen from any client. -/
theorem Moves.follows {l : Label ι} (h : s.Moves B l s') (j : ι) (hj : (s.conns j).Follows es) :
    (s'.conns j).Follows (es ++ stepEvents j s l) := by
  cases h with
  | call hidle =>
    refine set_follows (fun _ => hj) ?_
    rintro rfl
    exact hj.call hidle _
  | client hp =>
    refine set_follows (fun _ => hj) ?_
    rintro rfl
    exact hj.client hp
  | toClerk hk =>
    refine set_follows_quiet hj ?_
    rintro rfl
    exact hj.toClerk hk
  | toClient hk =>
    refine set_follows_quiet hj ?_
    rintro rfl
    exact hj.toClient hk
  | take hpc hflag =>
    refine set_follows_quiet hj ?_
    rintro rfl
    exact hj.take hpc hflag
  | close hpc hop =>
    refine set_follows (fun _ => hj) ?_
    rintro rfl
    refine hj.serve hpc rfl id ?_
    intro q hq
    rw [hq.op] at hop
    cases q with
    | close => rfl
    | write r =>
      rcases r.isWrite with hr | hr <;> rw [Seen.ofCall, hr] at hop <;> cases hop
    | get | sync | delete => cases hop
  | get db hpc hop =>
    refine set_follows (fun _ => hj) ?_
    rintro rfl
    refine hj.serve hpc rfl (fun hl => hl.overwrite _) ?_
    rintro q hq rfl
    rw [hq.op] at hop
    cases hop
  | sync hpc hop =>
    refine set_follows (fun _ => hj) ?_
    rintro rfl
    refine hj.serve hpc rfl id ?_
    rintro q hq rfl
    rw [hq.op] at hop
    cases hop
  | push hpc hlogged =>
    refine set_follows (fun _ => hj) ?_
    rintro rfl
    refine hj.serve hpc rfl id ?_
    intro q hq
    have hcall : LoggedCall q := by
      rw [hq.op] at hlogged
      exact hlogged
    refine (Conn.works_iff ?_ q).mpr ⟨hcall, hq⟩
    show (if _ then _ else _ : ClerkPc ι).Queued
    split
    · trivial
    · trivial
  | done hpc =>
    refine set_follows_quiet hj ?_
    rintro rfl
    exact hj.through (by rw [hpc]; trivial) rfl (fun hl => hl.overwrite _) rfl
  | lead hpc =>
    refine set_follows_quiet hj ?_
    rintro rfl
    exact hj.goto (by rw [hpc]; trivial) trivial
  | sleep hpc =>
    refine set_follows_quiet hj ?_
    rintro rfl
    exact hj
  | build hpc =>
    refine set_follows_quiet hj ?_
    rintro rfl
    exact hj.goto (by rw [hpc]; trivial) trivial
  | putBatch hpc =>
    refine set_follows_quiet hj ?_
    rintro rfl
    exact hj.goto (by rw [hpc]; trivial) trivial
  | complete hpc =>
    refine notify_follows _ _ _ (set_follows_quiet hj ?_)
    rintro rfl
    exact hj.through (by rw [hpc]; trivial) rfl id rfl
  | reply hpc =>
    refine set_follows (fun _ => hj) ?_
    rintro rfl
    exact hj.reply hpc
  | leave hpc =>
    refine set_follows_quiet hj ?_
    rintro rfl
    refine hj.work (by rw [hpc]; simp) (by rw [hpc]; simp) rfl id ?_
    intro q hw
    rw [Conn.Works, hpc] at hw
    exact hw

theorem init_follows (h : (system B).init s) (j : ι) : (s.conns j).Follows [] := by
  obtain ⟨flag, m, m', ring, hflag, hs⟩ := h.2 j
  rw [hs]
  exact ⟨.rest, ⟨rfl, rfl, rfl, rfl, rfl, hflag⟩, Round.ends_nil⟩

/-- A run, seen from any client. -/
theorem run_follows {tr : List (Server ι σ × Label ι)} (hinit : (system B).init s)
    (hrun : (system B).Run s tr s') (j : ι) : (s'.conns j).Follows (events j tr) := by
  induction hrun with
  | nil => exact init_follows hinit j
  | snoc _ hstep ih =>
    rw [events_snoc]
    exact (step_moves hstep).follows j ih

end Server

end LogDirect.Group
