import LogDirect.Sync.Handshake

/-!
# Sync and persistent-memory front ends: every call returns

Deliveries and turns of the two ends make the work of a connection smaller, and
as long as a client waits one of them is possible. So a call that was entered can
always be brought to its return, and every sequence of calls has a run.
-/

namespace LogDirect.Sync

open Lib Exchange

variable {σ : Type}

/-- What the client has to do. -/
def ClientPc.work : ClientPc → Nat
  | .waiting _ => 1
  | .closing => 1
  | .idle => 0
  | .closed => 0

/-- What the clerk has to do. -/
def ClerkPc.work : ClerkPc → Nat
  | .closing => 1
  | .running => 0
  | .closed => 0
  | .exited => 0

/-- What is left to do on a connection. -/
def work (s : Conn × σ) : Nat := s.1.link.load + s.1.client.pc.work + s.1.clerk.work

/-- The client is in no call, or the clerk has taken `CLOSE`. -/
def Conn.Settled (c : Conn) : Prop := c.client.pc = .idle ∨ c.clerk ≠ .running

section

variable {B : DBType σ} {db₀ : σ} {send : Send} {place : Place} {qs : List Call} {s s' : Conn × σ}
  {es : List (Event Seen Bytes)}

/-- A request that the clerk can take has arrived. -/
theorem Goes.arrived (h : Goes B db₀ place qs s es) (hflag : s.1.link.clerk.header = clientDone) :
    s.1.link.toClerk = [] := by
  obtain ⟨r, h, -⟩ := h
  cases r with
  | rest => exact absurd hflag h.link.clerk_flag
  | asked x =>
    obtain ⟨q, -, h⟩ := h
    exact h.link.arrived hflag
  | taken x => exact h.2.link.toClerk
  | answered x a =>
    obtain ⟨q, m, -, -, h⟩ := h
    exact h.link.toClerk

/-- A turn of the clerk replies, or ends its loop. -/
theorem serve_work (h : Goes B db₀ place qs s es)
    (hpc : s.1.clerk = .running) (hflag : s.1.link.clerk.header = clientDone) :
    work (s.1.serve B s.2) < work s := by
  have hload := Link.load_take (h.arrived hflag) hflag
  unfold Conn.serve work
  rw [hpc]
  split
  · show (s.1.link.take.overwrite _).answer.load + s.1.client.pc.work + ClerkPc.running.work < _
    rw [Link.load_answer, Link.load_overwrite]
    omega
  · show s.1.link.take.load + s.1.client.pc.work + 1 < _
    omega
  · show s.1.link.take.load + s.1.client.pc.work + 0 < _
    omega

/-- Every step but a call leaves less to do. -/
theorem step_work (h : Goes B db₀ place qs s es) {l : Label} (hl : l.calls = [])
    (hstep : step send B s l = some s') : work s' < work s := by
  cases l with
  | call q => cases hl
  | client =>
    obtain ⟨⟨c', k'⟩, hres, rfl⟩ := Option.map_eq_some_iff.mp hstep
    obtain ⟨-, ⟨q, hpc, -, rfl, rfl⟩ | ⟨hpc, rfl, rfl⟩⟩ := Client.resume_inv hres
    · simp [work, hpc, ClientPc.work]
    · simp [work, hpc, ClientPc.work]
  | toClerk =>
    obtain ⟨k', hk, rfl⟩ := Option.map_eq_some_iff.mp hstep
    have := Link.load_deliverClerk hk
    simp only [work]
    omega
  | toClient =>
    obtain ⟨k', hk, rfl⟩ := Option.map_eq_some_iff.mp hstep
    have := Link.load_deliverClient hk
    simp only [work]
    omega
  | serve =>
    simp only [step] at hstep
    split at hstep
    · rename_i hg
      cases hstep
      exact serve_work h hg.1 hg.2
    · cases hstep
  | leave =>
    simp only [step] at hstep
    split at hstep
    · rename_i hclosing hclosed
      cases hstep
      simp [work, hclosing, ClerkPc.work]
    · cases hstep

/-- A connection with a request under way is not stuck. -/
theorem Goes.goes (h : Goes B db₀ place qs s es) (hopen : ¬ s.1.Settled) :
    ∃ l s', l.calls = [] ∧ step send B s l = some s' := by
  obtain ⟨r, h, -⟩ := h
  cases r with
  | rest => exact absurd (.inl h.pc) hopen
  | asked x =>
    obtain ⟨q, -, h⟩ := h
    cases hq : s.1.link.toClerk with
    | nil =>
      refine ⟨.serve, s.1.serve B s.2, rfl, ?_⟩
      simp only [step]
      rw [if_pos ⟨h.clerk, h.link.flag hq⟩]
    | cons w ws =>
      obtain ⟨s', hs'⟩ : ∃ s', step send B s .toClerk = some s' := by
        simp [step, Link.deliverClerk, hq]
      exact ⟨.toClerk, s', rfl, hs'⟩
  | taken x =>
    refine absurd (.inr ?_) hopen
    rcases h.2.clerk with hpc | hpc <;> rw [hpc] <;> simp
  | answered x a =>
    obtain ⟨q, m, -, -, h⟩ := h
    cases hq : s.1.link.toClient with
    | nil =>
      obtain ⟨s', hs'⟩ : ∃ s', step send B s .client = some s' := by
        simp [step, Client.resume, h.link.toClerk, h.pc, h.link.flag hq]
      exact ⟨.client, s', rfl, hs'⟩
    | cons w ws =>
      obtain ⟨s', hs'⟩ : ∃ s', step send B s .toClient = some s' := by
        simp [step, Link.deliverClient, hq]
      exact ⟨.toClient, s', rfl, hs'⟩

theorem calls_of_meets {tr : List ((Conn × σ) × Label)}
    (h : TSys.Meets (fun _ l => Label.calls l = []) tr) : calls tr = [] := by
  rw [calls, List.flatMap_eq_nil_iff]
  exact h

/-- A call that was entered can be brought to its return. -/
theorem Goes.settles (hsend : Sends send place) (h : Goes B db₀ place qs s es) :
    ∃ tr s', (system send B).Run s tr s' ∧ calls tr = [] ∧
      (∃ es, Goes B db₀ place qs s' es) ∧ s'.1.Settled := by
  have hstep : ∀ s l s', (∃ es, Goes B db₀ place qs s es) → Label.calls l = [] →
      (system send B).step s l = some s' →
      (∃ es, Goes B db₀ place qs s' es) ∧ work s' < work s := by
    rintro s l s' ⟨es, r, hr, hes⟩ hl hstep
    have hnext := hr.step hsend hes hstep
    rw [hl, List.append_nil] at hnext
    exact ⟨⟨_, hnext⟩, step_work ⟨r, hr, hes⟩ hl hstep⟩
  have hgo : ∀ s, (∃ es, Goes B db₀ place qs s es) → ¬ s.1.Settled →
      ∃ l s', Label.calls l = [] ∧ (system send B).step s l = some s' := by
    rintro s ⟨es, h⟩ hopen
    exact h.goes hopen
  obtain ⟨tr, s', hrun, hmeets, hgoes, hsettled⟩ := TSys.reaches work hstep hgo ⟨es, h⟩
  exact ⟨tr, s', hrun, calls_of_meets hmeets, hgoes, hsettled⟩

/-- A client in no call has made its calls one after the other. -/
theorem Goes.done (h : Goes B db₀ place qs s es) (hidle : s.1.client.pc = .idle) :
    Done (exec B) db₀ qs s.1.client.history s.2 := by
  obtain ⟨r, h, -⟩ := h
  cases r with
  | rest => exact h.done
  | asked x =>
    obtain ⟨q, -, h⟩ := h
    rcases h.pc with hpc | ⟨-, hpc⟩
    · exact absurd (hpc.symm.trans hidle) (ofCall_ne_idle q)
    · exact nomatch hpc.symm.trans hidle
  | taken x =>
    rcases h.2.pc with hpc | hpc
    · exact nomatch hpc.symm.trans hidle
    · exact nomatch hpc.symm.trans hidle
  | answered x a =>
    obtain ⟨q, m, -, -, h⟩ := h
    exact nomatch h.pc.symm.trans hidle

/-- Only `SendClose` makes the clerk leave its loop. -/
theorem Goes.running (h : Goes B db₀ place qs s es) (hno : Call.close ∉ qs) :
    s.1.clerk = .running := by
  obtain ⟨r, h, -⟩ := h
  cases r with
  | rest => exact h.clerk
  | asked x =>
    obtain ⟨q, -, h⟩ := h
    exact h.clerk
  | taken x =>
    obtain ⟨before, rfl, -⟩ := h.2.done
    exact absurd (by simp) hno
  | answered x a =>
    obtain ⟨q, m, -, -, h⟩ := h
    exact h.clerk

end

/-- Between calls that went through one after the other. -/
structure Between (B : DBType σ) (db₀ : σ) (place : Place) (qs : List Call) (s : Conn × σ) :
    Prop where
  goes : ∃ es, Goes B db₀ place qs s es
  no_close : Call.close ∉ qs
  idle : s.1.client.pc = .idle

variable {B : DBType σ} {db₀ : σ} {send : Send} {place : Place} {qs : List Call} {s : Conn × σ}

theorem Between.next (hsend : Sends send place) (h : Between B db₀ place qs s) {q : Call}
    (hq : q ≠ .close) : ∃ tr s', (system send B).Run s tr s' ∧ calls tr = [q] ∧
      Between B db₀ place (qs ++ [q]) s' := by
  obtain ⟨es, r, hr, hes⟩ := h.goes
  -- the client enters the call
  obtain ⟨s₁, hcall⟩ : ∃ s₁, step send B s (.call q) = some s₁ := by
    simp [step, h.idle]
  have hone : (system send B).Run s [(s, .call q)] s₁ := TSys.Run.nil.snoc hcall
  have hgoes := hr.step hsend hes hcall
  -- and the connection brings it to its return
  obtain ⟨tr, s', hrun, hcalls, hgoes', hsettled⟩ := hgoes.settles hsend
  have hno : Call.close ∉ qs ++ [q] := by
    rw [List.mem_append, List.mem_singleton]
    exact not_or.mpr ⟨h.no_close, hq.symm⟩
  obtain ⟨es', hes'⟩ := hgoes'
  refine ⟨[(s, .call q)] ++ tr, s', hone.trans hrun, ?_, ⟨es', hes'⟩, hno,
    hsettled.resolve_right (absurd (hes'.running hno))⟩
  show q :: calls tr = [q]
  rw [hcalls]

/-- Every sequence of calls can be made, each to its return. -/
theorem exists_run (hsend : Sends send place) (hinit : (system send B).init s)
    (hopen : ∀ q ∈ qs, q ≠ .close) :
    ∃ tr s', (system send B).Run s tr s' ∧ calls tr = qs ∧ s'.1.client.pc = .idle := by
  have hidle : s.1.client.pc = .idle := by
    obtain ⟨flag, m, m', ring, -, hs⟩ := hinit
    rw [hs]
    rfl
  have hstart : Between B s.2 place [] s := ⟨⟨[], run_at hsend hinit .nil⟩, by simp, hidle⟩
  have hnext : ∀ qs q s₁, q ≠ Call.close → Between B s.2 place qs s₁ →
      ∃ tr s', (system send B).Run s₁ tr s' ∧ (tr.flatMap fun p => p.2.calls) = [q] ∧
        Between B s.2 place (qs ++ [q]) s' :=
    fun qs q s₁ hq h => h.next hsend hq
  obtain ⟨tr, s', hrun, hcalls, hend⟩ := TSys.each hnext qs hopen hstart
  exact ⟨tr, s', hrun, hcalls, hend.idle⟩

/-! ## Exactly once -/

/-- Only a call asks. -/
theorem asks_stepEvents (B : DBType σ) (s : Conn × σ) (l : Label) :
    (stepEvents B s l).flatMap Event.asks = l.calls.map Seen.ofCall := by
  cases l with
  | call q => rfl
  | client =>
    show (s.1.client.readEvents s.1.link).flatMap Event.asks = []
    unfold Client.readEvents
    split <;> rfl
  | serve =>
    show (turnEvents _ _).flatMap Event.asks = []
    unfold turnEvents
    split <;> rfl
  | toClerk | toClient | leave => rfl

/-- The requests asked are those of the calls. -/
theorem asks_events (B : DBType σ) (tr : List ((Conn × σ) × Label)) :
    (events B tr).flatMap Event.asks = (calls tr).map Seen.ofCall := by
  rw [events, List.flatMap_assoc, calls, List.map_flatMap]
  simp only [asks_stepEvents]

/-- A settled connection has finished its last round. -/
theorem At.over {r : Round Seen Bytes} (h : At B db₀ place qs s r) (hsettled : s.1.Settled) :
    r.Over := by
  cases r with
  | rest => trivial
  | taken x => trivial
  | asked x =>
    obtain ⟨q, -, h⟩ := h
    rcases hsettled with hidle | hleft
    · rcases h.pc with hpc | ⟨-, hpc⟩
      · exact absurd (hpc.symm.trans hidle) (ofCall_ne_idle q)
      · exact nomatch hpc.symm.trans hidle
    · exact absurd h.clerk hleft
  | answered x a =>
    obtain ⟨q, m, -, -, h⟩ := h
    rcases hsettled with hidle | hleft
    · exact nomatch h.pc.symm.trans hidle
    · exact absurd h.clerk hleft

/-- Requests and replies of one connection. -/
theorem exactlyOnce (hsend : Sends send place) (B : DBType σ) :
    ExactlyOnce (system send B) (events B) := by
  constructor
  · intro s tr s' hinit hrun
    obtain ⟨r, -, hes⟩ := run_at hsend hinit hrun
    exact ⟨r, hes⟩
  · intro s tr s' hinit hrun
    obtain ⟨tr', s'', hrun', hcalls, -, hsettled⟩ := (run_at hsend hinit hrun).settles hsend
    obtain ⟨r, hat, hes⟩ := run_at hsend hinit (hrun.trans hrun')
    refine ⟨tr', s'', hrun', ?_, r, hes, hat.over hsettled⟩
    rw [asks_events, hcalls]
    rfl

/-- With persistent memory, a record is in the write buffer when the clerk takes the request. -/
theorem Goes.record_arrived {es : List (Event Seen Bytes)} (h : Goes B db₀ pmemPlace qs s es)
    (hflag : s.1.link.clerk.header = clientDone) {r : Record}
    (hpc : s.1.client.pc = .waiting (.write r)) :
    s.1.link.ring.read (s.1.client.bufHead - r.length) r.encode.length = r.encode := by
  obtain ⟨rd, h, -⟩ := h
  cases rd with
  | rest => exact absurd hflag h.link.clerk_flag
  | asked x =>
    obtain ⟨q, -, h⟩ := h
    have hq : q = .write r := by
      rcases h.pc with hq | ⟨-, hq⟩
      · exact (ofCall_inj_waiting (hq.symm.trans hpc)).1
      · exact nomatch hq.symm.trans hpc
    subst hq
    exact (h.link.complete (h.link.arrived hflag)).ring (s.1.client.bufHead - r.length, r.encode)
      rfl
  | taken x =>
    rcases h.2.pc with hpc' | hpc' <;> rw [hpc] at hpc' <;> cases hpc'
  | answered x a =>
    obtain ⟨q, m, -, -, h⟩ := h
    exact absurd (h.link.clerk_flag.symm.trans hflag) clerkDone_ne_clientDone

end LogDirect.Sync
