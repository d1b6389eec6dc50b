import LogDirect.Group.Books

/-!
# Group commit: exactly once and in order

For every interleaving of any number of clerks: what is pushed on the queue goes,
in that order, through calls of `PutBatch`, each request in one of them; a clerk
posts its reply after that call has returned; and one clerk at a time has the
static batch.
-/

namespace LogDirect.Group

open Lib Exchange
open Sync (Seen)

variable {ι σ : Type} [DecidableEq ι]

namespace Server

variable {B : DBType σ} {s s' : Server ι σ} {P A : List (ι × Seen)} {G : List (List (ι × Seen))}
  {R : List WriteBatch}

/-- One step. -/
theorem Moves.ledger {l : Label ι} (h : s.Moves B l s') (ho : s.Orderly)
    (hf : ∀ j, ∃ es, (s.conns j).Follows es) (hl : s.Ledger P G R A) :
    s'.Ledger (P ++ pushedBy s l) (G ++ groupedBy s l) (R ++ returnedBy s l)
      (A ++ repliedBy s l) := by
  cases h with
  | @call i q hidle =>
    simp only [pushedBy, groupedBy, returnedBy, repliedBy, List.append_nil]
    obtain ⟨es, hfi⟩ := hf i
    have hpc := hfi.idle_pc hidle
    have haside : (s.conns i).clerk.pc.Aside := by
      rw [hpc]
      trivial
    exact hl.elsewhere ho s.db haside haside.not_queued fun hreply => absurd hreply
      haside.ne_replying
  | @client i p hp =>
    simp only [pushedBy, groupedBy, returnedBy, repliedBy, List.append_nil]
    obtain ⟨es, hfi⟩ := hf i
    rcases hfi.resume_pc hp with hpc | ⟨hbefore, hafter⟩
    · have haside : (s.conns i).clerk.pc.Aside := by
        rw [hpc]
        trivial
      exact hl.elsewhere ho s.db haside haside.not_queued
        fun hreply => absurd hreply haside.ne_replying
    · refine hl.quiet s.db (.inl rfl) (fun _ => congrArg LocalBuf.msg (resume_request hp)) ?_
      intro through q _
      refine iff_of_false ?_ fun hd => hbefore q hd.1
      rintro ⟨hd, -⟩
      rw [setDb_conns, set_self] at hd
      exact hafter q hd
  | @toClerk i k hk =>
    simp only [pushedBy, groupedBy, returnedBy, repliedBy, List.append_nil]
    refine hl.same rfl rfl rfl ?_
    intro hi
    obtain ⟨es, hfi⟩ := hf i
    obtain ⟨q, -, -, -, hlink⟩ := pending_call hfi ((ho.mem i).mp hi)
    obtain ⟨w, ws, hq, -⟩ := Link.deliverClerk_inv hk
    rw [hlink.toClerk] at hq
    cases hq
  | toClient hk =>
    simp only [pushedBy, groupedBy, returnedBy, repliedBy, List.append_nil]
    obtain ⟨w, ws, -, rfl⟩ := Link.deliverClient_inv hk
    exact hl.same rfl rfl rfl fun _ => rfl
  | @take i hpc =>
    simp only [pushedBy, groupedBy, returnedBy, repliedBy, List.append_nil]
    refine hl.elsewhere ho s.db (by rw [hpc]; trivial) id ?_
    intro hreply
    cases hreply
  | @close i hpc hop =>
    have hno : ¬ Logged (Request.op (s.conns i).request) := fun hlog => hlog.1 hop
    simp only [pushedBy, groupedBy, returnedBy, repliedBy, if_neg hno, List.append_nil]
    refine hl.elsewhere ho s.db (by rw [hpc]; trivial) id ?_
    intro hreply
    cases hreply
  | @get i m db hpc hop =>
    have hno : ¬ Logged (Request.op (s.conns i).request) := fun hlog => hlog.2.1 hop
    simp only [pushedBy, groupedBy, returnedBy, repliedBy, if_neg hno, List.append_nil]
    obtain ⟨es, hfi⟩ := hf i
    exact hl.elsewhere ho db (by rw [hpc]; trivial) id fun _ => hfi.serving_call hpc hno
  | @sync i hpc hop =>
    have hno : ¬ Logged (Request.op (s.conns i).request) := fun hlog => hlog.2.2 hop
    simp only [pushedBy, groupedBy, returnedBy, repliedBy, if_neg hno, List.append_nil]
    obtain ⟨es, hfi⟩ := hf i
    exact hl.elsewhere ho _ (by rw [hpc]; trivial) id fun _ => hfi.serving_call hpc hno
  | @push i hpc hlogged =>
    simp only [pushedBy, groupedBy, returnedBy, repliedBy, if_pos hlogged, List.append_nil]
    exact hl.push ho (ho.not_mem (by rw [hpc]; exact id)) hpc
  | @done i hpc hdone =>
    simp only [pushedBy, groupedBy, returnedBy, repliedBy, List.append_nil]
    have hi := ho.not_mem_of_done hpc hdone
    refine hl.quiet s.db (.inr ⟨id, by rw [hpc]; exact id⟩) (fun hi' => absurd hi' hi) ?_
    intro through q _
    rw [Due, setDb_conns, set_self, Due, hpc, hdone]
    simp [Conn.replies]
  | @lead i hpc hdone hfront =>
    simp only [pushedBy, groupedBy, returnedBy, repliedBy, List.append_nil]
    refine hl.quiet s.db (.inr ⟨id, by rw [hpc]; exact id⟩) (fun _ => rfl) ?_
    intro through q _
    rw [Due, setDb_conns, set_self, Due, hpc, hdone]
    simp [Conn.goto]
  | sleep hpc hdone hfront =>
    simp only [pushedBy, groupedBy, returnedBy, repliedBy, List.append_nil]
    exact hl.same rfl rfl rfl fun _ => rfl
  | build hpc hbuild =>
    simp only [pushedBy, groupedBy, returnedBy, repliedBy, List.append_nil]
    exact hl.build ho hpc hbuild
  | putBatch hpc =>
    simp only [pushedBy, groupedBy, returnedBy, repliedBy, List.append_nil]
    exact hl.putBatch ho hf hpc _
  | complete hpc hloop =>
    simp only [pushedBy, groupedBy, returnedBy, repliedBy, List.append_nil]
    exact hl.complete ho hpc hloop
  | reply hpc =>
    simp only [pushedBy, groupedBy, returnedBy, repliedBy, List.append_nil]
    exact hl.reply ho hpc
  | @leave i hpc =>
    simp only [pushedBy, groupedBy, returnedBy, repliedBy, List.append_nil]
    refine hl.elsewhere ho s.db (by rw [hpc]; trivial) id ?_
    intro hreply
    cases hreply

theorem init_ledger (h : (system B).init s) : s.Ledger [] [] [] [] := by
  have hfresh : ∀ i, (s.conns i).client.pc = .idle ∧ (s.conns i).clerk.pc = .running := by
    intro i
    obtain ⟨flag, m, m', ring, -, hs⟩ := h.2 i
    rw [hs]
    exact ⟨rfl, rfl⟩
  refine ⟨[], [], 0, .idle ?_, ?_, fun hne => absurd rfl hne, rfl, .nil, ?_, fun _ _ => rfl⟩
  · intro i hi
    rw [(hfresh i).2] at hi
    exact hi
  · rw [h.1]
    rfl
  · rintro i q ⟨hd, -⟩
    rw [(hfresh i).1] at hd
    cases hd

/-- A run. -/
theorem run_ledger {tr : List (Server ι σ × Label ι)} (hinit : (system B).init s)
    (hrun : (system B).Run s tr s') :
    s'.Ledger (pushed tr) (groups tr) (returned tr) (replied tr) := by
  induction hrun with
  | nil => exact init_ledger hinit
  | snoc hr hstep ih =>
    have hnext := (step_moves hstep).ledger (run_orderly hinit hr)
      (fun j => ⟨_, run_follows hinit hr j⟩) ih
    simpa [pushed, groups, returned, replied] using hnext

end Server

/-! ## The result -/

/-- What a run that ends in `s` has done with the requests to be logged. -/
structure CommitsOnce (B : DBType σ) (tr : List (Server ι σ × Label ι)) (s : Server ι σ) :
    Prop where
  /-- The groups, one after the other, are what was pushed, in the order of the pushes, up to
  what is still on the queue. -/
  order : ∃ rest, rest <:+ s.writersQueue ∧ pushed tr = (groups tr).flatten ++ rest.map s.item
  /-- The calls of `PutBatch` that returned had the groups, one each; one may be under way. -/
  calls : List.Forall₂ Batched ((groups tr).take (returned tr).length) (returned tr)
  under_way : (groups tr).length ≤ (returned tr).length + 1
  /-- With nothing on the queue, all that was pushed is through. -/
  all : s.writersQueue = [] → pushed tr = (groups tr).flatten ∧
    (returned tr).length = (groups tr).length
  /-- What a clerk has answered is through. -/
  replies : ∀ i, ofClerk i (replied tr) <+:
    ofClerk i ((groups tr).take (returned tr).length).flatten
  /-- One clerk at a time builds the batch or writes it. -/
  alone : ∀ i j, (s.conns i).clerk.pc.Leads → (s.conns j).clerk.pc.Leads → i = j
  /-- The clerk at the front is not stuck. -/
  goes : ∀ i, s.writersQueue.head? = some i →
    ((s.conns i).clerk.pc = .waiting → (s.conns i).clerk.signalled = true) ∧
      ∃ l ∈ [Label.wake i, .build i, .putBatch i, .complete i], (s.step B l).isSome

/-- Exactly once and in order, in every run. -/
theorem commits_once {B : DBType σ} {s₀ s : Server ι σ} {tr : List (Server ι σ × Label ι)}
    (hinit : (system B).init s₀) (hrun : (system B).Run s₀ tr s) : CommitsOnce B tr s := by
  have ho := Server.run_orderly hinit hrun
  obtain ⟨grp, through, k, hstage, hbooks⟩ := Server.run_ledger hinit hrun
  have hk : k ≤ 1 := by
    cases hstage <;> omega
  refine ⟨⟨_, List.drop_suffix grp.length _, hbooks.pushed⟩, hbooks.batches, ?_, ?_, ?_,
    fun i j hi hj => ho.one_leader hi hj, fun i hi => ho.front_goes B hi⟩
  · have := hbooks.returned
    omega
  · intro hnil
    have hpushed := hbooks.pushed
    rw [hnil, List.drop_nil, List.map_nil, List.append_nil] at hpushed
    refine ⟨hpushed, ?_⟩
    -- a clerk that writes is on the queue
    have hidle : ∀ i, ¬ (s.conns i).clerk.pc.Writes := by
      intro i hi
      have hhead := ho.lead i hi.leads
      rw [hnil] at hhead
      cases hhead
    cases hstage with
    | idle => exact hbooks.returned
    | @writing i w hi => exact absurd (by rw [hi]; trivial) (hidle i)
    | written => exact hbooks.returned
  · intro i
    by_cases hd : ∃ q, s.Due through i q
    · obtain ⟨q, hd⟩ := hd
      rw [hbooks.due i q hd]
      exact List.prefix_append _ _
    · have hsettled := hbooks.settled i fun q hq => hd ⟨q, hq⟩
      exact hsettled ▸ List.prefix_refl _

/-- A server nobody has called yet. -/
def idle : Server Bool DB where
  conns _ := .fresh 0 (fun _ => 0) (fun _ => 0) fun _ => 0
  writersQueue := []
  batch := ⟨0, [], [], fun _ => 0⟩
  db _ := none

theorem letter_isWrite : Operation.put = .put ∨ Operation.put = .update := .inl rfl

theorem zero_notMem_one : (0 : UInt8) ∉ [(1 : UInt8)] := by decide

theorem letter_fits : sizeofRequest + [(1 : UInt8)].length + [(1 : UInt8)].length ≤
    maxRequest := by decide

/-- A `PUT` of one byte under one byte. -/
def letter : Record where
  op := .put
  key := [1]
  val := [1]
  isWrite := letter_isWrite
  key_cstr := zero_notMem_one
  val_cstr := zero_notMem_one
  fits := letter_fits

/-- Two clients, one batch. -/
theorem commits_once_two : ∃ tr s, (system DB.dbType).init idle ∧
    (system DB.dbType).Run idle tr s ∧ (pushed tr).length = 2 ∧ (returned tr).length = 1 ∧
    CommitsOnce DB.dbType tr s := by
  have hinit : (system DB.dbType).init idle :=
    ⟨rfl, fun i => ⟨0, _, _, _, by decide, rfl⟩⟩
  obtain ⟨tr, s, htr, htwo, hone⟩ : ∃ tr s, (system DB.dbType).trace idle
      [.call false (.write letter), .call true (.write letter), .toClerk false, .toClerk false,
        .toClerk true, .toClerk true, .take false, .take true, .serve false, .serve true,
        .build false, .putBatch false, .complete false, .wake true, .reply false, .reply true] =
      some (tr, s) ∧ (pushed tr).length = 2 ∧ (returned tr).length = 1 := by
    refine ⟨_, _, rfl, ?_, ?_⟩
    · rfl
    · rfl
  have hrun := TSys.run_of_trace htr
  exact ⟨tr, s, hinit, hrun, htwo, hone, commits_once hinit hrun⟩

end LogDirect.Group
