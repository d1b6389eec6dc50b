import LogDirect.Group.Queue
import Mathlib.Data.List.Nodup

/-!
# Group commit: the books

From a run one reads off which requests were pushed on the queue, which groups
`BuildBatchGroup` made of them, with which batches `PutBatch` returned, and which
requests to be logged were answered. `Books` relates the four lists to the state:
what is pushed is in a group or still on the queue; every group but one under way
is through `PutBatch`; a clerk has answered what is through, except for a request
whose reply is due.
-/

namespace LogDirect.Group

open Lib Exchange
open Sync (Seen requestVal)

variable {ι σ : Type}

instance (op : Option Operation) : Decidable (Logged op) :=
  inferInstanceAs (Decidable (_ ∧ _ ∧ _))

instance (q : Call) : Decidable (LoggedCall q) := inferInstanceAs (Decidable (Logged _))

/-! ## What a run does -/

/-- The request of a clerk. -/
def Server.item (s : Server ι σ) (j : ι) : ι × Seen := (j, .ofMem (s.conns j).request)

/-- The group that `BuildBatchGroup` makes: as many writers as the batch has keys. -/
def Server.buildGroup (s : Server ι σ) : List ι :=
  s.writersQueue.take
    (buildBatchGroup (fun j => (s.conns j).request) s.batch s.writersQueue).1.keys.length

/-- The request a step pushes. -/
def pushedBy (s : Server ι σ) : Label ι → List (ι × Seen)
  | .serve i => if Logged (Request.op (s.conns i).request) then [s.item i] else []
  | _ => []

/-- The group a step makes. -/
def groupedBy (s : Server ι σ) : Label ι → List (List (ι × Seen))
  | .build _ => [s.buildGroup.map s.item]
  | _ => []

/-- The batch with which `PutBatch` returns. -/
def returnedBy (s : Server ι σ) : Label ι → List WriteBatch
  | .putBatch _ => [s.batch]
  | _ => []

/-- A request that was to be logged, of which the client waits for the reply. -/
def Conn.logged (i : ι) (c : Conn ι) : List (ι × Seen) :=
  match c.client.pc with
  | .waiting q => if LoggedCall q then [(i, .ofCall q)] else []
  | _ => []

/-- The request to be logged that a step answers. -/
def repliedBy (s : Server ι σ) : Label ι → List (ι × Seen)
  | .reply i => (s.conns i).logged i
  | _ => []

/-- The requests pushed in a run. -/
def pushed (tr : List (Server ι σ × Label ι)) : List (ι × Seen) :=
  tr.flatMap fun p => pushedBy p.1 p.2

/-- The groups made in a run. -/
def groups (tr : List (Server ι σ × Label ι)) : List (List (ι × Seen)) :=
  tr.flatMap fun p => groupedBy p.1 p.2

/-- The batches of the calls of `PutBatch` that returned. -/
def returned (tr : List (Server ι σ × Label ι)) : List WriteBatch :=
  tr.flatMap fun p => returnedBy p.1 p.2

/-- The requests to be logged that were answered. -/
def replied (tr : List (Server ι σ × Label ι)) : List (ι × Seen) :=
  tr.flatMap fun p => repliedBy p.1 p.2

/-- The pair of a request. -/
def pair (x : ι × Seen) : Bytes × Bytes := (x.2.key, x.2.val)

/-- The batch holds the pairs of the group, in order. -/
def Batched (g : List (ι × Seen)) (b : WriteBatch) : Prop := b.entries = g.map pair

/-! ## Stages of the queue -/

/-- With no request to be logged, and no reply to send. -/
def ClerkPc.Aside : ClerkPc ι → Prop
  | .running | .serving | .closing | .closed => True
  | .waiting | .pausing | .writing _ | .written _ | .replying => False

theorem ClerkPc.Aside.not_queued {pc : ClerkPc ι} (h : pc.Aside) : ¬ pc.Queued := by
  cases pc with
  | running | serving | closing | closed => exact id
  | waiting | pausing | writing | written | replying => exact h.elim

theorem ClerkPc.Aside.ne_replying {pc : ClerkPc ι} (h : pc.Aside) : pc ≠ .replying := by
  rintro rfl
  exact h

namespace Server

/-- The group under way, those of it that are through `PutBatch`, and how many calls of
`PutBatch` have not returned. -/
inductive Stage (s : Server ι σ) : List ι → List ι → Nat → Prop
  | idle : (∀ i, ¬ (s.conns i).clerk.pc.Writes) → Stage s [] [] 0
  | writing {i w} : (s.conns i).clerk.pc = .writing w →
      Stage s (s.writersQueue.take s.batch.keys.length) [] 1
  | written {i w} : (s.conns i).clerk.pc = .written w →
      Stage s (s.writersQueue.take s.batch.keys.length)
        (s.writersQueue.take s.batch.keys.length) 0

variable {s s' : Server ι σ} {grp through : List ι} {k : Nat}

theorem Stage.grp_mem (h : s.Stage grp through k) : ∀ j ∈ grp, j ∈ s.writersQueue := by
  intro j hj
  cases h with
  | idle => cases hj
  | writing => exact List.mem_of_mem_take hj
  | written => exact List.mem_of_mem_take hj

theorem Stage.through_mem (h : s.Stage grp through k) : ∀ j ∈ through, j ∈ s.writersQueue := by
  intro j hj
  cases h with
  | idle => cases hj
  | writing => cases hj
  | written => exact List.mem_of_mem_take hj

theorem Stage.length_le (h : s.Stage grp through k) : grp.length ≤ s.writersQueue.length := by
  cases h with
  | idle => exact Nat.zero_le _
  | writing => exact List.length_take_le' ..
  | written => exact List.length_take_le' ..

/-- Nothing happens to the queue, the batch and the clerks that write. -/
theorem Stage.congr (h : s.Stage grp through k) (hqueue : s'.writersQueue = s.writersQueue)
    (hbatch : s'.batch = s.batch)
    (hpc : ∀ j, (s'.conns j).clerk.pc = (s.conns j).clerk.pc ∨
      ¬ (s'.conns j).clerk.pc.Writes ∧ ¬ (s.conns j).clerk.pc.Writes) : s'.Stage grp through k := by
  cases h with
  | idle hno =>
    refine .idle ?_
    intro j hj
    rcases hpc j with hj' | ⟨hj', -⟩
    · rw [hj'] at hj
      exact hno j hj
    · exact hj' hj
  | @writing j w hj =>
    rcases hpc j with hj' | ⟨-, hj'⟩
    · rw [← hqueue, ← hbatch]
      exact .writing (hj'.trans hj)
    · rw [hj] at hj'
      exact absurd trivial hj'
  | @written j w hj =>
    rcases hpc j with hj' | ⟨-, hj'⟩
    · rw [← hqueue, ← hbatch]
      exact .written (hj'.trans hj)
    · rw [hj] at hj'
      exact absurd trivial hj'

variable {i : ι}

/-- Before a clerk that leads makes its group, there is none. -/
theorem Stage.pausing (h : s.Stage grp through k) (ho : s.Orderly)
    (hpc : (s.conns i).clerk.pc = .pausing) : grp = [] ∧ through = [] ∧ k = 0 := by
  cases h with
  | idle => exact ⟨rfl, rfl, rfl⟩
  | @writing j w hj =>
    have hji := ho.one_leader (i := j) (j := i) (by rw [hj]; trivial) (by rw [hpc]; trivial)
    rw [hji, hpc] at hj
    cases hj
  | @written j w hj =>
    have hji := ho.one_leader (i := j) (j := i) (by rw [hj]; trivial) (by rw [hpc]; trivial)
    rw [hji, hpc] at hj
    cases hj

theorem Stage.of_writing (h : s.Stage grp through k) (ho : s.Orderly) {w : ι}
    (hpc : (s.conns i).clerk.pc = .writing w) :
    grp = s.writersQueue.take s.batch.keys.length ∧ through = [] ∧ k = 1 := by
  cases h with
  | idle hno => exact absurd (by rw [hpc]; trivial) (hno i)
  | writing => exact ⟨rfl, rfl, rfl⟩
  | @written j w' hj =>
    have hji := ho.one_leader (i := j) (j := i) (by rw [hj]; trivial) (by rw [hpc]; trivial)
    rw [hji, hpc] at hj
    cases hj

theorem Stage.of_written (h : s.Stage grp through k) (ho : s.Orderly) {w : ι}
    (hpc : (s.conns i).clerk.pc = .written w) : grp = s.writersQueue.take s.batch.keys.length ∧
      through = s.writersQueue.take s.batch.keys.length ∧ k = 0 := by
  cases h with
  | idle hno => exact absurd (by rw [hpc]; trivial) (hno i)
  | @writing j w' hj =>
    have hji := ho.one_leader (i := j) (j := i) (by rw [hj]; trivial) (by rw [hpc]; trivial)
    rw [hji, hpc] at hj
    cases hj
  | written => exact ⟨rfl, rfl, rfl⟩

/-- The request of the call is through `PutBatch` and its reply has not been posted. -/
def Due (s : Server ι σ) (through : List ι) (i : ι) (q : Call) : Prop :=
  (s.conns i).client.pc = .waiting q ∧ LoggedCall q ∧
    ((s.conns i).clerk.pc = .replying ∨
      (s.conns i).clerk.pc = .waiting ∧ (s.conns i).clerk.done = true ∨ i ∈ through)

/-- From a clerk aside no reply is due. -/
theorem not_due (hthrough : ∀ j ∈ through, j ∈ s.writersQueue) (hi : i ∉ s.writersQueue)
    (hpc : (s.conns i).clerk.pc.Aside) (q : Call) : ¬ s.Due through i q := by
  rintro ⟨-, -, hd | ⟨hd, -⟩ | hd⟩
  · rw [hd] at hpc
    exact hpc
  · rw [hd] at hpc
    exact hpc
  · exact hi (hthrough i hd)

/-- Of a request on the queue that is not through, no reply is due. -/
theorem Orderly.not_due_of_mem (ho : s.Orderly) {j : ι} (hj : j ∈ s.writersQueue) (q : Call) :
    ¬ s.Due [] j q := by
  rintro ⟨-, -, hd | ⟨hd, hdone⟩ | hd⟩
  · exact ho.not_mem (by rw [hd]; exact id) hj
  · exact ho.not_mem_of_done hd hdone hj
  · cases hd

/-- Whether a reply is due depends on the connection only. -/
theorem due_congr {j : ι} (h : s'.conns j = s.conns j) (through : List ι) (q : Call) :
    s'.Due through j q ↔ s.Due through j q := by
  rw [Due, h, Due]

end Server

/-! ## Books -/

section Books

variable [DecidableEq ι]

/-- The requests of one clerk. -/
def ofClerk (i : ι) (xs : List (ι × Seen)) : List (ι × Seen) := xs.filter fun x => x.1 = i

@[simp] theorem ofClerk_append (i : ι) (xs ys : List (ι × Seen)) :
    ofClerk i (xs ++ ys) = ofClerk i xs ++ ofClerk i ys := by
  simp [ofClerk]

/-- Of clerks that are all different, one has one request. -/
theorem ofClerk_map_mem {i : ι} {ws : List ι} (s : Server ι σ) (hnodup : ws.Nodup) (hi : i ∈ ws) :
    ofClerk i (ws.map s.item) = [s.item i] := by
  have hfilter : (ws.map s.item).filter (fun x => x.1 = i) =
      (ws.filter fun j => j = i).map s.item := by
    rw [List.filter_map]
    rfl
  rw [ofClerk, hfilter, List.filter_eq, List.count_eq_one_of_mem hnodup hi]
  rfl

theorem ofClerk_map_notMem {i : ι} {ws : List ι} (s : Server ι σ) (hi : i ∉ ws) :
    ofClerk i (ws.map s.item) = [] := by
  rw [ofClerk, List.filter_eq_nil_iff]
  intro x hx
  obtain ⟨j, hj, rfl⟩ := List.mem_map.mp hx
  intro hji
  have hji : j = i := of_decide_eq_true hji
  exact hi (hji ▸ hj)

/-- A clerk answers its own requests. -/
theorem ofClerk_logged (i j : ι) (c : Conn ι) :
    ofClerk j (c.logged i) = if j = i then c.logged i else [] := by
  unfold Conn.logged
  split
  · split
    · by_cases hj : j = i
      · simp [ofClerk, hj]
      · simp [ofClerk, hj, Ne.symm hj]
    · exact (ite_self _).symm
  · exact (ite_self _).symm

namespace Server

/-- The lists of a run against the state. -/
structure Books (s : Server ι σ) (grp through : List ι) (k : Nat) (P : List (ι × Seen))
    (G : List (List (ι × Seen))) (R : List WriteBatch) (A : List (ι × Seen)) : Prop where
  pushed : P = G.flatten ++ (s.writersQueue.drop grp.length).map s.item
  current : grp ≠ [] → ∃ G', G = G' ++ [grp.map s.item]
  returned : R.length + k = G.length
  batches : List.Forall₂ Batched (G.take R.length) R
  due : ∀ i q, s.Due through i q →
    ofClerk i (G.take R.length).flatten = ofClerk i A ++ [(i, .ofCall q)]
  settled : ∀ i, (∀ q, ¬ s.Due through i q) →
    ofClerk i (G.take R.length).flatten = ofClerk i A

/-- The books of a run are in order. -/
def Ledger (s : Server ι σ) (P : List (ι × Seen)) (G : List (List (ι × Seen)))
    (R : List WriteBatch) (A : List (ι × Seen)) : Prop :=
  ∃ grp through k, s.Stage grp through k ∧ s.Books grp through k P G R A

variable {s s' : Server ι σ} {grp through : List ι} {k : Nat} {P A : List (ι × Seen)}
  {G : List (List (ι × Seen))} {R : List WriteBatch}

/-- Nothing happens to the requests on the queue: they stand in the books as before. -/
theorem Books.pushed_congr (h : s.Books grp through k P G R A)
    (hitem : ∀ j ∈ s.writersQueue, s'.item j = s.item j) :
    P = G.flatten ++ (s.writersQueue.drop grp.length).map s'.item := by
  rw [h.pushed]
  refine congrArg _ (List.map_congr_left ?_)
  intro j hj
  exact (hitem j (List.mem_of_mem_drop hj)).symm

theorem Books.current_congr (h : s.Books grp through k P G R A)
    (hitem : ∀ j ∈ s.writersQueue, s'.item j = s.item j) (hgrp : ∀ j ∈ grp, j ∈ s.writersQueue)
    (hne : grp ≠ []) : ∃ G', G = G' ++ [grp.map s'.item] := by
  obtain ⟨G', hG⟩ := h.current hne
  refine ⟨G', hG.trans ?_⟩
  rw [List.map_congr_left fun j hj => hitem j (hgrp j hj)]

/-- Nothing happens to the requests on the queue and to the replies that are due. -/
theorem Books.congr (h : s.Books grp through k P G R A) (hqueue : s'.writersQueue = s.writersQueue)
    (hitem : ∀ j ∈ s.writersQueue, s'.item j = s.item j) (hgrp : ∀ j ∈ grp, j ∈ s.writersQueue)
    (hdue : ∀ i q, s'.Due through i q ↔ s.Due through i q) : s'.Books grp through k P G R A := by
  refine ⟨?_, h.current_congr hitem hgrp, h.returned, h.batches, ?_, ?_⟩
  · rw [hqueue]
    exact h.pushed_congr hitem
  · intro i q hd
    exact h.due i q ((hdue i q).mp hd)
  · intro i hd
    exact h.settled i fun q hq => hd q ((hdue i q).mpr hq)

variable {i w : ι} {c : Conn ι}

/-- A step of one clerk that is none of the queue's business. -/
theorem Ledger.quiet (h : s.Ledger P G R A) (db : σ)
    (hpc : c.clerk.pc = (s.conns i).clerk.pc ∨ ¬ c.clerk.pc.Writes ∧ ¬ (s.conns i).clerk.pc.Writes)
    (hreq : i ∈ s.writersQueue → c.request = (s.conns i).request)
    (hdue : ∀ through q, (∀ j ∈ through, j ∈ s.writersQueue) →
      (((s.set i c).setDb db).Due through i q ↔ s.Due through i q)) :
    ((s.set i c).setDb db).Ledger P G R A := by
  obtain ⟨grp, through, k, hstage, hbooks⟩ := h
  have hconn : ∀ j, j ≠ i → ((s.set i c).setDb db).conns j = s.conns j :=
    fun j hj => set_other s _ hj
  have hself : ((s.set i c).setDb db).conns i = c := set_self s i c
  refine ⟨grp, through, k, hstage.congr rfl rfl ?_, hbooks.congr rfl ?_ hstage.grp_mem ?_⟩
  · intro j
    by_cases hj : j = i
    · subst hj
      rw [hself]
      exact hpc
    · rw [hconn j hj]
      exact .inl rfl
  · intro j hj
    by_cases hji : j = i
    · subst hji
      rw [item, hself, hreq hj, item]
    · rw [item, hconn j hji, item]
  · intro j q
    by_cases hji : j = i
    · subst hji
      exact hdue through q hstage.through_mem
    · exact due_congr (hconn j hji) through q

/-- A request is pushed. -/
theorem Ledger.push (h : s.Ledger P G R A) (ho : s.Orderly) (hi : i ∉ s.writersQueue)
    (hpc : (s.conns i).clerk.pc = .serving) : (s.push i).Ledger (P ++ [s.item i]) G R A := by
  obtain ⟨grp, through, k, hstage, hbooks⟩ := h
  have hconn : ∀ j, j ≠ i → (s.push i).conns j = s.conns j :=
    fun j hj => Function.update_of_ne hj ..
  obtain ⟨pc, hpc', hself⟩ : ∃ pc, (pc = .pausing ∨ pc = .waiting) ∧
      (s.push i).conns i = (s.conns i).push pc := by
    refine ⟨_, ?_, Function.update_self ..⟩
    split
    · exact .inl rfl
    · exact .inr rfl
  have hitem : ∀ j, (s.push i).item j = s.item j := by
    intro j
    by_cases hj : j = i
    · subst hj
      rw [item, hself, item]
      rfl
    · rw [item, hconn j hj, item]
  have htake : ∀ {j w}, (s.conns j).clerk.pc = .writing w ∨ (s.conns j).clerk.pc = .written w →
      (s.push i).writersQueue.take (s.push i).batch.keys.length =
        s.writersQueue.take s.batch.keys.length := by
    intro j w hj
    exact List.take_append_of_le_length (ho.group j w hj).le
  have hdue : ∀ j q, (s.push i).Due through j q ↔ s.Due through j q := by
    intro j q
    by_cases hji : j = i
    · subst hji
      have hthrough : j ∉ through := fun hj => hi (hstage.through_mem j hj)
      refine iff_of_false ?_ ?_
      · rintro ⟨-, -, hd | ⟨-, hd⟩ | hd⟩
        · rw [hself] at hd
          rcases hpc' with rfl | rfl <;> cases hd
        · rw [hself] at hd
          cases hd
        · exact hthrough hd
      · exact not_due hstage.through_mem hi (by rw [hpc]; trivial) q
    · exact due_congr (hconn j hji) through q
  refine ⟨grp, through, k, ?_, ?_, ?_, hbooks.returned, hbooks.batches, ?_, ?_⟩
  · cases hstage with
    | idle hno =>
      refine .idle ?_
      intro j hj
      by_cases hji : j = i
      · subst hji
        rw [hself] at hj
        rcases hpc' with rfl | rfl
        · exact hj
        · exact hj
      · rw [hconn j hji] at hj
        exact hno j hj
    | @writing j w hj =>
      rw [← htake (.inl hj)]
      refine .writing (i := j) (w := w) ?_
      rw [hconn j (by rintro rfl; rw [hpc] at hj; cases hj)]
      exact hj
    | @written j w hj =>
      rw [← htake (.inr hj)]
      refine .written (i := j) (w := w) ?_
      rw [hconn j (by rintro rfl; rw [hpc] at hj; cases hj)]
      exact hj
  · show P ++ [s.item i] =
      G.flatten ++ ((s.writersQueue ++ [i]).drop grp.length).map (s.push i).item
    rw [List.map_congr_left fun j _ => hitem j, List.drop_append_of_le_length hstage.length_le,
      List.map_append, ← List.append_assoc, ← hbooks.pushed]
    rfl
  · rw [List.map_congr_left fun j _ => hitem j]
    exact hbooks.current
  · intro j q hd
    exact hbooks.due j q ((hdue j q).mp hd)
  · intro j hd
    exact hbooks.settled j fun q hq => hd q ((hdue j q).mpr hq)

theorem goto_item (s : Server ι σ) (i j : ι) (pc : ClerkPc ι) :
    (s.set i ((s.conns i).goto pc)).item j = s.item j := by
  rw [item, goto_request, item]

/-- `BuildBatchGroup` makes a group of the first writers. -/
theorem Ledger.build (h : s.Ledger P G R A) (ho : s.Orderly) {b : WriteBatch}
    (hpc : (s.conns i).clerk.pc = .pausing)
    (hbuild : buildBatchGroup (fun j => (s.conns j).request) s.batch s.writersQueue = (b, some w)) :
    ((s.set i ((s.conns i).goto (.writing w))).setBatch b).Ledger P
      (G ++ [s.buildGroup.map s.item]) R A := by
  obtain ⟨grp, through, k, hstage, hbooks⟩ := h
  obtain ⟨rfl, rfl, rfl⟩ := hstage.pausing ho hpc
  obtain ⟨grp, rest, hqueue, hlen, -⟩ := buildBatchGroup_spec hbuild
  have hgroup : s.buildGroup = grp := by
    rw [buildGroup, hbuild, hqueue, hlen, List.take_left' rfl]
  have hitem : ∀ j, ((s.set i ((s.conns i).goto (.writing w))).setBatch b).item j = s.item j :=
    fun j => s.goto_item i j (.writing w)
  have hstage' : ((s.set i ((s.conns i).goto (.writing w))).setBatch b).Stage grp [] 1 := by
    have hpc' : (((s.set i ((s.conns i).goto (.writing w))).setBatch b).conns i).clerk.pc =
        .writing w := congrArg (fun c => c.clerk.pc) (set_self s i ((s.conns i).goto (.writing w)))
    have hnew := Stage.writing hpc'
    have htake : ((s.set i ((s.conns i).goto (.writing w))).setBatch b).writersQueue.take
        ((s.set i ((s.conns i).goto (.writing w))).setBatch b).batch.keys.length = grp := by
      show s.writersQueue.take b.keys.length = grp
      rw [hqueue, hlen, List.take_left' rfl]
    rwa [htake] at hnew
  have htake : (G ++ [s.buildGroup.map s.item]).take R.length = G.take R.length :=
    List.take_append_of_le_length (Nat.le_of_eq hbooks.returned)
  have hdue : ∀ j q, ((s.set i ((s.conns i).goto (.writing w))).setBatch b).Due [] j q ↔
      s.Due [] j q := by
    intro j q
    by_cases hji : j = i
    · subst hji
      have hself : ((s.set j ((s.conns j).goto (.writing w))).setBatch b).conns j =
          (s.conns j).goto (.writing w) := set_self s j _
      rw [Due, hself, Due, hpc]
      simp [Conn.goto]
    · exact due_congr (set_other s _ hji) [] q
  refine ⟨grp, [], 1, hstage', ?_, ?_, ?_, ?_, ?_, ?_⟩
  · show P = _ ++ (s.writersQueue.drop grp.length).map _
    rw [List.map_congr_left fun j _ => hitem j, hgroup, hbooks.pushed, hqueue, List.drop_left' rfl]
    simp
  · intro _
    exact ⟨G, by rw [hgroup, List.map_congr_left fun j _ => (hitem j).symm]⟩
  · rw [List.length_append, List.length_singleton, ← hbooks.returned]
  · rw [htake]
    exact hbooks.batches
  · intro j q hd
    rw [htake]
    exact hbooks.due j q ((hdue j q).mp hd)
  · intro j hd
    rw [htake]
    exact hbooks.settled j fun q hq => hd q ((hdue j q).mpr hq)

/-- `PutBatch` returns: the group is through. -/
theorem Ledger.putBatch (h : s.Ledger P G R A) (ho : s.Orderly)
    (hf : ∀ j, ∃ es, (s.conns j).Follows es) (hpc : (s.conns i).clerk.pc = .writing w) (db : σ) :
    ((s.set i ((s.conns i).goto (.written w))).setDb db).Ledger P G (R ++ [s.batch]) A := by
  obtain ⟨grp, through, k, hstage, hbooks⟩ := h
  obtain ⟨hgrp, rfl, rfl⟩ := hstage.of_writing ho hpc
  have hgroup := ho.group i w (.inl hpc)
  have hnodup : grp.Nodup := hgrp ▸ (List.take_sublist _ _).nodup ho.nodup
  have hi : i ∈ grp := hgrp ▸ ho.leader_mem (.inl hpc)
  obtain ⟨G', hG⟩ := hbooks.current (List.ne_nil_of_mem hi)
  have hlen : R.length = G'.length := by
    have hret := hbooks.returned
    rw [hG, List.length_append, List.length_singleton] at hret
    omega
  have hbefore : G.take R.length = G' := by rw [hG, hlen, List.take_left' rfl]
  have hafter : G.take (R ++ [s.batch]).length = G' ++ [grp.map s.item] := by
    rw [hG, List.length_append, hlen, List.take_of_length_le (by simp)]
  have hconn : ∀ j, j ≠ i →
      ((s.set i ((s.conns i).goto (.written w))).setDb db).conns j = s.conns j :=
    fun j hj => set_other s _ hj
  have hself : ((s.set i ((s.conns i).goto (.written w))).setDb db).conns i =
      (s.conns i).goto (.written w) := set_self s i _
  have hitem : ∀ j, ((s.set i ((s.conns i).goto (.written w))).setDb db).item j = s.item j :=
    fun j => s.goto_item i j (.written w)
  have hclient : ∀ j, (((s.set i ((s.conns i).goto (.written w))).setDb db).conns j).client =
      (s.conns j).client := fun j => s.goto_client i j (.written w)
  have hdue : ∀ j, j ∉ grp → ∀ q,
      (((s.set i ((s.conns i).goto (.written w))).setDb db).Due grp j q ↔ s.Due [] j q) := by
    intro j hj q
    rw [Due, hconn j (fun hji => hj (hji ▸ hi)), Due]
    simp [hj]
  refine ⟨grp, grp, 0, ?_, ?_, ?_, ?_, ?_, ?_, ?_⟩
  · have hnew := Stage.written (congrArg (fun c => c.clerk.pc) hself)
    rw [hgrp]
    exact hnew
  · exact hbooks.pushed_congr fun j _ => hitem j
  · exact hbooks.current_congr (fun j _ => hitem j) hstage.grp_mem
  · rw [List.length_append, List.length_singleton, ← hbooks.returned]
  · rw [hafter]
    have hold := hbooks.batches
    rw [hbefore] at hold
    refine List.rel_append hold (.cons ?_ .nil)
    rw [Batched, hgroup.entries, hgrp, List.map_map]
    rfl
  · rintro j q hd
    rw [hafter, List.flatten_append, ofClerk_append, List.flatten_singleton]
    by_cases hj : j ∈ grp
    · obtain ⟨es, hfj⟩ := hf j
      obtain ⟨q', hwait, hlogged, hholds, -⟩ :=
        pending_call hfj ((ho.mem j).mp (hstage.grp_mem j hj))
      have hq : q' = q := by
        have := hd.1
        rw [hclient j, hwait] at this
        exact Sync.ClientPc.waiting.inj this
      -- before, no reply to a request of the group was due
      have hset := hbooks.settled j (ho.not_due_of_mem (hstage.grp_mem j hj))
      rw [hbefore] at hset
      rw [ofClerk_map_mem s hnodup hj, hset, item, hholds.seen, hq]
    · have hset := hbooks.due j q ((hdue j hj q).mp hd)
      rw [hbefore] at hset
      rw [ofClerk_map_notMem s hj, List.append_nil, hset]
  · intro j hd
    rw [hafter, List.flatten_append, ofClerk_append, List.flatten_singleton]
    by_cases hj : j ∈ grp
    · obtain ⟨es, hfj⟩ := hf j
      obtain ⟨q', hwait, hlogged, -⟩ := pending_call hfj ((ho.mem j).mp (hstage.grp_mem j hj))
      refine absurd ⟨?_, hlogged, .inr (.inr hj)⟩ (hd q')
      rw [hclient j, hwait]
    · have hset := hbooks.settled j fun q hq => hd q ((hdue j hj q).mpr hq)
      rw [hbefore] at hset
      rw [ofClerk_map_notMem s hj, List.append_nil, hset]

theorem notify_client (s : Server ι σ) (queue marked : List ι) (j : ι) :
    ((s.notify queue marked).conns j).client = (s.conns j).client := by
  show (if j ∈ marked then _ else _ : Conn ι).client = _
  split
  · rfl
  · split <;> rfl

theorem notify_request (s : Server ι σ) (queue marked : List ι) (j : ι) :
    ((s.notify queue marked).conns j).request = (s.conns j).request := by
  show (if j ∈ marked then _ else _ : Conn ι).request = _
  split
  · rfl
  · split <;> rfl

/-- The group leaves the queue: what was through is marked. -/
theorem Ledger.complete (h : s.Ledger P G R A) (ho : s.Orderly)
    (hpc : (s.conns i).clerk.pc = .written w) {queue marked : List ι}
    (hloop : completeLoop i w s.writersQueue = some (queue, marked)) :
    ((s.set i ((s.conns i).goto .replying)).notify queue marked).Ledger P G R A := by
  obtain ⟨grp, through, k, hstage, hbooks⟩ := h
  obtain ⟨hgrp, hthrough, rfl⟩ := hstage.of_written ho hpc
  obtain ⟨-, hqueue, hmarked⟩ := ho.complete hpc hloop
  rw [← hgrp] at hqueue hmarked hthrough
  subst hthrough
  have hleads : ∀ j, j ≠ i → ¬ (s.conns j).clerk.pc.Leads := by
    intro j hj hl
    exact hj (ho.one_leader hl (by rw [hpc]; trivial))
  have hpc' : ∀ j, (((s.set i ((s.conns i).goto .replying)).notify queue marked).conns j).clerk.pc =
      if j = i then .replying else (s.conns j).clerk.pc := by
    intro j
    rw [notify_pc]
    by_cases hj : j = i
    · subst hj
      rw [set_self, if_pos rfl]
      rfl
    · rw [set_other s _ hj, if_neg hj]
  have hitem : ∀ j, ((s.set i ((s.conns i).goto .replying)).notify queue marked).item j =
      s.item j := by
    intro j
    rw [item, notify_request, goto_request, item]
  -- a reply is due to the same requests
  have hdue : ∀ j q, ((s.set i ((s.conns i).goto .replying)).notify queue marked).Due [] j q ↔
      s.Due through j q := by
    intro j q
    rw [Due, Due, notify_client, goto_client, hpc', notify_done]
    refine and_congr_right fun _ => and_congr_right fun _ => ?_
    by_cases hj : j = i
    · subst hj
      have hmem : j ∈ through := hgrp ▸ ho.leader_mem (.inr hpc)
      rw [if_pos rfl]
      exact iff_of_true (.inl rfl) (.inr (.inr hmem))
    · rw [if_neg hj, set_other s _ hj]
      by_cases hm : j ∈ through
      · have hwait : (s.conns j).clerk.pc = .waiting := by
          rcases (ho.mem j).mp (hstage.grp_mem j hm) with hp | ⟨hp, -⟩
          · exact absurd hp (hleads j hj)
          · exact hp
        rw [if_pos ((hmarked j).mpr ⟨hm, hj⟩)]
        exact iff_of_true (.inr (.inl ⟨hwait, rfl⟩)) (.inr (.inr hm))
      · rw [if_neg fun hm' => hm ((hmarked j).mp hm').1]
        simp [hm]
  refine ⟨[], [], 0, .idle ?_, ?_, fun hne => absurd rfl hne, hbooks.returned, hbooks.batches, ?_,
    ?_⟩
  · intro j hj
    rw [hpc'] at hj
    by_cases hji : j = i
    · rw [if_pos hji] at hj
      exact hj
    · rw [if_neg hji] at hj
      exact hleads j hji hj.leads
  · show P = G.flatten ++ (queue.drop 0).map _
    rw [List.map_congr_left fun j _ => hitem j, hbooks.pushed]
    conv_lhs => rw [hqueue, List.drop_left' rfl]
    rfl
  · intro j q hd
    exact hbooks.due j q ((hdue j q).mp hd)
  · intro j hd
    exact hbooks.settled j fun q hq => hd q ((hdue j q).mpr hq)

/-- A clerk about to reply owes the reply to the call its client waits in, if that was logged. -/
theorem Books.owes (h : s.Books grp through k P G R A) (hpc : (s.conns i).clerk.pc = .replying) :
    ofClerk i (G.take R.length).flatten = ofClerk i A ++ (s.conns i).logged i := by
  unfold Conn.logged
  split
  · rename_i q hwait
    split
    · rename_i hl
      exact h.due i q ⟨hwait, hl, .inl hpc⟩
    · rename_i hl
      rw [List.append_nil]
      refine h.settled i ?_
      rintro q' ⟨hwait', hl', -⟩
      rw [hwait] at hwait'
      cases hwait'
      exact hl hl'
  · rename_i hwait
    rw [List.append_nil]
    refine h.settled i ?_
    rintro q' ⟨hwait', -⟩
    exact hwait q' hwait'

/-- A reply is posted. -/
theorem Ledger.reply (h : s.Ledger P G R A) (ho : s.Orderly)
    (hpc : (s.conns i).clerk.pc = .replying) :
    (s.set i (((s.conns i).setLink (s.conns i).link.answer).goto .running)).Ledger P G R
      (A ++ (s.conns i).logged i) := by
  obtain ⟨grp, through, k, hstage, hbooks⟩ := h
  set c := ((s.conns i).setLink (s.conns i).link.answer).goto .running with hc
  have hconn : ∀ j, j ≠ i → (s.set i c).conns j = s.conns j := fun j hj => set_other s _ hj
  have hself : (s.set i c).conns i = c := set_self s i c
  have hi : i ∉ s.writersQueue := ho.not_mem (by rw [hpc]; exact id)
  have hitem : ∀ j ∈ s.writersQueue, (s.set i c).item j = s.item j := by
    intro j hj
    rw [item, hconn j (fun hji => hi (hji ▸ hj)), item]
  have hnot : ∀ q, ¬ (s.set i c).Due through i q :=
    not_due (s := s.set i c) hstage.through_mem hi (by rw [hself]; trivial)
  refine ⟨grp, through, k, hstage.congr rfl rfl ?_, hbooks.pushed_congr hitem,
    hbooks.current_congr hitem hstage.grp_mem, hbooks.returned, hbooks.batches, ?_, ?_⟩
  · intro j
    by_cases hj : j = i
    · subst hj
      rw [hself, hpc]
      exact .inr ⟨id, id⟩
    · rw [hconn j hj]
      exact .inl rfl
  · intro j q hd
    by_cases hj : j = i
    · subst hj
      exact absurd hd (hnot q)
    · rw [ofClerk_append, ofClerk_logged, if_neg hj, List.append_nil]
      exact hbooks.due j q ((due_congr (hconn j hj) through q).mp hd)
  · intro j hd
    rw [ofClerk_append, ofClerk_logged]
    by_cases hj : j = i
    · subst hj
      rw [if_pos rfl]
      exact hbooks.owes hpc
    · rw [if_neg hj, List.append_nil]
      exact hbooks.settled j fun q hq => hd q ((due_congr (hconn j hj) through q).mpr hq)

/-- A clerk off the queue goes from one such place to another. -/
theorem Ledger.elsewhere (h : s.Ledger P G R A) (ho : s.Orderly) (db : σ)
    (hpc : (s.conns i).clerk.pc.Aside) (hpc' : ¬ c.clerk.pc.Queued)
    (hreply : c.clerk.pc = .replying → ∀ q, c.client.pc = .waiting q → ¬ LoggedCall q) :
    ((s.set i c).setDb db).Ledger P G R A := by
  have hself : ((s.set i c).setDb db).conns i = c := set_self s i c
  have hi := ho.not_mem hpc.not_queued
  refine h.quiet db (.inr ⟨fun hw => hpc' hw.leads.queued,
    fun hw => hpc.not_queued hw.leads.queued⟩) (fun hi' => absurd hi' hi) ?_
  intro through q hthrough
  refine iff_of_false ?_ (not_due hthrough hi hpc q)
  rintro ⟨hwait, hl, hd | ⟨hd, -⟩ | hd⟩
  · rw [hself] at hwait hd
    exact hreply hd q hwait hl
  · rw [hself] at hd
    exact hpc' (by rw [hd]; trivial)
  · exact hi (hthrough i hd)

/-- What is not the client's place, nor the clerk's, does not matter. -/
theorem Ledger.same (h : s.Ledger P G R A) (hclient : c.client.pc = (s.conns i).client.pc)
    (hpc : c.clerk.pc = (s.conns i).clerk.pc) (hdone : c.clerk.done = (s.conns i).clerk.done)
    (hreq : i ∈ s.writersQueue → c.request = (s.conns i).request) : (s.set i c).Ledger P G R A := by
  refine h.quiet s.db (.inl hpc) hreq ?_
  intro through q _
  have hself : ((s.set i c).setDb s.db).conns i = c := set_self s i c
  rw [Due, hself, hclient, hpc, hdone, Due]

end Server

end Books

end LogDirect.Group
