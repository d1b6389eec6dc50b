import LogDirect.Group.Batch
import LogDirect.Group.Handshake

/-!
# The queue of writers

The queue holds exactly the clerks whose request is pushed and not done, each
once. Only the clerk at the front pauses, builds or writes, so the batch is its
own until it takes its group off the queue. A clerk that waits and could go on
has been signalled.
-/

namespace LogDirect.Group

open Lib
open Sync (Seen requestVal)

variable {ι σ : Type}

/-- In `PutBatch`, or behind it with the group still on the queue. -/
def ClerkPc.Writes : ClerkPc ι → Prop
  | .writing _ | .written _ => True
  | .running | .serving | .waiting | .pausing | .replying | .closing | .closed => False

/-- At the front of the queue, and knowing it. -/
def ClerkPc.Leads : ClerkPc ι → Prop
  | .pausing | .writing _ | .written _ => True
  | .running | .serving | .waiting | .replying | .closing | .closed => False

theorem ClerkPc.Writes.leads {pc : ClerkPc ι} (h : pc.Writes) : pc.Leads := by
  cases pc with
  | writing | written => trivial
  | running | serving | waiting | pausing | replying | closing | closed => exact h.elim

theorem ClerkPc.Leads.queued {pc : ClerkPc ι} (h : pc.Leads) : pc.Queued := by
  cases pc with
  | pausing | writing | written => trivial
  | running | serving | waiting | replying | closing | closed => exact h.elim

/-- The clerk's request is on the queue. -/
def Conn.Pending (c : Conn ι) : Prop :=
  c.clerk.pc.Leads ∨ c.clerk.pc = .waiting ∧ c.clerk.done = false

theorem Conn.Pending.queued {c : Conn ι} (h : c.Pending) : c.clerk.pc.Queued := by
  rcases h with hlead | ⟨hwait, -⟩
  · exact hlead.queued
  · rw [hwait]
    trivial

namespace Server

/-- The batch holds the first writers of the queue, up to `w`. -/
structure Grouped (s : Server ι σ) (w : ι) : Prop where
  le : s.batch.keys.length ≤ s.writersQueue.length
  last : (s.writersQueue.take s.batch.keys.length).getLast? = some w
  entries : s.batch.entries = (s.writersQueue.take s.batch.keys.length).map fun j =>
    (Request.key (s.conns j).request, requestVal (s.conns j).request)

structure Orderly (s : Server ι σ) : Prop where
  nodup : s.writersQueue.Nodup
  mem : ∀ i, i ∈ s.writersQueue ↔ (s.conns i).Pending
  lead : ∀ i, (s.conns i).clerk.pc.Leads → s.writersQueue.head? = some i
  group : ∀ i w, (s.conns i).clerk.pc = .writing w ∨ (s.conns i).clerk.pc = .written w → s.Grouped w
  signal : ∀ i, (s.conns i).clerk.pc = .waiting →
    (s.conns i).clerk.done = true ∨ s.writersQueue.head? = some i →
    (s.conns i).clerk.signalled = true

variable {s s' : Server ι σ}

variable {i w : ι} {B : DBType σ}

/-- One leader. -/
theorem Orderly.one_leader (h : s.Orderly) {j : ι} (hi : (s.conns i).clerk.pc.Leads)
    (hj : (s.conns j).clerk.pc.Leads) : i = j :=
  Option.some.inj ((h.lead i hi).symm.trans (h.lead j hj))

/-- The leader is in the group it made. -/
theorem Orderly.leader_mem (h : s.Orderly)
    (hpc : (s.conns i).clerk.pc = .writing w ∨ (s.conns i).clerk.pc = .written w) :
    i ∈ s.writersQueue.take s.batch.keys.length := by
  have hlast := (h.group i w hpc).last
  have hne : s.writersQueue.take s.batch.keys.length ≠ [] := by
    intro hnil
    rw [hnil] at hlast
    cases hlast
  have hhead := h.lead i (by rcases hpc with hpc | hpc <;> rw [hpc] <;> trivial)
  rw [← List.take_append_drop s.batch.keys.length s.writersQueue,
    List.head?_append_of_ne_nil _ hne] at hhead
  exact List.mem_of_head? hhead

/-- A clerk that neither waits nor leads is not on the queue. -/
theorem Orderly.not_mem (h : s.Orderly) (hpc : ¬ (s.conns i).clerk.pc.Queued) :
    i ∉ s.writersQueue :=
  fun hi => hpc ((h.mem i).mp hi).queued

/-- A clerk that waits and is done is not on the queue. -/
theorem Orderly.not_mem_of_done (h : s.Orderly) (hpc : (s.conns i).clerk.pc = .waiting)
    (hdone : (s.conns i).clerk.done = true) : i ∉ s.writersQueue := by
  intro hi
  rcases (h.mem i).mp hi with hlead | ⟨-, hopen⟩
  · rw [hpc] at hlead
    exact hlead
  · rw [hdone] at hopen
    cases hopen

/-- Requests on the queue stay, the queue grows at its end: the group stays. -/
theorem Grouped.grow (h : s.Grouped w) {ws : List ι} (hbatch : s'.batch = s.batch)
    (hqueue : s'.writersQueue = s.writersQueue ++ ws)
    (hsame : ∀ j ∈ s.writersQueue, (s'.conns j).request = (s.conns j).request) : s'.Grouped w := by
  have htake : s'.writersQueue.take s'.batch.keys.length =
      s.writersQueue.take s.batch.keys.length := by
    rw [hqueue, hbatch, List.take_append_of_le_length h.le]
  refine ⟨?_, by rw [htake, h.last], ?_⟩
  · rw [hqueue, hbatch, List.length_append]
    exact Nat.le_add_right_of_le h.le
  · rw [htake, hbatch, h.entries]
    refine List.map_congr_left ?_
    intro j hj
    rw [hsame j (List.mem_of_mem_take hj)]

/-- A clerk with a request on the queue has that of the call its client waits in. -/
theorem pending_call {es : List (Exchange.Event Seen Bytes)} (hf : (s.conns i).Follows es)
    (hp : (s.conns i).Pending) : ∃ q, (s.conns i).client.pc = .waiting q ∧ LoggedCall q ∧
      (s.conns i).Holds q ∧ (s.conns i).link.Taken := by
  have hq := hp.queued
  obtain ⟨r, hat, -⟩ := hf
  obtain ⟨q, -, hcalls, hworks, hl⟩ := hat.works
    (by intro hrun; rw [hrun] at hq; exact hq) (by intro hserve; rw [hserve] at hq; exact hq)
  obtain ⟨hlogged, hholds⟩ := (Conn.works_iff hq q).mp hworks
  refine ⟨q, ?_, hlogged, hholds, hl⟩
  rcases hcalls with hc | ⟨rfl, -⟩
  · rw [hc, Sync.ofCall_of_ne (Conn.LoggedCall.ne_close hlogged)]
  · exact absurd rfl (Conn.LoggedCall.ne_close hlogged)

theorem resume_request {c c' : Sync.Client} {k k' : Link} (h : c.resume k = some (c', k')) :
    k'.clerk = k.clerk := by
  obtain ⟨-, ⟨q, -, -, rfl, -⟩ | ⟨-, rfl, -⟩⟩ := Sync.Client.resume_inv h
  · rfl
  · rfl

variable [DecidableEq ι]

/-- A clerk that is not on the queue does something else. -/
theorem Orderly.outside (h : s.Orderly) (hi : i ∉ s.writersQueue) {c : Conn ι}
    (hpc : ¬ c.clerk.pc.Queued) (db : σ) : ((s.set i c).setDb db).Orderly := by
  have hconn : ∀ j, j ≠ i → ((s.set i c).setDb db).conns j = s.conns j :=
    fun j hj => set_other s c hj
  have hself : ((s.set i c).setDb db).conns i = c := set_self s i c
  refine ⟨h.nodup, ?_, ?_, ?_, ?_⟩
  · intro j
    by_cases hj : j = i
    · subst hj
      rw [hself]
      exact iff_of_false hi fun hpend => hpc hpend.queued
    · rw [hconn j hj]
      exact h.mem j
  · intro j hj
    by_cases hji : j = i
    · subst hji
      rw [hself] at hj
      exact absurd hj.queued hpc
    · rw [hconn j hji] at hj
      exact h.lead j hj
  · intro j w hj
    by_cases hji : j = i
    · subst hji
      rw [hself] at hj
      rcases hj with hj | hj
      · exact absurd (by rw [hj]; trivial) hpc
      · exact absurd (by rw [hj]; trivial) hpc
    · rw [hconn j hji] at hj
      refine (h.group j w hj).grow rfl (List.append_nil _).symm ?_
      intro x hx
      rw [hconn x (fun hxi => hi (hxi ▸ hx))]
  · intro j hj hgo
    by_cases hji : j = i
    · subst hji
      rw [hself] at hj
      exact absurd (by rw [hj]; trivial) hpc
    · rw [hconn j hji] at hj hgo ⊢
      exact h.signal j hj hgo

/-- The clerk at the front goes on; the batch is its own. -/
theorem Orderly.front (h : s.Orderly) (hi : s.writersQueue.head? = some i) (pc : ClerkPc ι)
    (hpc : pc.Leads) (db : σ) (b : WriteBatch) (hgroup : ∀ w, pc = .writing w ∨ pc = .written w →
      (((s.set i ((s.conns i).goto pc)).setDb db).setBatch b).Grouped w) :
    (((s.set i ((s.conns i).goto pc)).setDb db).setBatch b).Orderly := by
  have hconn : ∀ j, j ≠ i →
      (((s.set i ((s.conns i).goto pc)).setDb db).setBatch b).conns j = s.conns j :=
    fun j hj => set_other s _ hj
  have hself : (((s.set i ((s.conns i).goto pc)).setDb db).setBatch b).conns i =
      (s.conns i).goto pc := set_self s i _
  -- nobody else leads
  have hother : ∀ j, j ≠ i → ¬ (s.conns j).clerk.pc.Leads := by
    intro j hj hl
    exact hj (Option.some.inj ((h.lead j hl).symm.trans hi))
  refine ⟨h.nodup, ?_, ?_, ?_, ?_⟩
  · intro j
    by_cases hj : j = i
    · subst hj
      rw [hself]
      exact iff_of_true (List.mem_of_head? hi) (.inl hpc)
    · rw [hconn j hj]
      exact h.mem j
  · intro j hj
    by_cases hji : j = i
    · subst hji
      exact hi
    · rw [hconn j hji] at hj
      exact absurd hj (hother j hji)
  · intro j w hj
    by_cases hji : j = i
    · subst hji
      rw [hself] at hj
      exact hgroup w hj
    · rw [hconn j hji] at hj
      rcases hj with hj | hj
      · exact absurd (by rw [hj]; trivial) (hother j hji)
      · exact absurd (by rw [hj]; trivial) (hother j hji)
  · intro j hj hgo
    by_cases hji : j = i
    · subst hji
      rw [hself] at hj
      have hj : pc = .waiting := hj
      rw [hj] at hpc
      exact hpc.elim
    · rw [hconn j hji] at hj hgo ⊢
      exact h.signal j hj hgo

/-- A clerk that cannot go on waits again. -/
theorem Orderly.sleep (h : s.Orderly) (hdone : (s.conns i).clerk.done = false)
    (hi : s.writersQueue.head? ≠ some i) : (s.set i (s.conns i).sleep).Orderly := by
  have hconn : ∀ j, j ≠ i → (s.set i (s.conns i).sleep).conns j = s.conns j :=
    fun j hj => set_other s _ hj
  have hself : (s.set i (s.conns i).sleep).conns i = (s.conns i).sleep := set_self s i _
  refine ⟨h.nodup, ?_, ?_, ?_, ?_⟩
  · intro j
    by_cases hj : j = i
    · subst hj
      rw [hself]
      exact h.mem j
    · rw [hconn j hj]
      exact h.mem j
  · intro j hj
    by_cases hji : j = i
    · subst hji
      rw [hself] at hj
      exact h.lead j hj
    · rw [hconn j hji] at hj
      exact h.lead j hj
  · intro j w hj
    have hgroup : s.Grouped w := by
      by_cases hji : j = i
      · subst hji
        rw [hself] at hj
        exact h.group j w hj
      · rw [hconn j hji] at hj
        exact h.group j w hj
    refine hgroup.grow rfl (List.append_nil _).symm ?_
    intro x hx
    by_cases hxi : x = i
    · subst hxi
      rw [hself]
      rfl
    · rw [hconn x hxi]
  · intro j hj hgo
    by_cases hji : j = i
    · subst hji
      rw [hself] at hgo
      rcases hgo with hgo | hgo
      · exact absurd (hdone.symm.trans hgo) (by decide)
      · exact absurd hgo hi
    · rw [hconn j hji] at hj hgo ⊢
      exact h.signal j hj hgo

/-- A request is pushed. -/
theorem Orderly.push (h : s.Orderly) (hi : i ∉ s.writersQueue) : (s.push i).Orderly := by
  have hconn : ∀ j, j ≠ i → (s.push i).conns j = s.conns j :=
    fun j hj => Function.update_of_ne hj ..
  have hself : (s.push i).conns i = (s.conns i).push
      (if (s.writersQueue ++ [i]).head? = some i then .pausing else .waiting) :=
    Function.update_self ..
  have hhead : ∀ j, j ≠ i → (s.writersQueue ++ [i]).head? = some j →
      s.writersQueue.head? = some j := by
    intro j hj hh
    cases hq : s.writersQueue with
    | nil =>
      rw [hq] at hh
      exact absurd (Option.some.inj hh).symm hj
    | cons x xs =>
      rw [hq] at hh
      exact hh
  refine ⟨?_, ?_, ?_, ?_, ?_⟩
  · show (s.writersQueue ++ [i]).Nodup
    rw [List.nodup_append]
    refine ⟨h.nodup, by simp, ?_⟩
    intro a ha b hb
    rw [List.mem_singleton.mp hb]
    rintro rfl
    exact hi ha
  · intro j
    show j ∈ s.writersQueue ++ [i] ↔ _
    by_cases hj : j = i
    · subst hj
      rw [hself]
      refine iff_of_true (by simp) ?_
      by_cases hfront : (s.writersQueue ++ [j]).head? = some j
      · rw [if_pos hfront]
        exact .inl trivial
      · rw [if_neg hfront]
        exact .inr ⟨rfl, rfl⟩
    · rw [hconn j hj, List.mem_append, List.mem_singleton, ← h.mem j]
      exact or_iff_left hj
  · intro j hj
    show (s.writersQueue ++ [i]).head? = some j
    by_cases hji : j = i
    · subst hji
      by_contra hfront
      rw [hself, if_neg hfront] at hj
      exact hj
    · rw [hconn j hji] at hj
      have hlead := h.lead j hj
      rw [List.head?_append, hlead]
      rfl
  · intro j w hj
    have hgroup : s.Grouped w := by
      by_cases hji : j = i
      · subst hji
        rw [hself] at hj
        by_cases hfront : (s.writersQueue ++ [j]).head? = some j
        · rw [if_pos hfront] at hj
          rcases hj with hj | hj <;> cases hj
        · rw [if_neg hfront] at hj
          rcases hj with hj | hj <;> cases hj
      · rw [hconn j hji] at hj
        exact h.group j w hj
    refine hgroup.grow rfl rfl ?_
    intro x hx
    rw [hconn x (fun hxi => hi (hxi ▸ hx))]
  · intro j hj hgo
    by_cases hji : j = i
    · subst hji
      rw [hself] at hj hgo
      rcases hgo with hgo | hgo
      · cases hgo
      · have hgo : (s.writersQueue ++ [j]).head? = some j := hgo
        rw [if_pos hgo] at hj
        cases hj
    · rw [hconn j hji] at hj hgo ⊢
      exact h.signal j hj (hgo.imp_right (hhead j hji))

theorem goto_request (s : Server ι σ) (i j : ι) (pc : ClerkPc ι) :
    ((s.set i ((s.conns i).goto pc)).conns j).request = (s.conns j).request := by
  by_cases hj : j = i
  · subst hj
    rw [set_self]
    rfl
  · rw [set_other s _ hj]

theorem goto_client (s : Server ι σ) (i j : ι) (pc : ClerkPc ι) :
    ((s.set i ((s.conns i).goto pc)).conns j).client = (s.conns j).client := by
  by_cases hj : j = i
  · subst hj
    rw [set_self]
    rfl
  · rw [set_other s _ hj]

/-- What is not the clerk's own, and not its request, does not matter. -/
theorem Orderly.same (h : s.Orderly) {c : Conn ι} (hclerk : c.clerk = (s.conns i).clerk)
    (hreq : i ∈ s.writersQueue → c.request = (s.conns i).request) : (s.set i c).Orderly := by
  have hconn : ∀ j, ((s.set i c).conns j).clerk = (s.conns j).clerk := by
    intro j
    by_cases hj : j = i
    · subst hj
      rw [set_self, hclerk]
    · rw [set_other s c hj]
  refine ⟨h.nodup, ?_, ?_, ?_, ?_⟩
  · intro j
    rw [Conn.Pending, hconn j]
    exact h.mem j
  · intro j hj
    rw [hconn j] at hj
    exact h.lead j hj
  · intro j w hj
    rw [hconn j] at hj
    refine (h.group j w hj).grow rfl (List.append_nil _).symm ?_
    intro x hx
    by_cases hxi : x = i
    · subst hxi
      rw [set_self, hreq hx]
    · rw [set_other s c hxi]
  · intro j hj hgo
    rw [hconn j] at hj hgo ⊢
    exact h.signal j hj hgo

theorem notify_pc (s : Server ι σ) (queue marked : List ι) (j : ι) :
    ((s.notify queue marked).conns j).clerk.pc = (s.conns j).clerk.pc := by
  show (if j ∈ marked then _ else _ : Conn ι).clerk.pc = _
  split
  · rfl
  · split <;> rfl

theorem notify_done (s : Server ι σ) (queue marked : List ι) (j : ι) :
    ((s.notify queue marked).conns j).clerk.done =
      if j ∈ marked then true else (s.conns j).clerk.done := by
  show (if j ∈ marked then _ else _ : Conn ι).clerk.done = _
  split
  · rfl
  · split <;> rfl

/-- The group leaves the queue. -/
theorem Orderly.complete (h : s.Orderly) (hpc : (s.conns i).clerk.pc = .written w)
    {queue marked : List ι} (hloop : completeLoop i w s.writersQueue = some (queue, marked)) :
    ((s.set i ((s.conns i).goto .replying)).notify queue marked).Orderly ∧
      s.writersQueue = s.writersQueue.take s.batch.keys.length ++ queue ∧
      ∀ j, j ∈ marked ↔ j ∈ s.writersQueue.take s.batch.keys.length ∧ j ≠ i := by
  have hgroup := h.group i w (.inr hpc)
  have hsplit := List.take_append_drop s.batch.keys.length s.writersQueue
  have hnodup := h.nodup
  rw [← hsplit] at hnodup hloop
  rw [completeLoop_eq i w _ hnodup hgroup.last] at hloop
  obtain ⟨rfl, rfl⟩ := Prod.mk.inj (Option.some.inj hloop)
  have hmarked : ∀ j, j ∈ (s.writersQueue.take s.batch.keys.length).filter (fun j => j ≠ i) ↔
      j ∈ s.writersQueue.take s.batch.keys.length ∧ j ≠ i := by
    intro j
    simp
  refine ⟨?_, hsplit.symm, hmarked⟩
  have hself := h.leader_mem (.inr hpc)
  have hdisj : ∀ j ∈ s.writersQueue.take s.batch.keys.length,
      j ∉ s.writersQueue.drop s.batch.keys.length := by
    intro j hj hj'
    exact (List.nodup_append.mp hnodup).2.2 j hj j hj' rfl
  have hother : ∀ j, j ≠ i → ¬ (s.conns j).clerk.pc.Leads := by
    intro j hj hl
    exact hj (h.one_leader hl (by rw [hpc]; trivial))
  set s₁ := s.set i ((s.conns i).goto .replying) with hs₁
  have hconn : ∀ j, j ≠ i → s₁.conns j = s.conns j := fun j hj => set_other s _ hj
  have hpc₁ : (s₁.conns i).clerk.pc = .replying := by
    rw [hs₁, set_self]
    rfl
  have hlead : ∀ j, ¬ (s₁.conns j).clerk.pc.Leads := by
    intro j hj
    by_cases hji : j = i
    · subst hji
      rw [hpc₁] at hj
      exact hj
    · rw [hconn j hji] at hj
      exact hother j hji hj
  refine ⟨(List.nodup_append.mp hnodup).2.1, ?_, ?_, ?_, ?_⟩
  · intro j
    show j ∈ s.writersQueue.drop s.batch.keys.length ↔ _
    rw [Conn.Pending, notify_pc, notify_done]
    by_cases hji : j = i
    · subst hji
      refine iff_of_false (hdisj j hself) ?_
      rintro (hl | ⟨hw, -⟩)
      · exact hlead j hl
      · rw [hpc₁] at hw
        cases hw
    · by_cases hj : j ∈ s.writersQueue.take s.batch.keys.length
      · rw [if_pos ((hmarked j).mpr ⟨hj, hji⟩)]
        refine iff_of_false (hdisj j hj) ?_
        rintro (hl | ⟨-, hd⟩)
        · exact hlead j hl
        · cases hd
      · rw [if_neg (fun hm => hj ((hmarked j).mp hm).1), hconn j hji]
        have hmem := h.mem j
        rw [← hsplit, List.mem_append] at hmem
        exact (or_iff_right hj).symm.trans hmem
  · intro j hj
    rw [notify_pc] at hj
    exact absurd hj (hlead j)
  · intro j w' hj
    rw [notify_pc] at hj
    rcases hj with hj | hj
    · exact absurd (by rw [hj]; trivial) (hlead j)
    · exact absurd (by rw [hj]; trivial) (hlead j)
  · intro j hj hgo
    rw [notify_pc] at hj
    show (if j ∈ _ then _ else _ : Conn ι).clerk.signalled = true
    split
    · rfl
    · rename_i hm
      split
      · rfl
      · rename_i hfront
        have hji : j ≠ i := by
          rintro rfl
          rw [hpc₁] at hj
          cases hj
        rw [notify_done, if_neg hm] at hgo
        rw [hconn j hji] at hj hgo ⊢
        rcases hgo with hgo | hgo
        · exact h.signal j hj (.inl hgo)
        · exact absurd hgo hfront

/-- One step. -/
theorem Moves.orderly {l : Label ι} (h : s.Moves B l s') (ho : s.Orderly)
    (hf : ∀ j, ∃ es, (s.conns j).Follows es) : s'.Orderly := by
  cases h with
  | call hidle => exact ho.same rfl fun _ => rfl
  | @client i p hp => exact ho.same rfl fun _ => congrArg LocalBuf.msg (resume_request hp)
  | @toClerk i k hk =>
    refine ho.same rfl ?_
    intro hi
    obtain ⟨es, hfi⟩ := hf i
    obtain ⟨q, -, -, -, hl⟩ := pending_call hfi ((ho.mem i).mp hi)
    obtain ⟨w, ws, hq, -⟩ := Link.deliverClerk_inv hk
    rw [hl.toClerk] at hq
    cases hq
  | toClient hk =>
    obtain ⟨w, ws, -, rfl⟩ := Link.deliverClient_inv hk
    exact ho.same rfl fun _ => rfl
  | @take i hpc =>
    exact ho.outside (ho.not_mem (by rw [hpc]; exact id)) id s.db
  | @close i hpc =>
    exact ho.outside (ho.not_mem (by rw [hpc]; exact id)) id s.db
  | @get i m db hpc =>
    exact ho.outside (ho.not_mem (by rw [hpc]; exact id)) id db
  | @sync i hpc =>
    exact ho.outside (ho.not_mem (by rw [hpc]; exact id)) id _
  | @push i hpc => exact ho.push (ho.not_mem (by rw [hpc]; exact id))
  | @done i hpc hdone => exact ho.outside (ho.not_mem_of_done hpc hdone) id s.db
  | lead hpc hdone hfront =>
    refine ho.front hfront .pausing trivial s.db s.batch ?_
    rintro w (hw | hw) <;> cases hw
  | sleep hpc hdone hfront => exact ho.sleep hdone hfront
  | @build i b w hpc hbuild =>
    have hfront := ho.lead i (by rw [hpc]; trivial)
    refine ho.front hfront (.writing w) trivial s.db b ?_
    intro w' hw
    have hw : w = w' := by
      rcases hw with hw | hw
      · exact ClerkPc.writing.inj hw
      · cases hw
    subst hw
    obtain ⟨grp, rest, hqueue, hlen, hlast, hentries⟩ := buildBatchGroup_spec hbuild
    have hgrp : s.writersQueue.take b.keys.length = grp := by
      rw [hqueue, hlen, List.take_left' rfl]
    refine ⟨?_, ?_, ?_⟩
    · show b.keys.length ≤ s.writersQueue.length
      rw [hlen, hqueue, List.length_append]
      exact Nat.le_add_right _ _
    · show (s.writersQueue.take b.keys.length).getLast? = some w
      rw [hgrp, hlast]
    · show b.entries = (s.writersQueue.take b.keys.length).map _
      have hshort : ∀ j ∈ grp, Request.NoWrap (s.conns j).request := by
        intro j hj
        obtain ⟨es, hfj⟩ := hf j
        have hmem : j ∈ s.writersQueue := hqueue ▸ List.mem_append_left rest hj
        obtain ⟨q, -, -, hholds, -⟩ := pending_call hfj ((ho.mem j).mp hmem)
        exact hholds.noWrap
      rw [hgrp, hentries hshort]
      refine List.map_congr_left ?_
      intro j _
      have hreq := s.goto_request i j (.writing w)
      exact congrArg (fun m => (Request.key m, requestVal m)) hreq.symm
  | @putBatch i w hpc =>
    have hfront := ho.lead i (by rw [hpc]; trivial)
    refine ho.front hfront (.written w) trivial
      (B.putBatch s.db s.batch.keys s.batch.dbIndexes s.batch.bytes) s.batch ?_
    intro w' hw
    have hw : w = w' := by
      rcases hw with hw | hw
      · cases hw
      · exact ClerkPc.written.inj hw
    subst hw
    refine (ho.group i w (.inl hpc)).grow rfl (List.append_nil _).symm ?_
    intro j _
    exact s.goto_request i j (.written w)
  | complete hpc hloop => exact (ho.complete hpc hloop).1
  | @reply i hpc =>
    exact ho.outside (ho.not_mem (by rw [hpc]; exact id)) id s.db
  | @leave i hpc =>
    exact ho.outside (ho.not_mem (by rw [hpc]; exact id)) id s.db

theorem init_orderly (h : (system B).init s) : s.Orderly := by
  have hfresh : ∀ i, (s.conns i).clerk = ⟨.running, false, false⟩ := by
    intro i
    obtain ⟨flag, m, m', ring, -, hs⟩ := h.2 i
    rw [hs]
    rfl
  refine ⟨by rw [h.1]; exact List.nodup_nil, ?_, ?_, ?_, ?_⟩
  · intro i
    rw [h.1, Conn.Pending, hfresh i]
    refine iff_of_false List.not_mem_nil ?_
    rintro (hl | ⟨hw, -⟩)
    · exact hl
    · cases hw
  · intro i hi
    rw [hfresh i] at hi
    exact hi.elim
  · intro i w hi
    rw [hfresh i] at hi
    rcases hi with hi | hi <;> cases hi
  · intro i hi
    rw [hfresh i] at hi
    cases hi

/-- A run. -/
theorem run_orderly {tr : List (Server ι σ × Label ι)} (hinit : (system B).init s)
    (hrun : (system B).Run s tr s') : s'.Orderly := by
  induction hrun with
  | nil => exact init_orderly hinit
  | snoc hr hstep ih =>
    exact (step_moves hstep).orderly ih fun j => ⟨_, run_follows hinit hr j⟩

/-- The clerk at the front can go on, and if it waits it has been signalled. -/
theorem Orderly.front_goes (ho : s.Orderly) (B : DBType σ) (hi : s.writersQueue.head? = some i) :
    ((s.conns i).clerk.pc = .waiting → (s.conns i).clerk.signalled = true) ∧
      ∃ l ∈ [Label.wake i, .build i, .putBatch i, .complete i], (s.step B l).isSome := by
  have hmem := List.mem_of_head? hi
  refine ⟨fun hw => ho.signal i hw (.inr hi), ?_⟩
  cases hpc : (s.conns i).clerk.pc with
  | waiting => exact ⟨.wake i, by simp, by simp [step, hpc]⟩
  | pausing =>
    obtain ⟨b, w, hb⟩ := buildBatchGroup_some (fun j => (s.conns j).request) s.batch
      (List.ne_nil_of_mem hmem)
    exact ⟨.build i, by simp, by simp [step, hpc, hb]⟩
  | writing w => exact ⟨.putBatch i, by simp, by simp [step, hpc]⟩
  | written w =>
    have hloop := completeLoop_eq i w (s.writersQueue.drop s.batch.keys.length)
      (by rw [List.take_append_drop]; exact ho.nodup) (ho.group i w (.inr hpc)).last
    rw [List.take_append_drop] at hloop
    exact ⟨.complete i, by simp, by simp [step, hpc, hloop]⟩
  | running | serving | replying | closing | closed =>
    rcases (ho.mem i).mp hmem with hp | ⟨hp, -⟩
    · rw [hpc] at hp
      exact hp.elim
    · rw [hpc] at hp
      cases hp

end Server

end LogDirect.Group
