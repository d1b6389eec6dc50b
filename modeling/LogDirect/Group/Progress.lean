import LogDirect.Group.Queue
import LogDirect.Sync.Progress

/-!
# The group front end: every call returns

A clerk whose request is on the queue depends on those in front of it. The steps
of a connection and those of the clerk at the front of the queue leave less to do
for its client, and while the client waits one of them is possible.
-/

namespace LogDirect.Group

open Lib Exchange
open Sync (Seen)

variable {ι σ : Type}

/-- What a clerk has to do for its client, apart from the queue. -/
def ClerkPc.work : ClerkPc ι → Nat
  | .serving => 9
  | .waiting => 4
  | .pausing => 4
  | .writing _ => 4
  | .written _ => 4
  | .replying => 3
  | .closing => 1
  | .running => 0
  | .closed => 0

/-- How far a clerk is with the group it leads. -/
def ClerkPc.stage : ClerkPc ι → Nat
  | .pausing => 1
  | .writing _ => 2
  | .written _ => 3
  | .running => 0
  | .serving => 0
  | .waiting => 0
  | .replying => 0
  | .closing => 0
  | .closed => 0

theorem ClerkPc.stage_le (pc : ClerkPc ι) : pc.stage ≤ 3 := by
  cases pc <;> simp [stage]

/-- What there is to do on a connection. -/
def Conn.work (c : Conn ι) : Nat := c.link.load + c.client.pc.work + c.clerk.pc.work

/-- The client is in no call, or the clerk has taken `CLOSE`. -/
def Conn.Settled (c : Conn ι) : Prop :=
  c.client.pc = .idle ∨ c.clerk.pc = .closing ∨ c.clerk.pc = .closed

/-- A request that the clerk can take has arrived. -/
theorem Conn.Follows.arrived {c : Conn ι} {es : List (Event Seen Bytes)} (h : c.Follows es)
    (hflag : c.link.clerk.header = clientDone) : c.link.toClerk = [] := by
  obtain ⟨r, h, -⟩ := h
  cases r with
  | rest => exact absurd hflag h.2.2.clerk_flag
  | asked x =>
    obtain ⟨q, -, -, ⟨-, hl⟩ | ⟨-, hl, -⟩⟩ := h
    · exact hl.arrived hflag
    · exact hl.toClerk
  | taken x =>
    obtain ⟨q, -, -, -, hl⟩ := h
    exact hl.toClerk
  | answered x a =>
    obtain ⟨q, m, -, -, -, -, hl⟩ := h
    exact hl.toClerk

/-- A settled connection has finished its last round. -/
theorem Conn.At.over {c : Conn ι} {r : Round Seen Bytes} (h : c.At r) (hsettled : c.Settled) :
    r.Over := by
  cases r with
  | rest => trivial
  | taken x => trivial
  | asked x =>
    obtain ⟨q, -, hc, hpc⟩ := h
    rcases hsettled with hidle | hleft
    · exact absurd hidle hc.not_idle
    · rcases hpc with ⟨hpc, -⟩ | ⟨hpc, -⟩ <;> rw [hpc] at hleft <;> rcases hleft with h' | h' <;>
        cases h'
  | answered x a =>
    obtain ⟨q, m, -, -, hpc, hrun, -⟩ := h
    rcases hsettled with hidle | hleft
    · exact nomatch hpc.symm.trans hidle
    · rw [hrun] at hleft
      rcases hleft with h' | h' <;> cases h'

namespace Server

/-- What there is to do on the queue. -/
def toWrite (s : Server ι σ) : Nat :=
  match s.writersQueue with
  | [] => 0
  | j :: js => 4 * js.length + (4 - (s.conns j).clerk.pc.stage)

/-- What is left to do for client `i`. -/
def work (i : ι) (s : Server ι σ) : Nat := (s.conns i).work + s.toWrite

theorem toWrite_le (s : Server ι σ) : s.toWrite ≤ 4 * s.writersQueue.length := by
  unfold toWrite
  cases s.writersQueue with
  | nil => exact Nat.le_refl 0
  | cons j js =>
    simp only [List.length_cons]
    omega

/-- The steps of client `i` and its clerk, and those of the clerk at the front; no clerk
wakes in vain. -/
def Serves (i : ι) (s : Server ι σ) : Label ι → Prop
  | .call _ _ => False
  | .client j => j = i
  | .toClerk j => j = i
  | .toClient j => j = i
  | .take j => j = i
  | .serve j => j = i
  | .reply j => j = i
  | .leave j => j = i
  | .wake j => s.writersQueue.head? = some j ∨ j = i ∧ (s.conns i).clerk.done = true
  | .build j => s.writersQueue.head? = some j
  | .putBatch j => s.writersQueue.head? = some j
  | .complete j => s.writersQueue.head? = some j

variable {B : DBType σ} {s s' : Server ι σ}

theorem toWrite_congr (hqueue : s'.writersQueue = s.writersQueue)
    (hstage : ∀ j, (s'.conns j).clerk.pc.stage = (s.conns j).clerk.pc.stage) :
    s'.toWrite = s.toWrite := by
  unfold toWrite
  rw [hqueue]
  cases s.writersQueue with
  | nil => rfl
  | cons j js => simp only [hstage]

theorem toWrite_front {i : ι} (hi : s.writersQueue.head? = some i) :
    s.toWrite = 4 * (s.writersQueue.length - 1) + (4 - (s.conns i).clerk.pc.stage) := by
  obtain ⟨js, hq⟩ := List.head?_eq_some_iff.mp hi
  rw [toWrite, hq]
  rfl

variable [DecidableEq ι]

/-- The client, its clerk or the link between them moves. -/
theorem work_own {i : ι} {c : Conn ι} (db : σ)
    (hstage : c.clerk.pc.stage = (s.conns i).clerk.pc.stage) (hless : c.work < (s.conns i).work) :
    work i ((s.set i c).setDb db) < work i s := by
  have hsame : ((s.set i c).setDb db).toWrite = s.toWrite := by
    refine toWrite_congr rfl ?_
    intro j
    rw [setDb_conns]
    by_cases hj : j = i
    · rw [hj, set_self, hstage]
    · rw [set_other s c hj]
  rw [work, hsame, setDb_conns, set_self, work]
  omega

/-- A clerk goes on, which makes no difference to another connection. -/
theorem work_goto (i : ι) {j : ι} {pc : ClerkPc ι} (hwork : pc.work ≤ (s.conns j).clerk.pc.work) :
    ((s.set j ((s.conns j).goto pc)).conns i).work ≤ (s.conns i).work := by
  by_cases hij : i = j
  · rw [hij, set_self]
    show _ + _ + pc.work ≤ _ + _ + _
    exact Nat.add_le_add_left hwork _
  · rw [set_other s _ hij]

/-- The clerk at the front goes on. -/
theorem work_front (i : ι) {j : ι} (hj : s.writersQueue.head? = some j) (pc : ClerkPc ι) (db : σ)
    (b : WriteBatch) (hstage : pc.stage = (s.conns j).clerk.pc.stage + 1)
    (hwork : pc.work ≤ (s.conns j).clerk.pc.work) :
    work i (((s.set j ((s.conns j).goto pc)).setDb db).setBatch b) < work i s := by
  have hown := work_goto (s := s) i hwork
  have hle := pc.stage_le
  have hnew : (((s.set j ((s.conns j).goto pc)).setDb db).setBatch b).toWrite =
      4 * (s.writersQueue.length - 1) + (4 - pc.stage) := by
    have hj' : (((s.set j ((s.conns j).goto pc)).setDb db).setBatch b).writersQueue.head? =
        some j :=
      hj
    rw [toWrite_front hj']
    show _ + (4 - ((s.set j ((s.conns j).goto pc)).conns j).clerk.pc.stage) = _
    rw [set_self]
    rfl
  rw [work, hnew, work, toWrite_front hj]
  show ((s.set j ((s.conns j).goto pc)).conns i).work + _ < _
  omega

/-- A request is pushed. -/
theorem work_push {i : ι} (hpc : (s.conns i).clerk.pc = .serving) (hi : i ∉ s.writersQueue) :
    work i (s.push i) < work i s := by
  have hself : ((s.push i).conns i).work + 5 ≤ (s.conns i).work := by
    rw [show (s.push i).conns i = (s.conns i).push _ from Function.update_self ..]
    rw [Conn.work, Conn.work, hpc]
    show _ + _ + ClerkPc.work (if _ then _ else _) + 5 ≤ _ + _ + 9
    split
    · exact Nat.le_refl _
    · exact Nat.le_refl _
  have hqueue : (s.push i).toWrite ≤ s.toWrite + 4 := by
    cases hq : s.writersQueue with
    | nil =>
      have hle := (s.push i).toWrite_le
      have hlen : (s.push i).writersQueue.length = 1 := by
        show (s.writersQueue ++ [i]).length = 1
        rw [hq]
        rfl
      omega
    | cons j js =>
      have hj : j ≠ i := by
        rintro rfl
        exact hi (by rw [hq]; simp)
      have hother : (s.push i).conns j = s.conns j := Function.update_of_ne hj ..
      have hnew : (s.push i).writersQueue = j :: (js ++ [i]) := by
        show s.writersQueue ++ [i] = _
        rw [hq]
        rfl
      rw [toWrite, hnew, toWrite, hq]
      simp only [hother, List.length_append, List.length_singleton]
      omega
  rw [work, work]
  omega

theorem notify_work (s : Server ι σ) (queue marked : List ι) (j : ι) :
    ((s.notify queue marked).conns j).work = (s.conns j).work := by
  show (if j ∈ marked then _ else _ : Conn ι).work = _
  split
  · rfl
  · split <;> rfl

/-- The group leaves the queue. -/
theorem work_complete (i : ι) {j w : ι} (ho : s.Orderly) (hpc : (s.conns j).clerk.pc = .written w)
    {queue marked : List ι} (hloop : completeLoop j w s.writersQueue = some (queue, marked)) :
    work i ((s.set j ((s.conns j).goto .replying)).notify queue marked) < work i s := by
  have hj := ho.lead j (by rw [hpc]; trivial)
  obtain ⟨-, hsplit, -⟩ := ho.complete hpc hloop
  have hown : ((s.set j ((s.conns j).goto .replying)).conns i).work ≤ (s.conns i).work :=
    work_goto i (by rw [hpc]; exact Nat.le_succ 3)
  have hnew := ((s.set j ((s.conns j).goto .replying)).notify queue marked).toWrite_le
  have hlen : queue.length < s.writersQueue.length := by
    have hne : s.writersQueue.take s.batch.keys.length ≠ [] := by
      intro hnil
      have hlast := (ho.group j w (.inr hpc)).last
      rw [hnil] at hlast
      cases hlast
    have hpos := List.length_pos_of_ne_nil hne
    have hall := congrArg List.length hsplit
    rw [List.length_append] at hall
    omega
  have hold : s.toWrite = 4 * (s.writersQueue.length - 1) + 1 := by
    rw [toWrite_front hj, hpc]
    rfl
  rw [work, notify_work, work, hold]
  have hnew : _ ≤ 4 * queue.length := hnew
  omega

/-- Every step that serves a client leaves less to do for it. -/
theorem Moves.work_lt {i : ι} {l : Label ι} (h : s.Moves B l s') (ho : s.Orderly)
    (hf : ∀ j, ∃ es, (s.conns j).Follows es) (hl : s.Serves i l) : work i s' < work i s := by
  cases h with
  | call => exact hl.elim
  | client hp =>
    cases hl
    refine work_own s.db rfl ?_
    rename_i p
    obtain ⟨cl, k⟩ := p
    rw [Conn.work, Conn.work]
    obtain ⟨-, ⟨q, hpc, -, rfl, rfl⟩ | ⟨hpc, rfl, rfl⟩⟩ := Sync.Client.resume_inv hp
    · simp [Conn.setClient, hpc, Sync.ClientPc.work]
    · simp [Conn.setClient, hpc, Sync.ClientPc.work]
  | toClerk hk =>
    cases hl
    refine work_own s.db rfl ?_
    have hless := Link.load_deliverClerk hk
    simp only [Conn.work, Conn.setLink]
    omega
  | toClient hk =>
    cases hl
    refine work_own s.db rfl ?_
    have hless := Link.load_deliverClient hk
    simp only [Conn.work, Conn.setLink]
    omega
  | take hpc hflag =>
    cases hl
    refine work_own s.db (by rw [hpc]; rfl) ?_
    obtain ⟨es, hfi⟩ := hf i
    have hload := Link.load_take (hfi.arrived hflag) hflag
    rw [Conn.work, Conn.work, hpc]
    show (s.conns i).link.take.load + (s.conns i).client.pc.work + 9 < _ + _ + 0
    omega
  | close hpc =>
    cases hl
    refine work_own s.db (by rw [hpc]; rfl) ?_
    rw [Conn.work, Conn.work, hpc]
    exact Nat.add_lt_add_left (by decide : 1 < 9) _
  | get db hpc =>
    cases hl
    refine work_own db (by rw [hpc]; rfl) ?_
    rw [Conn.work, Conn.work, hpc]
    exact Nat.add_lt_add_left (by decide : 3 < 9) _
  | sync hpc =>
    cases hl
    refine work_own _ (by rw [hpc]; rfl) ?_
    rw [Conn.work, Conn.work, hpc]
    exact Nat.add_lt_add_left (by decide : 3 < 9) _
  | push hpc =>
    cases hl
    exact work_push hpc (ho.not_mem (by rw [hpc]; exact id))
  | @done j hpc hdone =>
    have hj : j = i := by
      rcases hl with hfront | ⟨hj, -⟩
      · exact absurd (List.mem_of_head? hfront) (ho.not_mem_of_done hpc hdone)
      · exact hj
    subst hj
    refine work_own s.db (by rw [hpc]; rfl) ?_
    rw [Conn.work, Conn.work, hpc]
    exact Nat.add_lt_add_left (by decide : 3 < 4) _
  | lead hpc hdone hfront =>
    exact work_front i hfront .pausing s.db s.batch (by rw [hpc]; rfl)
      (by rw [hpc]; exact Nat.le_refl 4)
  | sleep hpc hdone hfront =>
    rcases hl with hl | ⟨rfl, hl⟩
    · exact absurd hl hfront
    · exact absurd (hdone.symm.trans hl) (by decide)
  | @build j b w hpc =>
    exact work_front i hl (.writing w) s.db b (by rw [hpc]; rfl) (by rw [hpc]; exact Nat.le_refl 4)
  | @putBatch j w hpc =>
    exact work_front i hl (.written w) _ s.batch (by rw [hpc]; rfl)
      (by rw [hpc]; exact Nat.le_refl 4)
  | complete hpc hloop => exact work_complete i ho hpc hloop
  | reply hpc =>
    cases hl
    refine work_own s.db (by rw [hpc]; rfl) ?_
    rw [Conn.work, Conn.work, hpc]
    show (s.conns i).link.answer.load + (s.conns i).client.pc.work + 0 < _ + _ + 3
    rw [Link.load_answer]
    omega
  | leave hpc =>
    cases hl
    refine work_own s.db (by rw [hpc]; rfl) ?_
    rw [Conn.work, Conn.work, hpc]
    exact Nat.add_lt_add_left (by decide : 0 < 1) _

/-- A client that waits is not left alone. -/
theorem Orderly.goes (ho : s.Orderly) {i : ι} {es : List (Event Seen Bytes)}
    (hf : (s.conns i).Follows es) (hopen : ¬ (s.conns i).Settled) :
    ∃ l s', s.Serves i l ∧ s.step B l = some s' := by
  -- as soon as the clerk is on the queue, the clerk at the front can go on
  have hqueue : i ∈ s.writersQueue → ∃ l s', s.Serves i l ∧ s.step B l = some s' := by
    intro hi
    obtain ⟨j, hj⟩ : ∃ j, s.writersQueue.head? = some j := by
      cases hq : s.writersQueue with
      | nil =>
        rw [hq] at hi
        cases hi
      | cons j js => exact ⟨j, rfl⟩
    obtain ⟨-, l, hl, hstep⟩ := ho.front_goes B hj
    obtain ⟨s', hs'⟩ := Option.isSome_iff_exists.mp hstep
    refine ⟨l, s', ?_, hs'⟩
    simp only [List.mem_cons, List.not_mem_nil, or_false] at hl
    rcases hl with rfl | rfl | rfl | rfl
    · exact .inl hj
    · exact hj
    · exact hj
    · exact hj
  obtain ⟨r, h, -⟩ := hf
  cases r with
  | rest => exact absurd (.inl h.1) hopen
  | asked x =>
    obtain ⟨q, -, -, ⟨hpc, hl⟩ | ⟨hpc, -⟩⟩ := h
    · cases hq : (s.conns i).link.toClerk with
      | nil =>
        obtain ⟨s', hs'⟩ : ∃ s', s.step B (.take i) = some s' := by
          simp [step, hpc, hl.flag hq]
        exact ⟨.take i, s', rfl, hs'⟩
      | cons w ws =>
        obtain ⟨s', hs'⟩ : ∃ s', s.step B (.toClerk i) = some s' := by
          simp [step, Link.deliverClerk, hq]
        exact ⟨.toClerk i, s', rfl, hs'⟩
    · obtain ⟨s', hs'⟩ : ∃ s', s.step B (.serve i) = some s' := by
        simp [step, hpc]
      exact ⟨.serve i, s', rfl, hs'⟩
  | taken x =>
    obtain ⟨q, -, -, hw, -⟩ := h
    rw [Conn.Works] at hw
    cases hpc : (s.conns i).clerk.pc with
    | running | serving =>
      rw [hpc] at hw
      exact hw.elim
    | waiting =>
      cases hdone : (s.conns i).clerk.done with
      | false => exact hqueue ((ho.mem i).mpr (.inr ⟨hpc, hdone⟩))
      | true =>
        obtain ⟨s', hs'⟩ : ∃ s', s.step B (.wake i) = some s' := by
          simp [step, hpc]
        exact ⟨.wake i, s', .inr ⟨rfl, hdone⟩, hs'⟩
    | pausing | writing | written => exact hqueue ((ho.mem i).mpr (.inl (by rw [hpc]; trivial)))
    | replying =>
      obtain ⟨s', hs'⟩ : ∃ s', s.step B (.reply i) = some s' := by
        simp [step, hpc]
      exact ⟨.reply i, s', rfl, hs'⟩
    | closing => exact absurd (.inr (.inl hpc)) hopen
    | closed => exact absurd (.inr (.inr hpc)) hopen
  | answered x a =>
    obtain ⟨q, m, -, -, hpc, -, hl⟩ := h
    cases hq : (s.conns i).link.toClient with
    | nil =>
      obtain ⟨s', hs'⟩ : ∃ s', s.step B (.client i) = some s' := by
        simp [step, Sync.Client.resume, hl.toClerk, hpc, hl.flag hq]
      exact ⟨.client i, s', rfl, hs'⟩
    | cons w ws =>
      obtain ⟨s', hs'⟩ : ∃ s', s.step B (.toClient i) = some s' := by
        simp [step, Link.deliverClient, hq]
      exact ⟨.toClient i, s', rfl, hs'⟩

end Server

/-! ## Runs -/

section Runs

variable [DecidableEq ι]

/-- The call client `i` enters in a step. -/
def Label.calls (i : ι) : Label ι → List Call
  | .call j q => if j = i then [q] else []
  | _ => []

/-- The calls of client `i` in a run. -/
def calls (i : ι) (tr : List (Server ι σ × Label ι)) : List Call := tr.flatMap fun p => p.2.calls i

theorem calls_append (i : ι) (tr tr' : List (Server ι σ × Label ι)) :
    calls i (tr ++ tr') = calls i tr ++ calls i tr' := by
  rw [calls, List.flatMap_append]
  rfl

theorem calls_of_serves {i : ι} {tr : List (Server ι σ × Label ι)}
    (h : TSys.Meets (Server.Serves i) tr) (j : ι) : calls j tr = [] := by
  rw [calls, List.flatMap_eq_nil_iff]
  rintro ⟨s, l⟩ hp
  have hl : s.Serves i l := h _ hp
  cases l with
  | call => exact hl.elim
  | client | toClerk | toClient | take | serve | wake | build | putBatch | complete | reply
  | leave => rfl

/-- A call that was entered can be brought to its return, with no further call of anybody. -/
theorem Server.settles {B : DBType σ} {s : Server ι σ} (i : ι) (ho : s.Orderly)
    (hf : ∀ j, ∃ es, (s.conns j).Follows es) :
    ∃ tr s', (system B).Run s tr s' ∧ (∀ j, calls j tr = []) ∧ (s'.conns i).Settled := by
  have hstep : ∀ s l s', (s.Orderly ∧ ∀ j, ∃ es, (s.conns j).Follows es) → Server.Serves i s l →
      (system B).step s l = some s' →
      (s'.Orderly ∧ ∀ j, ∃ es, (s'.conns j).Follows es) ∧ s'.work i < s.work i := by
    rintro s l s' ⟨ho, hf⟩ hl hstep
    have hmoves := step_moves hstep
    refine ⟨⟨hmoves.orderly ho hf, ?_⟩, hmoves.work_lt ho hf hl⟩
    intro j
    obtain ⟨es, hj⟩ := hf j
    exact ⟨_, hmoves.follows j hj⟩
  have hgo : ∀ s : Server ι σ, (s.Orderly ∧ ∀ j, ∃ es, (s.conns j).Follows es) →
      ¬ (s.conns i).Settled → ∃ l s', Server.Serves i s l ∧ (system B).step s l = some s' := by
    rintro s ⟨ho, hf⟩ hopen
    obtain ⟨es, hi⟩ := hf i
    exact ho.goes hi hopen
  obtain ⟨tr, s', hrun, hmeets, -, hsettled⟩ := TSys.reaches (Server.work i) hstep hgo ⟨ho, hf⟩
  exact ⟨tr, s', hrun, calls_of_serves hmeets, hsettled⟩

/-! ## Exactly once -/

/-- Only a call asks. -/
theorem asks_stepEvents (i : ι) (s : Server ι σ) (l : Label ι) :
    (stepEvents i s l).flatMap Event.asks = (l.calls i).map Seen.ofCall := by
  cases l with
  | call j q =>
    simp only [stepEvents, Label.calls]
    split <;> rfl
  | client j =>
    show (if j = i then _ else _ : List (Event Seen Bytes)).flatMap Event.asks = []
    split
    · unfold Sync.Client.readEvents
      split <;> rfl
    · rfl
  | serve j | reply j =>
    show (if j = i then _ else _ : List (Event Seen Bytes)).flatMap Event.asks = []
    split <;> rfl
  | toClerk | toClient | take | wake | build | putBatch | complete | leave => rfl

/-- The requests client `i` asks are those of its calls. -/
theorem asks_events (i : ι) (tr : List (Server ι σ × Label ι)) :
    (events i tr).flatMap Event.asks = (calls i tr).map Seen.ofCall := by
  rw [events, List.flatMap_assoc, calls, List.map_flatMap]
  simp only [asks_stepEvents]

/-- Requests and replies of client `i` and its clerk, among any number of others. -/
theorem exactlyOnce (B : DBType σ) (i : ι) : ExactlyOnce (system B) (events i) := by
  constructor
  · intro s tr s' hinit hrun
    obtain ⟨r, -, hes⟩ := Server.run_follows hinit hrun i
    exact ⟨r, hes⟩
  · intro s tr s' hinit hrun
    obtain ⟨tr', s'', hrun', hcalls, hsettled⟩ := Server.settles (B := B) i
      (Server.run_orderly hinit hrun) fun j => ⟨_, Server.run_follows hinit hrun j⟩
    obtain ⟨r, hat, hes⟩ := Server.run_follows hinit (hrun.trans hrun') i
    refine ⟨tr', s'', hrun', ?_, r, hes, hat.over hsettled⟩
    rw [asks_events, hcalls]
    rfl

end Runs

end LogDirect.Group
