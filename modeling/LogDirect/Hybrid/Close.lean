import LogDirect.Hybrid.Durability

/-!
# Closing a connection

`CLOSE` persists the open batch before the callback releases the ring, but waits
for no detached thread. `closes_cleanly_iff` says for which sequences of calls
this is enough: those that never fill a batch, so that there is no detached
thread at all.
-/

namespace LogDirect.Hybrid

open Lib TSys Conn

/-! ## What a clean close is -/

/-- Every acknowledged record is in the log, and no persist thread is at work. -/
structure CleanClose (s : Conn × Shared) : Prop where
  logged : ∀ (i : Nat) (r : Record) (pos : Nat), s.1.client.acks[i]? = some (r, pos) → InLog s i r
  finished : ∀ t ∈ s.1.clerk.threads, t.stage = .done

/-- Whatever the schedule, a client that makes the calls `cs` and closes has
everything in the log when the callback is invoked. -/
def ClosesCleanly (cs : List Call) : Prop :=
  ∀ s₀ tr s, system.init s₀ → system.Run s₀ tr s → calls tr = cs ++ [.close] →
    ∀ p ∈ tr, p.2 = .callback → CleanClose p.1

/-! ## A close that overtakes the persist threads -/

namespace Conn

/-- The connection once `SendClose` has returned and its last message is in. -/
def left (c : Conn) : Conn :=
  { c with
    client := { c.client with pc := .closed }
    clerk := { c.clerk with received := true }
    toClerk := [] }

/-- A client that waits for nothing but the completion of `CLOSE` returns. -/
theorem leaves {c : Conn} (sh : Shared) (hpc : c.client.pc = .closeWait) (he : c.toClerk = []) :
    Drives [] (c, sh) (c.left, sh) := by
  have hres : c.client.resume = some ({ c.client with pc := .closed }, [.send]) := by
    simp only [Client.resume, hpc]
  exact (client_resumes sh he hres).trans (Drives.step .toClerk trivial (by simp) rfl)

/-- The client has posted `CLOSE`, and the clerk is running. -/
theorem Phase.leaving {c : Conn} {m : Mem} (hph : c.Phase m) (hpc : c.client.pc = .closeWait)
    (hrun : c.clerk.pc = .running) : ∃ l, c.Requested m l := by
  rcases hph with hq | ⟨l, hr⟩ | ⟨l, hr⟩ | hl | hc
  · rcases hq.at_rest with h' | ⟨r, h'⟩ | ⟨r, h'⟩ <;> rw [hpc] at h' <;> cases h'
  · exact ⟨l, hr⟩
  · have hw := hr.awaits
    rw [hpc] at hw
    exact hw.elim
  · rw [hl.closed] at hpc
    cases hpc
  · rcases hc.clerk with ⟨sync, h'⟩ | h' <;> rw [h'] at hrun <;> cases hrun

end Conn

/-- The callback can be invoked in `s`. -/
def CallsBack (s : Conn × Shared) : Prop := ∃ s', system.step s .callback = some s'

/-- `SendClose` and the clerk's `CLOSE` have run up to the callback: the threads of
before are as they were, and so is `im_index_`. A thread that has come in is done. -/
structure ToCallback (s : Conn × Shared) (tr : List ((Conn × Shared) × Label))
    (s' : Conn × Shared) : Prop where
  run : system.Run s tr s'
  calls : calls tr = [.close]
  before : ∀ p ∈ tr, p.2 ≠ .callback
  callback : CallsBack s'
  threads : ∀ u ∈ s.1.clerk.threads, u ∈ s'.1.clerk.threads
  index : s'.2.index = s.2.index
  muts : s'.2.muts = s.2.muts
  toClient : s'.1.toClient = []
  mu : s'.1.clerk.mu = false
  news : ∀ u ∈ s'.1.clerk.threads, u ∈ s.1.clerk.threads ∨ u.stage = .done

/-- A close can overtake all the threads that wait. -/
theorem Untouched.close {s : Conn × Shared} (h : Untouched s) : ∃ tr s', ToCallback s tr s' := by
  obtain ⟨c, sh⟩ := s
  obtain ⟨c₀, hd₀, hpc₀, hclerk₀, htoClient₀, hring₀, -, -⟩ := call_enters h.atRest .close
  have hs₀ := hd₀.sound h.atRest.sound
  have hrun : c.clerk.pc = .running := (h.atRest.sound.inv.phase.quiet h.atRest.idle).running
  obtain ⟨l, hr₀⟩ := hs₀.inv.phase.leaving hpc₀ (by rw [hclerk₀]; exact hrun)
  obtain ⟨c₁, sh₁, l₁, hd₁, hr₁, ha⟩ := hr₀.drain
  obtain ⟨c₂, sh₂, hd₂, hsv⟩ := hr₁.taken (hd₁.sound hs₀).inv ha.toClerk
  have hclient : c₂.client.pc = .closeWait := by
    rw [hsv.frame.2.2.2.2, ha.client]
    exact hpc₀
  have hthreads : c₁.clerk.threads = c.clerk.threads := by
    have hring := congrArg Ring.threads (ha.ring.trans hring₀)
    exact hring
  have hnot : ¬ c₁.client.pc.Awaits := by
    rw [ha.client, hpc₀]
    exact id
  have hmu : c₁.clerk.mu = false := by
    have hring := congrArg Ring.mu (ha.ring.trans hring₀)
    exact hring.trans h.mu
  have htoClient : c₁.toClient = [] := ha.toClient.trans htoClient₀
  obtain ⟨hindex, hmuts⟩ : sh₁.index = sh.index ∧ sh₁.muts = sh.muts := by
    obtain ⟨m, hm⟩ := ha.shared
    rw [hm]
    exact ⟨rfl, rfl⟩
  cases hsv with
  | closeEmpty hpc he =>
    obtain ⟨tr, htr, hfg, hcalls⟩ :=
      ((hd₀.trans hd₁).trans hd₂).trans (leaves _ hclient ha.toClerk)
    refine ⟨tr, _, htr, hcalls, Foreground.no_callback hfg, ⟨_, rfl⟩, fun u hu => ?_,
      hindex, hmuts, htoClient, hmu, fun u hu => .inl ?_⟩
    · show u ∈ c₁.clerk.threads
      rw [hthreads]
      exact hu
    · rw [← hthreads]
      exact hu
  | closeFull hpc hne =>
    -- the open batch is persisted before the callback, the earlier ones need not be
    obtain ⟨tr, htr, hfg, hcalls⟩ :=
      ((hd₀.trans hd₁).trans hd₂).trans (leaves _ hclient ha.toClerk)
    have hlast : c₁.woken.lastFlushed.threads = c₁.clerk.threads ++ [c₁.ring.thread] :=
      congrArg Ring.threads
        (ring_lastFlushed ((hd₁.sound hs₀).inv.batch hr₁.running).laid)
    have ht : c₁.woken.lastFlushed.threads[c₁.clerk.threads.length]? =
        some c₁.ring.thread := by
      rw [hlast]
      exact List.getElem?_concat_length
    obtain ⟨tr', htr', hcalls', hbefore⟩ := thread_finishes
      (c := { c₁ with clerk := c₁.woken.lastFlushed }.left) _ htoClient hmu ht rfl
    refine ⟨tr ++ tr', _, htr.trans htr', ?_, fun p hp => ?_, ?_, fun u hu => ?_,
      hindex, hmuts, rfl, rfl, fun u hu => ?_⟩
    · rw [calls_append, hcalls, hcalls']
      rfl
    · rcases List.mem_append.mp hp with hp | hp
      · exact Foreground.no_callback hfg p hp
      · rcases hbefore p hp with rfl | hl | hl
        · simp
        · simp [hl]
        · simp [hl]
    · have hdone : (c₁.woken.lastFlushed.threads.modify c₁.clerk.threads.length
          fun t => { t with stage := .done })[c₁.clerk.threads.length]? =
          some { c₁.ring.thread with stage := .done } := by
        rw [List.getElem?_modify_eq, ht]
        rfl
      refine ⟨_, (if_pos ⟨?_, rfl⟩ : _ = some _)⟩
      show (_ == some Stage.done) = true
      rw [beq_iff_eq]
      exact congrArg (Option.map Thread.stage) hdone
    · obtain ⟨j, hj⟩ := List.getElem?_of_mem hu
      rw [← hthreads] at hj
      have hlt := (List.getElem?_eq_some_iff.mp hj).1
      refine List.mem_of_getElem? (i := j) ?_
      show (c₁.woken.lastFlushed.threads.modify c₁.clerk.threads.length _)[j]? = _
      rw [List.getElem?_modify_ne _ _ (Nat.ne_of_gt hlt), hlast, List.getElem?_append_left hlt, hj]
    · obtain ⟨j, hj⟩ := List.getElem?_of_mem hu
      have hj : (c₁.woken.lastFlushed.threads.modify c₁.clerk.threads.length
          fun t => { t with stage := .done })[j]? = some u := hj
      rw [List.getElem?_modify, Option.map_eq_map, Option.map_eq_some_iff, hlast] at hj
      obtain ⟨v, hv, rfl⟩ := hj
      split
      · exact .inr rfl
      · rename_i hne
        have hlt : j < c₁.clerk.threads.length := by
          have := (List.getElem?_eq_some_iff.mp hv).1
          rw [List.length_append, List.length_singleton] at this
          omega
        rw [List.getElem?_append_left hlt, hthreads] at hv
        exact .inl (List.mem_of_getElem? hv)
  | nop hpc => exact absurd (by rw [hpc]; trivial) hnot
  | short hpc => exact absurd (by rw [hpc]; trivial) hnot
  | full hpc => exact absurd (by rw [hpc]; trivial) hnot
  | get hpc => exact absurd (by rw [hpc]; trivial) hnot
  | sync hpc => exact absurd (by rw [hpc]; trivial) hnot
  | delete hpc => exact absurd (by rw [hpc]; trivial) hnot

/-! ## Closing without detached threads -/

/-- A close without detached threads is clean. -/
theorem Conn.NoDetached.clean {s s' : Conn × Shared} (h : s.1.NoDetached) (hs : Sole s)
    (hstep : system.step s .callback = some s') : CleanClose s := by
  obtain ⟨sync, hpc, ⟨hsync, -⟩, -⟩ := callback_step hstep
  have hdone : ∀ t ∈ s.1.clerk.threads, t.stage = .done := by
    cases sync with
    | none =>
      rw [h.running (.inr hpc)]
      simp
    | some i =>
      obtain ⟨rfl, hlen⟩ := h.closing i hpc
      obtain ⟨t, ht⟩ := List.length_eq_one_iff.mp hlen
      simp only [Clerk.syncDone, ht, beq_iff_eq] at hsync
      rw [ht]
      intro u hu
      rw [List.mem_singleton.mp hu]
      simpa using hsync
  refine ⟨fun i r pos hack => ?_, hdone⟩
  obtain ⟨w, rfl, rfl, -, hw | ⟨u, hu, hw⟩⟩ := hs.acked hack
  · have hempty := (hs.inv.phase.closing (by rw [hpc]; simp)).emptied
    rw [hempty] at hw
    cases hw
  · exact hs.inLog hu (by rw [hdone u hu]; decide) hw

/-! ## When closing is clean -/

theorem closesCleanly_of_small {cs : List Call} (hsmall : Batch.total (writes cs) < batchSize) :
    ClosesCleanly cs := by
  intro s₀ tr s hinit hrun hcalls p hp hcallback
  have htotal : Batch.total (writes (calls tr)) < batchSize := by
    rw [hcalls, writes_append, Batch.total_append]
    exact hsmall
  obtain ⟨hsound, hno⟩ := visited_noDetached hinit hrun htotal p hp
  obtain ⟨s', hstep⟩ := hrun.enabled p hp
  rw [hcallback] at hstep
  exact hno.clean hsound hstep

/-- Once a batch has been full, its thread can be overtaken by the callback. -/
theorem not_closesCleanly {cs : List Call} (hcs : ∀ q ∈ cs, q ≠ .close)
    (hge : batchSize ≤ Batch.total (writes cs)) : ¬ ClosesCleanly cs := by
  intro hclean
  obtain ⟨s₁, ⟨tr₁, hrun₁, -, hcalls₁⟩, hu⟩ := (init_untouched boot_init).calls cs hcs
  obtain ⟨tr₂, s₂, hrun₂, hcalls₂, -, ⟨s₃, hstep⟩, hthreads, -⟩ := hu.close
  have hacks := (run_ledger boot_init hrun₁).writes
  rw [hcalls₁, hu.atRest.idle] at hacks
  have hbooks := (hu.atRest.sound.inv.phase.quiet hu.atRest.idle).books.total
  rw [hu.atRest.idle, ← hacks] at hbooks
  have hzero : Batch.total (writes ClientPc.idle.pending) = 0 := rfl
  -- the open batch is short, so some thread has records
  obtain ⟨u, hmem⟩ : ∃ u, u ∈ s₁.1.clerk.threads := by
    refine List.exists_mem_of_ne_nil _ fun hnil => ?_
    have hpart : s₁.1.clerk.placed =
        s₁.1.clerk.threads.flatMap Thread.recs ++ s₁.1.clerk.openRecs :=
          hu.atRest.sound.wf.partition
    have hshort : Batch.total (records s₁.1.clerk.openRecs) < batchSize := hu.atRest.sound.wf.short
    rw [hpart, hnil, List.flatMap_nil, List.nil_append] at hbooks
    omega
  have hcalls : calls (tr₁ ++ tr₂ ++ [(s₂, .callback)]) = cs ++ [.close] := by
    rw [calls_append, calls_append, hcalls₁, hcalls₂]
    exact List.append_nil _
  have hcl := hclean boot _ s₃ boot_init (.snoc (hrun₁.trans hrun₂) hstep) hcalls (s₂, .callback)
    (by simp) rfl
  have hdone := hcl.finished u (hthreads u hmem)
  rw [hu.pending u hmem] at hdone
  cases hdone

/-- A close is clean whatever the schedule exactly when the records written do not
fill a batch. -/
theorem closes_cleanly_iff (cs : List Call) (hcs : ∀ q ∈ cs, q ≠ .close) :
    ClosesCleanly cs ↔ Batch.total (writes cs) < batchSize := by
  constructor
  · intro hclean
    by_contra hge
    exact not_closesCleanly hcs (Nat.le_of_not_lt hge) hclean
  · exact closesCleanly_of_small

/-- One record of ten bytes closes cleanly. -/
theorem one_record_closes_cleanly : ClosesCleanly [.write (sample 1 1)] := by
  refine (closes_cleanly_iff _ (by simp)).mpr ?_
  show Batch.total [sample 1 1] < batchSize
  rw [Batch.total_cons, length_sample]
  decide

/-- Three records of 8184 bytes fill a batch. Its thread may still be waiting for
the mutex when the callback releases the ring. -/
theorem full_batch_outlives_close :
    ¬ ClosesCleanly (List.replicate 3 (.write (sample 1 8175))) := by
  refine not_closesCleanly (by simp) ?_
  show batchSize ≤ Batch.total (List.replicate 3 (sample 1 8175))
  rw [Batch.total_replicate, length_sample]
  decide

end LogDirect.Hybrid
