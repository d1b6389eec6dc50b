import LogDirect.Hybrid.Schedule

/-!
# A lap of the ring

Eighteen records of 7000 bytes make six full batches, and the next one makes the
client send a `NOP` and wait for the rewind (`full_lap`). The seven persist
threads have not run yet, and what happens depends on the order in which they
get the mutex. If it is the order in which they were spawned, the client spins
once the sixth tail word is there, goes on when the seventh is, and writes over
the first record, which is in the log by then (`lap_in_order`).
-/

namespace LogDirect.Hybrid

open Lib TSys Conn

/-- The client spins in one of its two tail-wait loops. -/
def Client.Spins (c : Client) : Prop :=
  (∃ r, c.pc = .rewindWait r ∧ c.bufHead ≤ c.bufTail) ∨
    ∃ r, c.pc = .spaceWait r ∧ c.bufHead < c.bufTail ∧ c.bufTail ≤ c.bufHead + totalLen r

/-- The client leaves the wait for the rewind only when every batch at the start
of the ring is persisted and its tail word delivered. -/
def Cleared (s : Conn × Shared) : Label → Prop
  | .client => ∀ r, s.1.client.pc = .rewindWait r →
      ∀ u ∈ s.1.clerk.threads, u.stage ≠ .done → u.start ≠ ringHeader
  | _ => True

theorem cleared_of_ne {s : Conn × Shared} {l : Label} (h : l ≠ .client) : Cleared s l := by
  cases l with
  | client => exact absurd rfl h
  | _ => trivial

/-- Before any persist thread runs the order of the threads is kept. -/
theorem inOrder_of_foreground {s : Conn × Shared} {l : Label} (h : Foreground s l) :
    InOrder s l := by
  cases l with
  | persist i => exact h.elim
  | _ => trivial

/-! ## Laps -/

/-- Only the rewind ends a lap. -/
theorem Ring.Step.lap {g g' : Ring} {e : Ring.Event} (h : g.Step e g') :
    g.lap ≤ g'.lap ∧ ∀ r, e = .rewind r → g.lap < g'.lap := by
  cases h with
  | rewind => exact ⟨Nat.le_succ _, fun _ _ => Nat.lt_succ_self _⟩
  | _ => exact ⟨Nat.le_refl _, fun r hr => by cases hr⟩

/-- A run within a lap does not leave the wait for the rewind. -/
theorem cleared_of_lap {s s' : Conn × Shared} {tr : List ((Conn × Shared) × Label)} (hs : Sound s)
    (hrun : system.Run s tr s') (hlap : s'.1.client.lap = s.1.client.lap) : Meets Cleared tr := by
  have hkeeps : s.1.client.lap ≤ s'.1.client.lap ∧
      (s'.1.client.lap = s.1.client.lap → Meets Cleared tr) := by
    clear hlap
    induction hrun with
    | nil => exact ⟨Nat.le_refl _, fun _ => .nil⟩
    | @snoc tr s₁ l s₂ hrun hstep ih =>
      have hs₁ : Sound s₁ :=
        hrun.invariant hs (fun _ _ _ hs (_ : True) => hs.step) (fun _ _ => trivial)
      obtain ⟨hle, hlt⟩ := (Conn.step_ring hs₁.inv hstep).lap
      have hle : s₁.1.client.lap ≤ s₂.1.client.lap := hle
      refine ⟨ih.1.trans hle, fun hsame => meets_snoc.mpr ⟨ih.2 (by omega), ?_⟩⟩
      by_cases hl : l = .client
      · subst hl
        intro r hpc
        have hlt : s₁.1.client.lap < s₂.1.client.lap := hlt r (by simp [Conn.event, hpc])
        omega
      · exact cleared_of_ne hl
  exact hkeeps.2 hlap

/-! ## Up to the wait for the rewind -/

/-- The client waits for the rewind with six full batches and an empty one behind it, none of
them persisted. -/
structure LapFull (old new : Record) (c : Conn) : Prop where
  pc : c.client.pc = .rewindWait new
  toClient : c.toClient = []
  mu : c.clerk.mu = false
  head : c.client.bufHead = 126008
  lap : c.client.lap = 0
  tail : c.ring.tail = ringHeader
  size : c.ring.size = 0
  threads : c.clerk.threads.length = 7
  pending : ∀ u ∈ c.clerk.threads, u.stage = .pending
  sixth : ∃ u, c.clerk.threads[5]? = some u ∧ u.tail = 126008
  seventh : ∃ u, c.clerk.threads[6]? = some u ∧ u.tail = ringHeader
  acks : c.client.acks.length = 18
  first : c.client.acks[0]? = some (old, ringHeader)

theorem full_lap {old new : Record} (hold : old.length = 7000) (hnew : new.length = 7000) :
    ∃ tr c sh, system.Run boot tr (c, sh) ∧ Meets Foreground tr ∧
      calls tr = (List.replicate 18 old ++ [new]).map .write ∧ LapFull old new c := by
  obtain ⟨⟨c, sh⟩, ⟨tr₁, hrun₁, hno₁, hcalls₁⟩, hu, hring, -⟩ :=
    (init_untouched boot_init).writes (List.replicate 18 old)
  have hload : c.ring.load = (126008, 0, 6) := by
    rw [show c.ring = _ from hring, Ring.load_writes, List.map_replicate, hold, boot_load]
    decide
  have hhead : c.ring.head = 126008 := congrArg Prod.fst hload
  have hsize : c.ring.size = 0 := congrArg (fun p => p.2.1) hload
  have hlen : c.ring.threads.length = 6 := congrArg (fun p => p.2.2) hload
  have hlap : c.ring.lap = 0 := by
    rw [show c.ring = _ from hring, Ring.lap_writes]
    · rfl
    · rw [Batch.total_replicate, hold]
      decide
  have hacks : c.client.acks = c.ring.placed.map Stored.ack := hu.atRest.acks_eq
  obtain ⟨c₁, m, ⟨tr₂, hrun₂, hno₂, hcalls₂⟩, hpc, htoClient, hring₁, -, hacks₁⟩ :=
    write_nops (r := new) hu.atRest (by rw [hhead, hnew]; decide)
  have hthreads : c₁.clerk.threads = c.ring.threads ++ [c.ring.thread] :=
    congrArg Ring.threads hring₁
  have hempty : c.ring.thread.tail = ringHeader := if_pos (by rw [hsize]; decide)
  refine ⟨tr₁ ++ tr₂, c₁, _, hrun₁.trans hrun₂, meets_append.mpr ⟨hno₁, hno₂⟩, ?_,
    hpc, htoClient, (congrArg Ring.mu hring₁).trans hu.mu, (congrArg Ring.head hring₁).trans hhead,
    (congrArg Ring.lap hring₁).trans hlap, (congrArg Ring.tail hring₁).trans hempty, ?_, ?_, ?_, ?_,
    ⟨c.ring.thread, ?_, hempty⟩, ?_, ?_⟩
  · rw [calls_append, hcalls₁, hcalls₂, List.map_append]
    rfl
  · rw [hring₁]
    rfl
  · rw [hthreads, List.length_append, hlen]
    rfl
  · rw [hthreads]
    intro u hmem
    rcases List.mem_append.mp hmem with hmem | hmem
    · exact hu.pending u hmem
    · rw [List.mem_singleton.mp hmem]
      rfl
  · -- the sixth batch ends at the head
    obtain ⟨us, u, hus⟩ := (List.eq_nil_or_concat' c.ring.threads).resolve_left (by
      intro hnil
      rw [hnil] at hlen
      cases hlen)
    have hus5 : us.length = 5 := by
      rw [hus, List.length_append] at hlen
      exact Nat.succ.inj hlen
    have hlast : u.tail = c.ring.tail := by
      have hchain := hu.atRest.sound.wf.chain
      rw [show (c, sh).1.ring.threads = us ++ [u] from hus] at hchain
      exact hchain.last
    have heq : c.ring.head = c.ring.tail + c.ring.size := hu.atRest.head_eq
    refine ⟨u, ?_, by omega⟩
    rw [hthreads, hus, List.append_assoc, List.getElem?_append_right (by omega), hus5]
    rfl
  · rw [hthreads, ← hlen]
    exact List.getElem?_concat_length
  · rw [hacks₁, hacks, List.length_map, show c.ring = _ from hring, Ring.length_placed_writes]
    rfl
  · rw [hacks₁, hacks, List.getElem?_map, show c.ring = _ from hring]
    exact congrArg (Option.map Stored.ack) (boot_first old _)

/-! ## The threads in order -/

section InOrder

variable {old new : Record} {c : Conn}

/-- The threads run one after the other. Before the last one the tail word is the head, and the
client spins; after it the client may go on. -/
theorem LapFull.threads_in_order (h : LapFull old new c) (sh : Shared) :
    ∃ tr threads logged log, system.Run (c, sh) tr
        (c.background ringHeader threads false logged [], { sh with log := log }) ∧
      calls tr = [] ∧ Meets InOrder tr ∧ (∀ p ∈ tr, p.2 ≠ .client) ∧
      (∀ u ∈ threads, u.stage = .done) ∧ ∃ p ∈ tr, p.1.1.client.Spins := by
  have hget : ∀ i < 7, ∃ t, c.clerk.threads[i]? = some t ∧ t.stage = .pending := by
    intro i hi
    have hi : i < c.clerk.threads.length := h.threads ▸ hi
    exact ⟨_, List.getElem?_eq_getElem hi, h.pending _ (List.getElem_mem hi)⟩
  -- the six threads of the full batches
  obtain ⟨tr₁, word₁, threads₁, logged₁, log₁, hrun₁, hcalls₁, hthreads₁, hword₁, hlabels₁,
      hord₁⟩ :=
    threads_finish (List.range 6) List.nodup_range sh h.toClient h.mu
      fun i hi => hget i (by rw [List.mem_range] at hi; omega)
  obtain ⟨u₅, hu₅, htail₅⟩ := h.sixth
  have hword₁ : word₁ = 126008 := by
    rw [hword₁]
    show (c.clerk.threads[5]?).elim _ _ = _
    rw [hu₅]
    exact htail₅
  have hspins : (c.background word₁ threads₁ false logged₁ []).client.Spins := by
    refine .inl ⟨new, h.pc, ?_⟩
    show c.client.bufHead ≤ word₁
    rw [hword₁, h.head]
  -- the thread of the `NOP`
  obtain ⟨u₆, hu₆, htail₆⟩ := h.seventh
  have hu₆' : threads₁[6]? = some u₆ := by
    rw [hthreads₁, hu₆]
    rfl
  obtain ⟨tr₂, word₂, threads₂, logged₂, log₂, hrun₂, hcalls₂, hthreads₂, hword₂, hlabels₂,
      hord₂⟩ :=
    threads_finish [6] (by decide) (c := c.background word₁ threads₁ false logged₁ [])
      { sh with log := log₁ } rfl rfl (by
        intro i hi
        rw [List.mem_singleton.mp hi]
        exact ⟨u₆, hu₆', h.pending u₆ (List.mem_of_getElem? hu₆)⟩)
  have hword₂ : word₂ = ringHeader := by
    rw [hword₂]
    show (threads₁[6]?).elim _ _ = _
    rw [hu₆']
    exact htail₆
  have hturn : InTurn threads₁ [6] := by
    intro pre i post hsingle j hj t ht hpend
    have hi : i ∈ [6] := by
      rw [hsingle]
      exact List.mem_append_right _ List.mem_cons_self
    rw [List.mem_singleton] at hi
    rw [hthreads₁] at ht
    obtain ⟨v, -, rfl⟩ := Option.map_eq_some_iff.mp ht
    rw [if_pos (List.mem_range.mpr (by omega))] at hpend
    cases hpend
  subst hword₂
  refine ⟨tr₁ ++ tr₂, threads₂, logged₂, log₂, hrun₁.trans hrun₂, ?_, ?_, ?_, ?_, ?_⟩
  · rw [calls_append, hcalls₁, hcalls₂]
    rfl
  · exact meets_append.mpr ⟨hord₁ (inTurn_range _ 6), hord₂ hturn⟩
  · intro p hp
    rcases List.mem_append.mp hp with hp | hp
    · exact hlabels₁ p hp
    · exact hlabels₂ p hp
  · intro u hu
    obtain ⟨j, hj⟩ := List.getElem?_of_mem hu
    rw [hthreads₂] at hj
    obtain ⟨v, hv, rfl⟩ := Option.map_eq_some_iff.mp hj
    have hv : threads₁[j]? = some v := hv
    rw [hthreads₁] at hv
    obtain ⟨x, hx, rfl⟩ := Option.map_eq_some_iff.mp hv
    have hj7 : j < 7 := h.threads ▸ (List.getElem?_eq_some_iff.mp hx).1
    by_cases hj6 : j = 6
    · rw [if_pos (List.mem_singleton.mpr hj6)]
    · rw [if_neg (fun h => hj6 (List.mem_singleton.mp h)),
        if_pos (List.mem_range.mpr (by omega))]
  · rcases hrun₂.first with hsame | ⟨l, hmem⟩
    · have hwords : ringHeader = word₁ :=
        congrArg (fun s : Conn × Shared => s.1.client.bufTail) hsame
      rw [hword₁] at hwords
      cases hwords
    · exact ⟨_, List.mem_append_right _ hmem, hspins⟩

/-- The threads get the mutex in order, and the nineteenth record takes the place of the first. -/
theorem lap_in_order (hold : old.length = 7000) (hnew : new.length = 7000) :
    ∃ tr s, system.Run boot tr s ∧ calls tr = (List.replicate 18 old ++ [new]).map .write ∧
      Meets (fun s l => InOrder s l ∧ Cleared s l) tr ∧ (∃ p ∈ tr, p.1.1.client.Spins) ∧
      AtRest s ∧ s.1.client.acks[0]? = some (old, ringHeader) ∧
      s.1.client.acks[18]? = some (new, ringHeader) := by
  obtain ⟨tr₀, c, sh, hrun₀, hno, hcalls₀, hfull⟩ := full_lap hold hnew
  have hclear₀ : Meets Cleared tr₀ :=
    cleared_of_lap (init_sole boot_init).toSound hrun₀ hfull.lap
  obtain ⟨tr₁, threads, logged, log, hrun₁, hcalls₁, hord₁, hlabels₁, hdone, p, hp, hspins⟩ :=
    hfull.threads_in_order sh
  have hrun := hrun₀.trans hrun₁
  have hs := (reachable_sole ⟨boot, _, boot_init, hrun⟩).toSound
  obtain ⟨c₂, hstep, ⟨l, hr⟩, hpc, htoClient, hclerk, hring, hacks⟩ :=
    rewind_posts hs hfull.pc (by
      show ringHeader < c.client.bufHead
      rw [hfull.head]
      decide)
  have hs₂ := hs.step hstep
  obtain ⟨c₃, m, ⟨tr₃, hrun₃, hno₃, hcalls₃⟩, hrest, hring₃, -, hacks₃⟩ :=
    record_completes hs₂ hr hpc (by rw [htoClient]; rfl)
  have hlap : c₃.client.lap = c₂.client.lap := by
    have hlap : (c₂.ring.put new).lap = c₂.ring.lap := by
      unfold Ring.put
      split <;> rfl
    exact (congrArg Ring.lap hring₃).trans hlap
  have hclear₃ : Meets Cleared tr₃ := cleared_of_lap hs₂ hrun₃ hlap
  have hpos : c₂.ring.tail + c₂.ring.size = ringHeader := by
    rw [hring]
    show c.ring.tail + c.ring.size = ringHeader
    rw [hfull.tail, hfull.size]
    rfl
  have hacks : c₃.client.acks = c.client.acks ++ [(new, ringHeader)] := by
    rw [hacks₃, hacks, hpos]
    rfl
  refine ⟨_, _, (hrun.snoc hstep).trans hrun₃, ?_, ?_, ⟨p, ?_, hspins⟩, hrest, ?_, ?_⟩
  · simp only [calls_append, hcalls₀, hcalls₁, hcalls₃, List.append_nil]
    exact List.append_nil _
  · rw [meets_append, meets_snoc, meets_append]
    refine ⟨⟨⟨?_, ?_⟩, trivial, ?_⟩, ?_⟩
    · exact fun p hp => ⟨inOrder_of_foreground (hno p hp), hclear₀ p hp⟩
    · exact fun p hp => ⟨hord₁ p hp, cleared_of_ne (hlabels₁ p hp)⟩
    · intro r _ u hu hd
      exact absurd (hdone u hu) hd
    · exact fun p hp => ⟨inOrder_of_foreground (hno₃ p hp), hclear₃ p hp⟩
  · simp only [List.mem_append]
    exact .inl (.inl (.inr hp))
  · rw [hacks, List.getElem?_append_left (by rw [hfull.acks]; decide)]
    exact hfull.first
  · rw [hacks, ← hfull.acks]
    exact List.getElem?_concat_length

end InOrder

end LogDirect.Hybrid
