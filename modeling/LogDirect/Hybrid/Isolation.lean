import LogDirect.Hybrid.Server
import LogDirect.Lib.Extents

/-!
# Slots of the device buffer

The whole device buffer is registered for every client; what keeps the clients apart
is the offset of a slot, so that `bitmap_` has to say exactly which slots are in use
and no ring write may leave its slot. `Wf` has one direction already: a live clerk's
slot is taken. Here is the other one (`Accounted`), that the slot chosen is the
lowest free one, and where the writes in flight to a ring will land.
-/

namespace LogDirect.Hybrid

open Lib TSys

/-- The clerk's turn does not give the ring back. -/
theorem Conn.Serves.not_closed {c c' : Conn} {sh sh' : Shared}
    (h : c.Serves sh c' sh') (hrun : c.clerk.pc = .running) : c'.clerk.pc ≠ .closed := by
  have hpc : c.clerk.pc ≠ .closed := by
    rw [hrun]
    exact ClerkPc.noConfusion
  cases h with
  | nop | short | full | sync | delete => exact hpc
  | get =>
    obtain ⟨st, n, v, hreply⟩ := Clerk.get_eq_reply c.woken sh
    rw [hreply]
    exact hpc
  | closeFull | closeEmpty => exact ClerkPc.noConfusion

namespace Server

/-- A live clerk has the slot. -/
def Held (s : Server) (n : Nat) : Prop :=
  ∃ (i : Nat) (x : Session), s.sessions[i]? = some x ∧ x.Live ∧ x.slot = some n

/-- Every bit of `bitmap_` stands for a live clerk. -/
def Accounted (s : Server) : Prop := ∀ n < 64, Slots.Taken s.bitmap n → s.Held n

variable {s s' : Server} {n i : Nat} {x : Session}

theorem Wf.taken (hwf : s.Wf) (h : s.Held n) :
    Slots.Taken s.bitmap n ∧ n < maxDmabufSize / maxAsyncSize := by
  obtain ⟨i, x, hx, hlive, hslot⟩ := h
  rcases hwf.holds i x hx hlive with ⟨k, hk, hlt, htaken, -⟩ | ⟨hnone, -⟩
  · rw [hslot] at hk
    cases hk
    exact ⟨htaken, hlt⟩
  · rw [hslot] at hnone
    cases hnone

/-- Two live clerks have different slots. -/
theorem Wf.slot_unique (hwf : s.Wf) {j : Nat} {y : Session} (hx : s.sessions[i]? = some x)
    (hy : s.sessions[j]? = some y) (hlive : x.Live) (hlive' : y.Live) (hslot : x.slot = some n)
    (hslot' : y.slot = some n) : i = j := by
  by_contra hne
  have hap := hwf.apart i j x y hx hy hne hlive hlive'
  have hring : ∀ (k : Nat) (z : Session), s.sessions[k]? = some z → z.Live → z.slot = some n →
      z.ring = s.dmabuf + maxAsyncSize * n := by
    intro k z hz hl hs
    rcases hwf.holds k z hz hl with ⟨n', hn', -, -, hring⟩ | ⟨hnone, -⟩
    · rw [hs] at hn'
      cases hn'
      exact hring
    · rw [hs] at hnone
      cases hnone
  rw [hring i x hx hlive hslot, hring j y hy hlive' hslot'] at hap
  simp only [Apart, maxAsyncSize] at hap
  omega

/-! ## Connections -/

theorem Connects.old (h : s.Connects s' x) (hheld : s.Held n) : s'.Held n := by
  obtain ⟨i, y, hy, hrest⟩ := hheld
  refine ⟨i, y, ?_, hrest⟩
  rw [h.sessions, List.getElem?_append_left (List.getElem?_eq_some_iff.mp hy).1]
  exact hy

theorem Connects.accounted (h : s.Connects s' x) (hacc : s.Accounted) : s'.Accounted := by
  intro n hn htaken
  rcases h.ring with ⟨k, hslot, hk, -, hfree, hbits⟩ | ⟨-, hbits, -⟩
  · have hsize : maxDmabufSize / maxAsyncSize < 64 := by decide
    rw [hbits, Slots.taken_add (by omega) hfree hn] at htaken
    rcases htaken with htaken | rfl
    · exact h.old (hacc n hn htaken)
    · refine ⟨s.sessions.length, x, ?_, ?_, hslot⟩
      · rw [h.sessions, List.getElem?_append_right (Nat.le_refl _), Nat.sub_self]
        rfl
      · obtain ⟨flag, m, m', -, hfresh⟩ := h.fresh
        refine .of_running ?_
        rw [hfresh]
        rfl
  · rw [hbits] at htaken
    exact h.old (hacc n hn htaken)

/-- The slot a connection gets. -/
theorem connect_slot {buffer flag : Nat} {m m' : Mem}
    (h : server.step s (.connect buffer flag m m') = some s') :
    ∃ x, s'.sessions = s.sessions ++ [x] ∧
      (x.slot = some (Slots.firstFree s.bitmap) ∧
          Slots.firstFree s.bitmap < maxDmabufSize / maxAsyncSize ∨
        x.slot = none ∧ maxDmabufSize / maxAsyncSize ≤ Slots.firstFree s.bitmap) := by
  have h : s.connect buffer flag m m' = some s' := h
  unfold connect at h
  simp only at h
  split at h
  · cases h
  · split at h
    · rename_i hslot
      cases h
      exact ⟨_, rfl, .inl ⟨rfl, hslot⟩⟩
    · rename_i hslot
      split at h
      · cases h
        exact ⟨_, rfl, .inr ⟨rfl, Nat.le_of_not_lt hslot⟩⟩
      · cases h

/-! ## Steps of a connection -/

/-- What the callback does to `bitmap_`. -/
theorem callback_bitmap (h : server.step s (.conn i .callback) = some s')
    (hx : s.sessions[i]? = some x) : s'.bitmap = s.clearMemory x.slot := by
  have h : s.step (.conn i .callback) = some s' := h
  simp only [step, hx] at h
  obtain ⟨p, -, rfl⟩ := Option.map_eq_some_iff.mp h
  rfl

namespace Steps

variable {s s' : Server} {i : Nat} {l : Label} {x : Session} {c : Conn}

/-- Only the callback gives the ring back. -/
theorem stays_live (h : s.Steps s' i l x c) (hwf : s.Wf) (hl : l ≠ .callback) (hlive : x.Live) :
    Session.Live ⟨c, x.slot⟩ := by
  by_cases hserve : l = .serve
  · subst hserve
    have hinv := hwf.inv i x h.session
    obtain ⟨hsv, hrun, -⟩ := Conn.serve_serves hinv.phase hinv.batch h.step
    exact hsv.not_closed hrun
  · unfold Session.Live at hlive ⊢
    rw [Conn.step_clerk_same h.step hserve hl]
    exact hlive

/-- The slot of another connection stays in use. -/
theorem held_other (h : s.Steps s' i l x c) {j n : Nat} {y : Session} (hj : j ≠ i)
    (hy : s.sessions[j]? = some y) (hlive : y.Live) (hslot : y.slot = some n) : s'.Held n :=
  ⟨j, y, (h.other hj).trans hy, hlive, hslot⟩

/-- A step that leaves `bitmap_` and the ring. -/
theorem accounted_of_live (h : s.Steps s' i l x c) (hwf : s.Wf) (hacc : s.Accounted)
    (hl : l ≠ .callback) : s'.Accounted := by
  intro n hn htaken
  have hbits : s'.bitmap = s.bitmap := by
    rcases h.bitmap with hbits | ⟨hcb, -⟩
    · exact hbits
    · exact absurd hcb hl
  rw [hbits] at htaken
  obtain ⟨j, y, hy, hlive, hslot⟩ := hacc n hn htaken
  by_cases hj : j = i
  · subst hj
    rw [h.session] at hy
    cases hy
    exact ⟨j, _, h.self, h.stays_live hwf hl hlive, hslot⟩
  · exact h.held_other hj hy hlive hslot

/-- The callback gives back the slot of its own connection. -/
theorem accounted_of_callback (h : s.Steps s' i .callback x c) (hwf : s.Wf) (hacc : s.Accounted)
    (hbits : s'.bitmap = s.clearMemory x.slot) : s'.Accounted := by
  intro n hn htaken
  obtain ⟨sync, hpc, -⟩ := Conn.callback_step h.step
  have hlive : x.Live := by
    unfold Session.Live
    rw [hpc]
    exact ClerkPc.noConfusion
  -- the bit is that of another slot
  have hother : Slots.Taken s.bitmap n ∧ x.slot ≠ some n := by
    cases hslot : x.slot with
    | none =>
      rw [hbits, hslot] at htaken
      exact ⟨htaken, (Option.some_ne_none n).symm⟩
    | some k =>
      have hk := hwf.taken ⟨i, x, h.session, hlive, hslot⟩
      have hsize : maxDmabufSize / maxAsyncSize < 64 := by decide
      have hsub : s'.bitmap = s.bitmap - Slots.bit 64 k := by
        rw [hbits, hslot]
        rfl
      rw [hsub, Slots.taken_sub (by omega) hk.1 hn] at htaken
      refine ⟨htaken.1, fun heq => htaken.2 ?_⟩
      cases heq
      rfl
  obtain ⟨j, y, hy, hlive', hslot'⟩ := hacc n hn hother.1
  refine h.held_other ?_ hy hlive' hslot'
  rintro rfl
  rw [h.session] at hy
  cases hy
  exact hother.2 hslot'

end Steps

theorem Accounted.step {l : Move} (hwf : s.Wf) (hacc : s.Accounted)
    (h : server.step s l = some s') : s'.Accounted := by
  cases l with
  | connect buffer flag m m' =>
    obtain ⟨x, hc⟩ := connect_step h
    exact hc.accounted hacc
  | conn i l =>
    obtain ⟨x, c, hc⟩ := conn_step h
    by_cases hl : l = .callback
    · subst hl
      exact hc.accounted_of_callback hwf hacc (callback_bitmap h hc.session)
    · exact hc.accounted_of_live hwf hacc hl

theorem reachable_accounted (h : server.Reachable s) : s.Wf ∧ s.Accounted := by
  refine h.invariant (fun s => s.Wf ∧ s.Accounted) ?_ ?_
  · intro s hinit
    refine ⟨init_wf hinit, fun n _ htaken => ?_⟩
    rw [hinit.2.1] at htaken
    simp [Slots.Taken] at htaken
  · intro s l s' hs hstep
    exact ⟨hs.1.step hstep, hs.2.step hs.1 hstep⟩

/-! ## Ring writes -/

/-- The addresses a write to the ring of a session will change. -/
def writeExtent (x : Session) (off : Nat) (bs : Bytes) : Extent := ⟨x.ring + off, bs.length⟩

/-- The part of the device buffer that is slot `n`. -/
def slotExtent (s : Server) (n : Nat) : Extent := ⟨s.dmabuf + maxAsyncSize * n, maxAsyncSize⟩

/-- The clerk of a connection with a ring write in flight is live, and the write stays in
the ring. -/
theorem Wf.ring_write (hwf : s.Wf) (hx : s.sessions[i]? = some x) {off : Nat} {bs : Bytes}
    (hmem : .ring off bs ∈ x.conn.toClerk) :
    x.Live ∧ (writeExtent x off bs).Within ⟨x.ring, maxAsyncSize⟩ := by
  obtain ⟨r, -, rfl, -, -, hhead, hlt, hrun⟩ := (hwf.inv i x hx).phase.ring_write hmem
  refine ⟨.of_running hrun, Nat.le_add_right _ _, ?_⟩
  show x.ring + off + r.encode.length ≤ x.ring + maxAsyncSize
  rw [Record.length_encode]
  omega

/-- **Slot isolation.** In every reachable state of the server a bit of `bitmap_` is set
exactly when a live clerk has the slot; no two live clerks have the same one; a connection
gets the lowest free slot, or memory of its own if every slot is taken; and a write in
flight to the ring of a slot stays in the slot, in the device buffer. -/
theorem slots_isolated (h : server.Reachable s) :
    (∀ n < 64, s.bitmap.getLsbD (63 - n) = true ↔ s.Held n) ∧
    (∀ (i j n : Nat) (x y : Session), s.sessions[i]? = some x → s.sessions[j]? = some y →
      x.Live → y.Live → x.slot = some n → y.slot = some n → i = j) ∧
    (∀ buffer flag m m' s', server.step s (.connect buffer flag m m') = some s' →
      ∃ x, s'.sessions = s.sessions ++ [x] ∧
        ((∃ n, x.slot = some n ∧ n < maxDmabufSize / maxAsyncSize ∧ ¬ s.Held n ∧
            ∀ k < n, s.Held k) ∨
          x.slot = none ∧ ∀ k < maxDmabufSize / maxAsyncSize, s.Held k)) ∧
    (∀ (i n off : Nat) (x : Session) (bs : Bytes), s.sessions[i]? = some x →
      .ring off bs ∈ x.conn.toClerk → x.slot = some n →
      x.Live ∧ (writeExtent x off bs).Within (s.slotExtent n) ∧
        (s.slotExtent n).Within ⟨s.dmabuf, maxDmabufSize⟩) := by
  obtain ⟨hwf, hacc⟩ := reachable_accounted h
  have hsize : maxDmabufSize / maxAsyncSize < 64 := by decide
  have htaken : ∀ n < 64, Slots.Taken s.bitmap n ↔ s.Held n :=
    fun n hn => ⟨hacc n hn, fun hheld => (hwf.taken hheld).1⟩
  refine ⟨?_, ?_, ?_, ?_⟩
  · intro n hn
    rw [← htaken n hn, Slots.Taken, BitVec.getMsbD_eq_getLsbD]
    simp [hn]
  · intro i j n x y hx hy hlive hlive' hslot hslot'
    exact hwf.slot_unique hx hy hlive hlive' hslot hslot'
  · intro buffer flag m m' s' hstep
    have hlower : ∀ k < Slots.firstFree s.bitmap, k < 64 → s.Held k := by
      intro k hk hk'
      exact hacc k hk' (Slots.taken_of_lt_firstFree hk hk')
    obtain ⟨x, hsessions, ⟨hslot, hlt⟩ | ⟨hslot, hge⟩⟩ := connect_slot hstep
    · refine ⟨x, hsessions, .inl ⟨_, hslot, hlt, ?_, fun k hk => hlower k hk (by omega)⟩⟩
      intro hheld
      exact Slots.not_taken_firstFree (by omega) (hwf.taken hheld).1
    · exact ⟨x, hsessions, .inr ⟨hslot, fun k hk => hlower k (by omega) (by omega)⟩⟩
  · intro i n off x bs hx hmem hslot
    obtain ⟨hlive, hin⟩ := hwf.ring_write hx hmem
    rcases hwf.holds i x hx hlive with ⟨k, hk, hlt, -, hring⟩ | ⟨hnone, -⟩
    · rw [hslot] at hk
      cases hk
      rw [hring] at hin
      exact ⟨hlive, hin, Nat.le_add_right _ _, slot_within hlt⟩
    · rw [hslot] at hnone
      cases hnone

/-- After the first connection slot 0 is in use, and the next one gets slot 1. -/
theorem first_slot_isolated : server.Reachable (idle.joined 0) ∧ (idle.joined 0).Held 0 ∧
    ¬ (idle.joined 0).Held 1 ∧ ∀ s', server.step (idle.joined 0)
      (.connect 0 0 (fun _ => 0) (fun _ => 0)) = some s' →
        ∃ x, s'.sessions = (idle.joined 0).sessions ++ [x] ∧ x.slot = some 1 := by
  have hjoin := joins (s := idle) (n := 0) (by decide) (by decide)
  have hreach : server.Reachable (idle.joined 0) := ⟨idle, _, idle_init, TSys.Run.nil.snoc hjoin⟩
  obtain ⟨hbits, -, hnext, -⟩ := slots_isolated hreach
  have hzero : (idle.joined 0).Held 0 := (hbits 0 (by decide)).mp (by decide)
  have hone : ¬ (idle.joined 0).Held 1 := by
    rw [← hbits 1 (by decide)]
    decide
  refine ⟨hreach, hzero, hone, fun s' hstep => ?_⟩
  obtain ⟨x, hsessions, ⟨n, hslot, -, hfree, hlower⟩ | ⟨-, hall⟩⟩ := hnext _ _ _ _ s' hstep
  · have hn : n = 1 := by
      rcases Nat.lt_trichotomy n 1 with hlt | heq | hgt
      · exact absurd (Nat.lt_one_iff.mp hlt ▸ hzero) hfree
      · exact heq
      · exact absurd (hlower 1 hgt) hone
    exact ⟨x, hsessions, hn ▸ hslot⟩
  · exact absurd (hall 1 (by decide)) hone

end Server

end LogDirect.Hybrid
