import LogDirect.Hybrid.Serve

/-!
# The invariant of a connection

`Conn.Inv` joins the handshake and the open batch; every step keeps it. Other
connections only touch memory outside a connection's ring, so the invariant also
survives their steps (`Inv.frame`).
-/

namespace LogDirect.Hybrid

open Lib

namespace Conn

/-- The invariant of one connection over a memory. -/
structure Inv (c : Conn) (m : Mem) : Prop where
  phase : c.Phase m
  batch : c.clerk.pc = .running → c.clerk.BatchInv m

/-- A fresh connection. -/
theorem fresh_inv (m : Mem) (writeBuf : Nat) {flag : Nat} (clientMsg clerkMsg : Mem)
    (hflag : flag ≠ clientDone) : (Conn.fresh writeBuf flag clientMsg clerkMsg).Inv m := by
  constructor
  · exact .inl ⟨.inl rfl, rfl, rfl, rfl, hflag, rfl, ⟨rfl, rfl⟩, ⟨rfl, rfl⟩⟩
  · intro _
    refine ⟨⟨Nat.le_refl _, ?_, rfl, rfl, rfl, trivial, rfl, List.nil_suffix⟩, ?_⟩
    · show ringHeader + 0 < maxAsyncSize
      decide
    · show 0 < batchSize
      decide

/-- Steps other than the clerk's leave the open batch, up to the ring. -/
theorem step_batch {c c' : Conn} {sh sh' : Shared} {l : Label} (hl : l ≠ .serve)
    (hinv : c.Inv sh.mem) (h : c.step sh l = some (c', sh')) :
    c'.clerk.pc = .running → c'.clerk.BatchInv sh'.mem := by
  intro hrun
  cases l with
  | call q =>
    obtain ⟨-, rfl, rfl⟩ := call_step h
    exact hinv.batch hrun
  | client =>
    obtain ⟨-, rfl, cl, out, -, rfl⟩ := client_step h
    exact hinv.batch hrun
  | toClerk =>
    have hrun' : c.clerk.pc = .running := by
      obtain ⟨w, ws, hw, rfl, rfl⟩ := toClerk_step h
      cases w <;> exact hrun
    exact toClerk_batch hinv.phase (hinv.batch hrun') h
  | toClient =>
    obtain ⟨w, ws, hw, rfl, rfl⟩ := toClient_step h
    cases w <;> exact (hinv.batch hrun).congr rfl
  | serve => exact absurd rfl hl
  | callback =>
    obtain ⟨sync, -, -, -, rfl⟩ := callback_step h
    cases hrun
  | persist i =>
    obtain ⟨t, -, -, -, rfl, rfl⟩ := persist_step h
    exact (hinv.batch hrun).congr rfl
  | post i =>
    obtain ⟨t, -, -, rfl, rfl⟩ := post_step h
    exact (hinv.batch hrun).congr rfl

/-- Every step keeps the invariant. -/
theorem step_inv {c c' : Conn} {sh sh' : Shared} {l : Label} (hinv : c.Inv sh.mem)
    (h : c.step sh l = some (c', sh')) : c'.Inv sh'.mem := by
  by_cases hl : l = .serve
  · subst hl
    obtain ⟨hs, hrun, hb⟩ := serve_serves hinv.phase hinv.batch h
    exact ⟨hs.phase hinv.phase hrun (serve_step h).2.1 hb, hs.batch hb⟩
  · refine ⟨?_, step_batch hl hinv h⟩
    cases l with
    | call q => exact call_phase hinv.phase h
    | client => exact client_phase hinv.phase h
    | toClerk => exact toClerk_phase hinv.phase h
    | toClient => exact toClient_phase hinv.phase h
    | serve => exact absurd rfl hl
    | callback => exact callback_phase hinv.phase h
    | persist i => exact persist_phase hinv.phase h
    | post i => exact post_phase hinv.phase h

/-- A memory that agrees on the ring of a running clerk serves as well. -/
theorem Inv.frame {c : Conn} {m m' : Mem} (hinv : c.Inv m)
    (hm : c.clerk.pc = .running →
      ∀ a, c.clerk.writeBuf ≤ a → a < c.clerk.writeBuf + maxAsyncSize → m' a = m a) :
    c.Inv m' := by
  have hread : c.clerk.pc = .running → ∀ a n, a + n ≤ maxAsyncSize →
      m'.read (c.clerk.writeBuf + a) n = m.read (c.clerk.writeBuf + a) n := by
    intro hrun a n han
    exact Mem.read_congr fun i hi => hm hrun _ (by omega) (by omega)
  constructor
  · rcases hinv.phase with hq | ⟨l, hr⟩ | hrest
    · exact .inl hq
    · refine .inr (.inl ⟨l, hr.posted, fun w hw => ?_, hr.clerk_flag, hr.replies, hr.client_flag,
        hr.running, hr.heads, hr.books⟩)
      have hland := hr.landed w hw
      cases w with
      | ring off bs =>
        obtain ⟨r, hpc, rfl⟩ := hr.posted.ring (List.mem_append_left _ hw)
        have hheads := hr.heads
        simp only [HeadsBefore, hpc] at hheads
        have hlen : r.encode.length = r.length := r.length_encode
        refine (hread hr.running off _ ?_).trans hland
        omega
      | body bs => exact hland
      | header v => exact hland
      | send => exact hland
    · exact .inr (.inr hrest)
  · intro hrun
    obtain ⟨hl, hlt⟩ := hinv.batch hrun
    refine ⟨⟨hl.tail_ge, hl.head_lt, hl.len_eq, hl.keys, hl.index, hl.placed, ?_, hl.recent⟩, hlt⟩
    have := hl.head_lt
    rw [hread hrun _ _ (by omega)]
    exact hl.ring

end Conn

/-! ## Reachable states of one connection -/

/-- The invariant holds in every reachable state. -/
theorem reachable_inv {c : Conn} {sh : Shared} (h : system.Reachable (c, sh)) : c.Inv sh.mem := by
  refine h.invariant (fun s => s.1.Inv s.2.mem) ?_ ?_
  · rintro s ⟨-, writeBuf, flag, m, m', hflag, hs⟩
    rw [hs]
    exact Conn.fresh_inv _ _ _ _ hflag
  · intro s l s' hs hstep
    exact Conn.step_inv hs hstep

end LogDirect.Hybrid
