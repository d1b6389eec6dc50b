import LogDirect.RemotePath.Ssd
import Mathlib.Data.List.Forall2

/-!
# One block for each call

A round of `Write` takes the two regions through `opening`, `asked`, `served` and
`answered`. The first byte of the server's header decides whether its loop can end:
it is the last one written by the server until the first byte of the next request
has landed (`Calm`, `Awaits`), so the loop ends once for each request. It may end
before the rest of the request has landed, and then the block has bytes of an
earlier one. Where nothing behind the header is in flight when the server calls
`write`, the block is that of the call.
-/

namespace LogDirect.RemotePath

open Lib TSys

/-! ## What the server can see -/

/-- Nothing in flight goes to the first byte. -/
def SkipsFirst (w : Wire) : Prop := ∀ p ∈ w, p.1 ≠ 0

/-- The server sees no flag of the client, whatever of the wire lands. -/
def Calm (m : Mem) (w : Wire) : Prop :=
  SkipsFirst w ∧ m 0 = 0x7f ∨ w = [] ∧ ¬ Holds m clientFlag ∧ ¬ Holds m endFlag

/-- A block that begins with `byte` was posted, and its first byte is on its way or has
landed. -/
def Awaits (byte : UInt8) (m : Mem) (w : Wire) : Prop :=
  (∃ old bs, w = old ++ Wire.post 0 (byte :: bs) ∧ Calm m old) ∨ SkipsFirst w ∧ m 0 = byte

variable {p : Nat × UInt8} {w : Wire} {m : Mem} {l : Label}

theorem SkipsFirst.tail (h : SkipsFirst (p :: w)) : SkipsFirst w :=
  fun q hq => h q (List.mem_cons_of_mem p hq)

/-- Nothing but the first byte of a block goes to its address. -/
theorem skipsFirst_post (bs : Bytes) : SkipsFirst (Wire.post 1 bs) := by
  intro p hp
  have := (Wire.mem_post hp).1
  omega

theorem SkipsFirst.write (h : SkipsFirst (p :: w)) (m : Mem) : m.write p.1 [p.2] 0 = m 0 :=
  m.write_byte_of_ne p.2 (h p List.mem_cons_self)

theorem Calm.deliver (h : Calm m (p :: w)) : Calm (m.write p.1 [p.2]) w := by
  rcases h with ⟨hskip, hfirst⟩ | ⟨hnil, -⟩
  · exact .inl ⟨hskip.tail, by rw [hskip.write, hfirst]⟩
  · cases hnil

theorem Calm.not_holds (h : Calm m w) : ¬ Holds m clientFlag ∧ ¬ Holds m endFlag := by
  rcases h with ⟨-, hfirst⟩ | ⟨-, h⟩
  · refine ⟨fun hc => ?_, fun he => ?_⟩
    · exact absurd (hfirst.symm.trans hc.first) (by decide)
    · exact absurd (hfirst.symm.trans he.first) (by decide)
  · exact h

theorem Awaits.deliver {byte : UInt8} (h : Awaits byte m (p :: w)) :
    Awaits byte (m.write p.1 [p.2]) w := by
  rcases h with ⟨old, bs, heq, hcalm⟩ | ⟨hskip, hfirst⟩
  · cases old with
    | nil =>
      -- the first byte of the block lands
      cases heq
      exact .inr ⟨skipsFirst_post bs, m.write_byte 0 byte⟩
    | cons q old =>
      cases heq
      exact .inl ⟨old, bs, rfl, hcalm.deliver⟩
  · exact .inr ⟨hskip.tail, by rw [hskip.write, hfirst]⟩

/-- The server's loop ends only after the first byte has landed. -/
theorem Awaits.seen (h : Awaits 0xf7 m w) (hflag : Holds m clientFlag) : SkipsFirst w := by
  rcases h with ⟨old, bs, -, hcalm⟩ | ⟨hskip, -⟩
  · exact absurd hflag hcalm.not_holds.1
  · exact hskip

theorem Awaits.not_end (h : Awaits 0xf7 m w) : ¬ Holds m endFlag := by
  rcases h with ⟨old, bs, -, hcalm⟩ | ⟨-, hfirst⟩
  · exact hcalm.not_holds.2
  · intro he
    exact absurd (hfirst.symm.trans he.first) (by decide)

/-- Posting a block from the first address on. -/
theorem Calm.post {c : Mem} (h : Calm m w) {byte : UInt8} (hfirst : c 0 = byte) {n : Nat}
    (hn : n ≠ 0) : Awaits byte m (w ++ Wire.post 0 (c.read 0 n)) := by
  obtain ⟨k, rfl⟩ := Nat.exists_eq_succ_of_ne_zero hn
  refine .inl ⟨w, c.read 1 k, ?_, h⟩
  have hread : c.read 0 (k + 1) = c 0 :: c.read 1 k := by
    rw [Nat.add_comm k 1, c.read_add]
    rfl
  rw [Nat.succ_eq_add_one, hread, hfirst]

/-! ## Rounds -/

/-- The blocks are those of the calls, in order: of the length, and the same behind the
header. -/
def Stored (gLength : Nat) (file calls : List Bytes) : Prop :=
  List.Forall₂ (fun block buffer => block.length = gLength ∧ block.drop 8 = buffer.drop 8) file
    calls

theorem Stored.bodies {gLength : Nat} {file calls : List Bytes} (h : Stored gLength file calls) :
    file.map (fun block => block.drop 8) = calls.map fun buffer => buffer.drop 8 := by
  induction h with
  | nil => rfl
  | cons hblock _ ih => rw [List.map_cons, List.map_cons, hblock.2, ih]

/-- In the loop on the header, or on the way there. -/
def ServerPc.Loops (pc : ServerPc) : Prop := pc = .spinning ∨ pc = .polling

/-- In `Write`, with the request posted. -/
def ClientPc.Waits (pc : ClientPc) : Prop := pc = .polling ∨ pc = .waiting

/-- In `Close`, or behind it. -/
def ClientPc.Ends (pc : ClientPc) : Prop := pc = .ending ∨ pc = .endPolling ∨ pc = .closed

/-- How far the call under way has come. -/
inductive Round (gLength : Nat) (s : Ssd) : Prop
  | rest (hclient : s.clientPc = .idle) (hserver : s.serverPc.Loops)
      (hfile : Stored gLength s.file s.calls) (hsynced : s.synced = s.file.length)
      (hcalm : Calm s.serverBuf s.toServer) (hback : s.toClient = [])
  | opening {calls buffer}
      (hclient : s.clientPc = .copied ∨ s.clientPc = .flagged ∧ Holds s.clientBuf clientFlag)
      (hserver : s.serverPc.Loops) (hcalls : s.calls = calls ++ [buffer])
      (hfile : Stored gLength s.file calls) (hcalm : Calm s.serverBuf s.toServer)
      (hback : s.toClient = []) (hbody : s.clientBuf.read 8 (gLength - 8) = buffer.drop 8)
  | asked {calls buffer} (hclient : s.clientPc.Waits)
      (hserver : s.serverPc.Loops ∧ Awaits 0xf7 s.serverBuf s.toServer ∨
        s.serverPc = .writing ∧ SkipsFirst s.toServer)
      (hcalls : s.calls = calls ++ [buffer]) (hfile : Stored gLength s.file calls)
      (hback : s.toClient = []) (hlast : s.clientBuf 7 = 0xf7)
      (hland : (Wire.land s.serverBuf s.toServer).read 8 (gLength - 8) = buffer.drop 8)
  | served (hclient : s.clientPc.Waits)
      (hserver : s.serverPc = .syncing ∨ s.synced = s.file.length ∧
        (s.serverPc = .marking ∨ s.serverPc = .posting ∧ s.serverBuf 0 = 0x7f))
      (hfile : Stored gLength s.file s.calls) (hskip : SkipsFirst s.toServer)
      (hback : s.toClient = []) (hlast : s.clientBuf 7 = 0xf7)
  | answered {a bs} (hclient : s.clientPc.Waits) (hserver : s.serverPc.Loops)
      (hfile : Stored gLength s.file s.calls) (hsynced : s.synced = s.file.length)
      (hcalm : Calm s.serverBuf s.toServer) (hback : s.toClient = Wire.post a bs)
      (hend : a + bs.length = 8) (hlast : bs ≠ [] → s.clientBuf 7 = 0xf7)
  | ended (hclient : s.clientPc.Ends)
  | aborted (hclient : s.clientPc.Waits) (hserver : s.serverPc = .aborted)
      (hback : s.toClient = []) (hlast : s.clientBuf 7 = 0xf7)

namespace Round

variable {gLength : Nat} {s s' : Ssd}

/-! ### Deliveries -/

theorem deliverServer (h : Round gLength s) (hstep : s.deliverServer = some s') :
    Round gLength s' := by
  unfold Ssd.deliverServer at hstep
  split at hstep
  · cases hstep
  · rename_i p w hwire
    cases hstep
    cases h with
    | rest hclient hserver hfile hsynced hcalm hback =>
      exact .rest hclient hserver hfile hsynced (hwire ▸ hcalm).deliver hback
    | opening hclient hserver hcalls hfile hcalm hback hbody =>
      exact .opening hclient hserver hcalls hfile (hwire ▸ hcalm).deliver hback hbody
    | asked hclient hserver hcalls hfile hback hlast hland =>
      rw [hwire] at hserver hland
      refine .asked hclient ?_ hcalls hfile hback hlast hland
      exact hserver.imp (And.imp_right Awaits.deliver) (And.imp_right SkipsFirst.tail)
    | served hclient hserver hfile hskip hback hlast =>
      rw [hwire] at hskip
      refine .served hclient ?_ hfile hskip.tail hback hlast
      have hfirst := hskip.write s.serverBuf
      rw [← hfirst] at hserver
      exact hserver
    | answered hclient hserver hfile hsynced hcalm hback hend hlast =>
      exact .answered hclient hserver hfile hsynced (hwire ▸ hcalm).deliver hback hend hlast
    | ended hclient => exact .ended hclient
    | aborted hclient hserver hback hlast => exact .aborted hclient hserver hback hlast

/-- Only an acknowledgement is ever on its way to the client, and its last byte lands last. -/
theorem deliverClient (h : Round gLength s) (hstep : s.deliverClient = some s') :
    Round gLength s' := by
  unfold Ssd.deliverClient at hstep
  split at hstep
  · cases hstep
  · rename_i p w hwire
    cases hstep
    cases h with
    | rest _ _ _ _ _ hback | opening _ _ _ _ _ hback | asked _ _ _ _ hback | served _ _ _ _ hback
    | aborted _ _ hback =>
      rw [hwire] at hback
      cases hback
    | @answered a bs hclient hserver hfile hsynced hcalm hback hend hlast =>
      rw [hwire] at hback
      cases bs with
      | nil => cases hback
      | cons b bs =>
        cases hback
        rw [List.length_cons] at hend
        refine .answered hclient hserver hfile hsynced hcalm rfl (by omega) fun hne => ?_
        have hpos := List.length_pos_of_ne_nil hne
        rw [← hlast (List.cons_ne_nil b bs)]
        exact s.clientBuf.write_byte_of_ne b (by omega)
    | ended hclient => exact .ended hclient

/-! ### The client -/

/-- Without an acknowledgement the client stays in its loop. -/
theorem not_serverFlag {m : Mem} (hlast : m 7 = 0xf7) : ¬ Holds m serverFlag := by
  intro hflag
  have h := hflag.last
  rw [hlast] at h
  exact absurd h (by decide)

/-- A step of a client that waits: the completion, or the acknowledgement. -/
theorem client_waits (hclient : s.clientPc.Waits) (hstep : s.client gLength = some s') :
    (∃ pc, pc.Waits ∧ s' = { s with clientPc := pc }) ∨
      Holds s.clientBuf serverFlag ∧ s' = { s with clientPc := .idle } := by
  rcases hclient with hpc | hpc
  · simp only [Ssd.client, hpc, Option.some.injEq] at hstep
    exact .inl ⟨.waiting, .inr rfl, hstep.symm⟩
  · simp only [Ssd.client, hpc] at hstep
    split at hstep
    · rename_i hflag
      exact .inr ⟨hflag, (Option.some.inj hstep).symm⟩
    · cases hstep

/-- What `Write` posts, behind the header. -/
theorem land_request {m c : Mem} {w : Wire} (hlen : 8 ≤ gLength) :
    (Wire.land m (w ++ Wire.post 0 (c.read 0 gLength))).read 8 (gLength - 8) =
      c.read 8 (gLength - 8) := by
  obtain ⟨k, rfl⟩ := Nat.exists_eq_add_of_le hlen
  have hread : ((Wire.land m w).write 0 (c.read 0 (8 + k))).read (0 + 8) k =
      ((c.read 0 (8 + k)).drop 8).take k := Mem.read_write_sub _ (by rw [Mem.length_read])
  rw [Wire.land_append, Wire.land_post, Nat.add_sub_cancel_left, hread, c.read_add,
    List.drop_left' (Mem.length_read ..), List.take_of_length_le (by rw [Mem.length_read])]

theorem client (h : Round gLength s) (hlen : 8 ≤ gLength) (hstep : s.client gLength = some s') :
    Round gLength s' := by
  cases h with
  | rest hclient =>
    simp only [Ssd.client, hclient] at hstep
    cases hstep
  | opening hclient hserver hcalls hfile hcalm hback hbody =>
    rcases hclient with hpc | ⟨hpc, hflag⟩
    · simp only [Ssd.client, hpc, Option.some.injEq] at hstep
      subst hstep
      exact .opening (.inr ⟨rfl, holds_setHeader _ _⟩) hserver hcalls hfile hcalm hback
        ((read_setHeader _ _ _).trans hbody)
    · simp only [Ssd.client, hpc, Option.some.injEq] at hstep
      subst hstep
      refine .asked (.inl rfl) (.inl ⟨hserver, hcalm.post hflag.first (by omega)⟩) hcalls hfile
        hback ?_ ((land_request hlen).trans hbody)
      have hlast := hflag.last
      exact Option.some.inj hlast
  | asked hclient hserver hcalls hfile hback hlast hland =>
    rcases client_waits hclient hstep with ⟨pc, hpc, rfl⟩ | ⟨hflag, -⟩
    · exact .asked hpc hserver hcalls hfile hback hlast hland
    · exact absurd hflag (not_serverFlag hlast)
  | served hclient hserver hfile hskip hback hlast =>
    rcases client_waits hclient hstep with ⟨pc, hpc, rfl⟩ | ⟨hflag, -⟩
    · exact .served hpc hserver hfile hskip hback hlast
    · exact absurd hflag (not_serverFlag hlast)
  | @answered a bs hclient hserver hfile hsynced hcalm hback hend hlast =>
    rcases client_waits hclient hstep with ⟨pc, hpc, rfl⟩ | ⟨hflag, rfl⟩
    · exact .answered hpc hserver hfile hsynced hcalm hback hend hlast
    · cases bs with
      | nil => exact .rest rfl hserver hfile hsynced hcalm hback
      | cons b bs => exact absurd hflag (not_serverFlag (hlast (List.cons_ne_nil b bs)))
  | ended hclient =>
    rcases hclient with hpc | hpc | hpc
    · simp only [Ssd.client, hpc, Option.some.injEq] at hstep
      subst hstep
      exact .ended (.inr (.inl rfl))
    · simp only [Ssd.client, hpc, Option.some.injEq] at hstep
      subst hstep
      exact .ended (.inr (.inr rfl))
    · simp only [Ssd.client, hpc] at hstep
      cases hstep
  | aborted hclient hserver hback hlast =>
    rcases client_waits hclient hstep with ⟨pc, hpc, rfl⟩ | ⟨hflag, -⟩
    · exact .aborted hpc hserver hback hlast
    · exact absurd hflag (not_serverFlag hlast)

/-- Between two calls. -/
theorem of_idle (h : Round gLength s) (hidle : s.clientPc = .idle) :
    s.serverPc.Loops ∧ Stored gLength s.file s.calls ∧ s.synced = s.file.length ∧
      Calm s.serverBuf s.toServer ∧ s.toClient = [] := by
  cases h with
  | rest hclient hserver hfile hsynced hcalm hback => exact ⟨hserver, hfile, hsynced, hcalm, hback⟩
  | opening hclient => simp [hidle] at hclient
  | asked hclient | served hclient | answered hclient | aborted hclient =>
    simp [ClientPc.Waits, hidle] at hclient
  | ended hclient => simp [ClientPc.Ends, hidle] at hclient

theorem write (h : Round gLength s) (hidle : s.clientPc = .idle) (hlen : 8 ≤ gLength)
    {buffer : Bytes} (hbuffer : buffer.length = gLength) : Round gLength { s with
      clientBuf := s.clientBuf.write 0 buffer, clientPc := .copied,
      calls := s.calls ++ [buffer] } := by
  obtain ⟨hserver, hfile, -, hcalm, hback⟩ := h.of_idle hidle
  refine .opening (.inl rfl) hserver rfl hfile hcalm hback ?_
  have hread : (s.clientBuf.write 0 buffer).read (0 + 8) (gLength - 8) =
      (buffer.drop 8).take (gLength - 8) := Mem.read_write_sub _ (by omega)
  rw [Nat.zero_add] at hread
  rw [hread, List.take_of_length_le]
  rw [List.length_drop, hbuffer]

/-! ### The server -/

/-- A loop without a flag of the client goes on. -/
theorem server_loops (hserver : s.serverPc.Loops) (hstep : s.server gLength = some s') :
    s' = { s with serverPc := .spinning } ∨
      Holds s.serverBuf endFlag ∧ s' = { s with serverPc := .done } ∨
      Holds s.serverBuf clientFlag ∧ s' = { s with serverPc := .writing } := by
  rcases hserver with hpc | hpc
  · simp only [Ssd.server, hpc] at hstep
    split at hstep
    · rename_i hflag
      exact .inr (.inl ⟨hflag, (Option.some.inj hstep).symm⟩)
    · split at hstep
      · rename_i hflag
        exact .inr (.inr ⟨hflag, (Option.some.inj hstep).symm⟩)
      · cases hstep
  · simp only [Ssd.server, hpc, Option.some.injEq] at hstep
    exact .inl hstep.symm

theorem server_calm (hserver : s.serverPc.Loops) (hcalm : Calm s.serverBuf s.toServer)
    (hstep : s.server gLength = some s') : s' = { s with serverPc := .spinning } := by
  rcases server_loops hserver hstep with h | ⟨hflag, -⟩ | ⟨hflag, -⟩
  · exact h
  · exact absurd hflag hcalm.not_holds.2
  · exact absurd hflag hcalm.not_holds.1

/-- What the server writes is the block of the call, if nothing behind the header is in
flight. -/
theorem stored_write {calls : List Bytes} {buffer : Bytes} (hlen : 8 ≤ gLength)
    (hfile : Stored gLength s.file calls)
    (hland : (Wire.land s.serverBuf s.toServer).read 8 (gLength - 8) = buffer.drop 8)
    (hwhole : ∀ p ∈ s.toServer, p.1 < 8) :
    Stored gLength (s.file ++ [s.serverBuf.read 0 gLength]) (calls ++ [buffer]) := by
  refine List.rel_append hfile (.cons ⟨Mem.length_read .., ?_⟩ .nil)
  rw [Wire.read_land_of_lt hwhole] at hland
  rw [← hland]
  obtain ⟨k, rfl⟩ := Nat.exists_eq_add_of_le hlen
  rw [s.serverBuf.read_add, List.drop_left' (Mem.length_read ..), Nat.add_sub_cancel_left]

/-- The server moves no client and sends itself nothing. -/
theorem server_frame (hstep : s.server gLength = some s') :
    s'.clientPc = s.clientPc ∧ s'.toServer = s.toServer := by
  unfold Ssd.server at hstep
  split at hstep
  · split at hstep
    · cases hstep
      exact ⟨rfl, rfl⟩
    · split at hstep <;> cases hstep
      exact ⟨rfl, rfl⟩
  all_goals
    cases hstep
    try exact ⟨rfl, rfl⟩

theorem server (h : Round gLength s) (hlen : 8 ≤ gLength)
    (hwhole : s.serverPc = .writing → ∀ p ∈ s.toServer, p.1 < 8)
    (hstep : s.server gLength = some s') : Round gLength s' := by
  cases h with
  | rest hclient hserver hfile hsynced hcalm hback =>
    obtain rfl := server_calm hserver hcalm hstep
    exact .rest hclient (.inl rfl) hfile hsynced hcalm hback
  | opening hclient hserver hcalls hfile hcalm hback hbody =>
    obtain rfl := server_calm hserver hcalm hstep
    exact .opening hclient (.inl rfl) hcalls hfile hcalm hback hbody
  | asked hclient hserver hcalls hfile hback hlast hland =>
    rcases hserver with ⟨hserver, hawaits⟩ | ⟨hpc, hskip⟩
    · rcases server_loops hserver hstep with rfl | ⟨hflag, -⟩ | ⟨hflag, rfl⟩
      · exact .asked hclient (.inl ⟨.inl rfl, hawaits⟩) hcalls hfile hback hlast hland
      · exact absurd hflag hawaits.not_end
      · exact .asked hclient (.inr ⟨rfl, hawaits.seen hflag⟩) hcalls hfile hback hlast hland
    · simp only [Ssd.server, hpc, Option.some.injEq] at hstep
      subst hstep
      refine .served hclient (.inl rfl) ?_ hskip hback hlast
      rw [hcalls]
      exact stored_write hlen hfile hland (hwhole hpc)
  | served hclient hserver hfile hskip hback hlast =>
    rcases hserver with hpc | ⟨hsynced, hpc | ⟨hpc, hfirst⟩⟩
    · simp only [Ssd.server, hpc, Option.some.injEq] at hstep
      subst hstep
      exact .served hclient (.inr ⟨rfl, .inl rfl⟩) hfile hskip hback hlast
    · simp only [Ssd.server, hpc, Option.some.injEq] at hstep
      subst hstep
      have hfirst := (holds_setHeader s.serverBuf serverFlag).first
      exact .served hclient (.inr ⟨hsynced, .inr ⟨rfl, hfirst⟩⟩) hfile hskip hback hlast
    · simp only [Ssd.server, hpc, Option.some.injEq] at hstep
      subst hstep
      have hpost : s.toClient ++ Wire.post 0 (s.serverBuf.read 0 8) =
          Wire.post 0 (s.serverBuf.read 0 8) := by rw [hback, List.nil_append]
      exact .answered hclient (.inr rfl) hfile hsynced (.inl ⟨hskip, hfirst⟩) hpost
        (by rw [Mem.length_read]) fun _ => hlast
  | answered hclient hserver hfile hsynced hcalm hback hend hlast =>
    obtain rfl := server_calm hserver hcalm hstep
    exact .answered hclient (.inl rfl) hfile hsynced hcalm hback hend hlast
  | ended hclient => exact .ended ((server_frame hstep).1 ▸ hclient)
  | aborted hclient hpc =>
    simp only [Ssd.server, hpc] at hstep
    cases hstep

/-- A server that aborts acknowledges nothing. -/
theorem short (h : Round gLength s) (hpc : s.serverPc = .writing) (k : Nat) : Round gLength { s with
    file := s.file ++ [s.serverBuf.read 0 k], serverPc := .aborted } := by
  cases h with
  | rest _ hserver | opening _ hserver | answered _ hserver => simp [ServerPc.Loops, hpc] at hserver
  | asked hclient _ _ _ hback hlast => exact .aborted hclient rfl hback hlast
  | served _ hserver => simp [hpc] at hserver
  | ended hclient => exact .ended hclient
  | aborted _ hserver => simp [hpc] at hserver

end Round

/-! ## Runs -/

/-- When the server calls `write`, nothing behind the header is in flight. -/
def WholeRequest (s : Ssd) : Label → Prop
  | .server => s.serverPc = .writing → ∀ p ∈ s.toServer, p.1 < 8
  | .write _ | .close | .client | .short _ | .deliverServer | .deliverClient => True

/-- Whenever every `Write` has returned, the file has one block for each call, in order and
synced. -/
def Persisted (gLength : Nat) (s : Ssd) : Prop :=
  s.clientPc = .idle → s.synced = s.file.length ∧ Stored gLength s.file s.calls

/-- What is in flight to the server is part of a request. -/
def InRange (gLength : Nat) (s : Ssd) : Prop := ∀ p ∈ s.toServer, p.1 < gLength

variable {gLength : Nat} {s s' : Ssd}

theorem inRange_post (h : ∀ p ∈ w, p.1 < gLength) (m : Mem) :
    ∀ p ∈ w ++ Wire.post 0 (m.read 0 gLength), p.1 < gLength := by
  intro p hp
  rcases List.mem_append.mp hp with hp | hp
  · exact h p hp
  · have hlt := (Wire.mem_post hp).2
    rwa [Mem.length_read, Nat.zero_add] at hlt

theorem InRange.step (h : InRange gLength s) (hstep : (ssd gLength).step s l = some s') :
    InRange gLength s' := by
  cases l with
  | write | close | short =>
    obtain ⟨-, heq⟩ := Option.ite_none_right_eq_some.mp hstep
    cases heq
    exact h
  | client =>
    simp only [ssd, Ssd.step, Ssd.client] at hstep
    split at hstep
    case h_4 =>
      obtain ⟨-, heq⟩ := Option.ite_none_right_eq_some.mp hstep
      cases heq
      exact h
    all_goals cases hstep
    all_goals first | exact h | exact inRange_post h _
  | server =>
    intro p hp
    rw [(Round.server_frame hstep).2] at hp
    exact h p hp
  | deliverServer =>
    simp only [ssd, Ssd.step, Ssd.deliverServer] at hstep
    split at hstep
    · cases hstep
    · rename_i q w hwire
      cases hstep
      intro p hp
      exact h p (hwire ▸ List.mem_cons_of_mem q hp)
  | deliverClient =>
    simp only [ssd, Ssd.step, Ssd.deliverClient] at hstep
    split at hstep <;> cases hstep
    exact h

theorem Round.step (h : Round gLength s) (hlen : 8 ≤ gLength) (hwhole : WholeRequest s l)
    (hstep : (ssd gLength).step s l = some s') : Round gLength s' := by
  cases l with
  | write buffer =>
    obtain ⟨⟨hidle, hbuffer⟩, heq⟩ := Option.ite_none_right_eq_some.mp hstep
    cases heq
    exact h.write hidle hlen hbuffer
  | close =>
    obtain ⟨-, heq⟩ := Option.ite_none_right_eq_some.mp hstep
    cases heq
    exact .ended (.inl rfl)
  | client => exact h.client hlen hstep
  | server => exact h.server hlen hwhole hstep
  | short k =>
    obtain ⟨⟨hpc, -⟩, heq⟩ := Option.ite_none_right_eq_some.mp hstep
    cases heq
    exact h.short hpc k
  | deliverServer => exact h.deliverServer hstep
  | deliverClient => exact h.deliverClient hstep

/-- A round, and requests of the length. -/
structure Runs (gLength : Nat) (s : Ssd) : Prop where
  round : Round gLength s
  range : InRange gLength s

theorem Ssd.Init.runs (h : s.Init) : Runs gLength s := by
  obtain ⟨hclient, hserver, hto, hback, hfile, hsynced, hcalls, hc, -, he⟩ := h
  constructor
  · refine .rest hclient (.inl hserver) ?_ ?_ (.inr ⟨hto, hc, he⟩) hback
    · rw [hfile, hcalls]
      exact .nil
    · rw [hsynced, hfile]
      rfl
  · intro p hp
    rw [hto] at hp
    cases hp

/-- Where the header is all there is, every request is whole. -/
theorem Runs.whole (h : Runs 8 s) (l : Label) : WholeRequest s l := by
  cases l with
  | server => exact fun _ => h.range
  | write | close | client | short | deliverServer | deliverClient => trivial

theorem Runs.step (h : Runs gLength s) (hlen : 8 ≤ gLength)
    (hwhole : gLength = 8 ∨ WholeRequest s l) (hstep : (ssd gLength).step s l = some s') :
    Runs gLength s' := by
  refine ⟨h.round.step hlen ?_ hstep, h.range.step hstep⟩
  rcases hwhole with rfl | hwhole
  · exact h.whole l
  · exact hwhole

/-- Over any calls and any interleaving: if the request is in the server's memory, behind its
header, whenever the server calls `write`, or there is nothing behind the header, then each `Write`
returns with one more block in the file, synced, which is the buffer of the call from its ninth
byte on. -/
theorem persisted_of_wholeRequest (hlen : 8 ≤ gLength) {s₀ : Ssd} {tr : List (Ssd × Label)}
    (hinit : (ssd gLength).init s₀) (hrun : (ssd gLength).Run s₀ tr s)
    (hwhole : gLength = 8 ∨ Meets WholeRequest tr) : Throughout (Persisted gLength) tr s := by
  have hok : Meets (fun s l => gLength = 8 ∨ WholeRequest s l) tr := by
    rcases hwhole with hshort | hwhole
    · exact fun _ _ => .inl hshort
    · exact hwhole.mono fun _ _ => .inr
  refine hrun.throughout hok fun tr s hrun hok hidle => ?_
  have hinv : Runs gLength s :=
    hrun.invariant hinit.runs (fun _ _ _ h hok hstep => h.step hlen hok hstep) hok
  obtain ⟨-, hfile, hsynced, -⟩ := hinv.round.of_idle hidle
  exact ⟨hsynced, hfile⟩

/-- Both regions zero. -/
def Ssd.blank : Ssd := ⟨fun _ => 0, .idle, fun _ => 0, .spinning, [], [], [], 0, []⟩

theorem Ssd.blank_init : Ssd.blank.Init :=
  ⟨rfl, rfl, rfl, rfl, rfl, rfl, rfl, by decide, by decide, by decide⟩

/-- A call with a buffer of nine bytes, up to the request. -/
def sampleCall : List Label := [.write [0, 0, 0, 0, 0, 0, 0, 0, 1], .client, .client]

/-- The server's round and the acknowledgement, and the return. -/
def sampleReply : List Label :=
  List.replicate 5 .server ++ List.replicate 8 .deliverClient ++ [.client, .client]

/-- The whole request lands before the server's round. -/
theorem sample_persisted : ∃ tr s, (ssd 9).Run .blank tr s ∧ Throughout (Persisted 9) tr s ∧
    s.clientPc = .idle ∧ s.file.map (fun block => block.drop 8) = [[1]] := by
  obtain ⟨tr, s, htr, hidle, hfile, hwhole⟩ : ∃ tr s, (ssd 9).trace .blank
        (sampleCall ++ List.replicate 9 .deliverServer ++ sampleReply) = some (tr, s) ∧
      s.clientPc = .idle ∧ s.file.map (fun block => block.drop 8) = [[1]] ∧
      (tr.all fun p => p.1.serverPc ≠ .writing || p.1.toServer.isEmpty) = true :=
    ⟨_, _, rfl, rfl, rfl, rfl⟩
  have hrun := run_of_trace htr
  refine ⟨tr, s, hrun, persisted_of_wholeRequest (by decide) Ssd.blank_init hrun (.inr ?_), hidle,
    hfile⟩
  rintro ⟨t, l⟩ hp
  have ht : ¬ t.serverPc = .writing ∨ t.toServer = [] := by
    simpa using List.all_eq_true.mp hwhole _ hp
  cases l with
  | server =>
    intro hpc p hmem
    rw [ht.resolve_left (not_not_intro hpc)] at hmem
    cases hmem
  | write | close | client | short | deliverServer | deliverClient => trivial

/-- The header lands first, and the ninth byte after the server's round. -/
theorem sample_torn : ∃ tr s, (ssd 9).Run .blank tr s ∧ s.clientPc = .idle ∧
    s.calls.map (fun buffer => buffer.drop 8) = [[1]] ∧
    s.file.map (fun block => block.drop 8) = [[0]] ∧ ¬ Persisted 9 s := by
  obtain ⟨tr, s, htr, hidle, hcalls, hfile⟩ : ∃ tr s, (ssd 9).trace .blank
        (sampleCall ++ List.replicate 8 .deliverServer ++ sampleReply) = some (tr, s) ∧
      s.clientPc = .idle ∧ s.calls.map (fun buffer => buffer.drop 8) = [[1]] ∧
      s.file.map (fun block => block.drop 8) = [[0]] :=
    ⟨_, _, rfl, rfl, rfl, rfl⟩
  refine ⟨tr, s, run_of_trace htr, hidle, hcalls, hfile, fun h => ?_⟩
  have hsame := (h hidle).2.bodies
  rw [hfile, hcalls] at hsame
  exact absurd hsame (by decide)

end LogDirect.RemotePath
