import LogDirect.Core.Request
import LogDirect.Lib.Extents
import Mathlib.Data.List.Nodup

/-!
# Work requests and memory keys

`RDMAContext` (`frontend/rdmautil/rdmautil.cc`) has two registered buffers, `send_buf`
and the one given to `register_write_buf`. Each posting function fills in one scatter
element, an address range and the key of a memory region. The device reads the range
itself unless the request is inline, and then the range has to lie in the region the key
belongs to; where it does not, the request completes with an error that
`poll_one_completion` does not look at, and nothing is sent.

The posting functions are translated from the source. `Pd.regMr` and `SendWr.transmit` stand for
the library and the device, which are not part of it: they follow the documentation of the verbs
`ibv_reg_mr` and `ibv_post_send`, as far as it speaks of local keys.
-/

namespace LogDirect.Rdma

open Lib

/-- `MAX_INLINE_SIZE` -/
def maxInlineSize : Nat := 128

/-- `SEND_BUF_SIZE` -/
def sendBufSize : Nat := 1 * 1024 * 1024

/-! ## Memory regions -/

/-- `ibv_mr` -/
structure Mr where
  extent : Extent
  lkey : Nat
  rkey : Nat

/-- `ibv_pd`: the regions registered in it, told apart by their keys. -/
structure Pd where
  regions : List Mr
  distinct : (regions.map Mr.lkey).Nodup

namespace Pd

/-- `ibv_alloc_pd` -/
def alloc : Pd := ⟨[], List.nodup_nil⟩

theorem distinct_cons {pd : Pd} {mr : Mr} (h : mr.lkey ∉ pd.regions.map Mr.lkey) :
    ((mr :: pd.regions).map Mr.lkey).Nodup := List.nodup_cons.mpr ⟨h, pd.distinct⟩

/-- `ibv_reg_mr`, with the keys the library chooses; `none` if it gives no new one. That a region
has a key of its own is what the documentation of the verb promises. -/
def regMr (pd : Pd) (extent : Extent) (lkey rkey : Nat) : Option (Mr × Pd) :=
  let mr : Mr := ⟨extent, lkey, rkey⟩
  if h : mr.lkey ∉ pd.regions.map Mr.lkey then some (mr, ⟨mr :: pd.regions, distinct_cons h⟩)
  else none

theorem regMr_eq_some {pd pd' : Pd} {extent : Extent} {lkey rkey : Nat} {mr : Mr}
    (h : pd.regMr extent lkey rkey = some (mr, pd')) :
    mr = ⟨extent, lkey, rkey⟩ ∧ pd'.regions = mr :: pd.regions := by
  simp only [regMr] at h
  split at h
  · cases h
    exact ⟨rfl, rfl⟩
  · cases h

/-- A key belongs to one region. -/
theorem eq_of_lkey {pd : Pd} {a b : Mr} (ha : a ∈ pd.regions) (hb : b ∈ pd.regions)
    (h : a.lkey = b.lkey) : a = b := List.inj_on_of_nodup_map pd.distinct ha hb h

end Pd

/-! ## Work requests -/

/-- `ibv_sge` -/
structure Sge where
  addr : Nat
  length : Nat
  lkey : Nat

/-- What the request does; a write names its target. -/
inductive Opcode
  | send
  | rdmaWrite (remoteAddr rkey : Nat)

/-- `ibv_send_wr` with its one scatter element. -/
structure SendWr where
  sge : Sge
  opcode : Opcode
  signaled : Bool
  inlined : Bool

/-- The element lies in the region whose key it carries. -/
def Sge.Covered (pd : Pd) (sg : Sge) : Prop :=
  ∃ mr ∈ pd.regions, mr.lkey = sg.lkey ∧ (⟨sg.addr, sg.length⟩ : Extent).Within mr.extent

instance (pd : Pd) (sg : Sge) : Decidable (sg.Covered pd) :=
  inferInstanceAs (Decidable (∃ _ ∈ _, _))

/-- What the verbs library requires of a request. -/
def SendWr.KeyCovers (pd : Pd) (wr : SendWr) : Prop := wr.inlined = false → wr.sge.Covered pd

/-- What the device sends, by the documentation of `ibv_post_send`: a request whose key does not
cover its range fails, and an inline one is copied by the processor when it is posted, without a
look at the key. -/
def SendWr.transmit (pd : Pd) (mem : Mem) (wr : SendWr) : Option Bytes :=
  if wr.inlined ∨ wr.sge.Covered pd then some (mem.read wr.sge.addr wr.sge.length) else none

theorem SendWr.transmit_isSome {pd : Pd} {mem : Mem} {wr : SendWr} :
    (wr.transmit pd mem).isSome ↔ wr.KeyCovers pd := by
  unfold transmit KeyCovers
  cases h : wr.inlined
  · by_cases hc : wr.sge.Covered pd <;> simp [hc]
  · simp

/-! ## Contexts -/

/-- What `exchange_certificate` tells about the other end. -/
structure Certificate where
  addr0 : Nat
  rkey0 : Nat
  addr : Nat
  rkey : Nat

/-- `RDMAContext`, as far as the posting functions read it. -/
structure RDMAContext where
  pd : Pd
  sendMr : Mr
  sendBuf : Nat
  writeMr : Option Mr
  writeBuf : Nat
  dmaoff : Nat
  remote : Certificate

/-- `RDMADevice::open`, with the address of the new buffer. -/
def RDMADevice.open (sendBuf lkey rkey : Nat) : Option RDMAContext :=
  (Pd.alloc.regMr ⟨sendBuf, sendBufSize⟩ lkey rkey).map fun r =>
    ⟨r.2, r.1, sendBuf, none, 0, 0, ⟨0, 0, 0, 0⟩⟩

namespace RDMAContext

/-- `register_write_buf(void * mem, int memsize)` -/
def registerWriteBuf (c : RDMAContext) (mem : Nat) (memsize : Fin (2 ^ 31)) (lkey rkey : Nat) :
    Option RDMAContext :=
  (c.pd.regMr ⟨mem, memsize⟩ lkey rkey).map fun r =>
    { c with pd := r.2, writeMr := some r.1, writeBuf := mem, dmaoff := 0 }

/-- `exchange_certificate` -/
def exchangeCertificate (c : RDMAContext) (remote : Certificate) : RDMAContext :=
  { c with remote := remote }

/-- What the posting functions have in common: the message, if there is one, is copied to
the address, and the element and the request are filled in. -/
def fill (address lkey : Nat) (opcode : Opcode) (mayInline : Bool) (mem : Mem)
    (msg : Option Bytes) (msgLen : Nat) (signal : Bool) : Mem × SendWr :=
  (match msg with
    | some bs => mem.write address (bs.take msgLen)
    | none => mem,
    ⟨⟨address, msgLen % 2 ^ 32, lkey⟩, opcode, signal,
      mayInline && decide (msgLen ≤ maxInlineSize)⟩)

/-- `post_send` -/
def postSend (c : RDMAContext) (mem : Mem) (msg : Option Bytes) (msgLen localOffset : Nat)
    (signal : Bool) : Option (Mem × SendWr) :=
  some (fill (c.sendBuf + localOffset) c.sendMr.lkey .send false mem msg msgLen signal)

/-- `post_write`: from `write_buf` to the other end's `write_buf`. -/
def postWrite (c : RDMAContext) (mem : Mem) (msg : Option Bytes)
    (msgLen localOffset remoteOffset : Nat) (signal : Bool) : Option (Mem × SendWr) :=
  c.writeMr.map fun mr => fill (c.writeBuf + c.dmaoff + localOffset) mr.lkey
    (.rdmaWrite (c.remote.addr + remoteOffset) c.remote.rkey) true mem msg msgLen signal

/-- `post_write0`: from `write_buf` to the other end's `send_buf`. -/
def postWrite0 (c : RDMAContext) (mem : Mem) (msg : Option Bytes)
    (msgLen localOffset remoteOffset : Nat) (signal : Bool) : Option (Mem × SendWr) :=
  c.writeMr.map fun mr => fill (c.writeBuf + c.dmaoff + localOffset) mr.lkey
    (.rdmaWrite (c.remote.addr0 + remoteOffset) c.remote.rkey0) true mem msg msgLen signal

/-- `post_write1`: from `send_buf` to the other end's `write_buf`, with the key of `write_mr`. -/
def postWrite1 (c : RDMAContext) (mem : Mem) (msg : Option Bytes)
    (msgLen localOffset remoteOffset : Nat) (signal : Bool) : Option (Mem × SendWr) :=
  c.writeMr.map fun mr => fill (c.sendBuf + localOffset) mr.lkey
    (.rdmaWrite (c.remote.addr + remoteOffset) c.remote.rkey) true mem msg msgLen signal

end RDMAContext

/-! ## Calls -/

/-- The posting functions. -/
inductive PostFn
  | send
  | write
  | write0
  | write1
  deriving DecidableEq

/-- A call of one of them. -/
structure PostCall where
  fn : PostFn
  msg : Option Bytes
  msgLen : Nat
  localOffset : Nat
  remoteOffset : Nat
  signal : Bool

namespace RDMAContext

/-- The call; `none` is the use of a null `write_mr`. -/
def post (c : RDMAContext) (mem : Mem) (q : PostCall) : Option (Mem × SendWr) :=
  match q.fn with
  | .send => c.postSend mem q.msg q.msgLen q.localOffset q.signal
  | .write => c.postWrite mem q.msg q.msgLen q.localOffset q.remoteOffset q.signal
  | .write0 => c.postWrite0 mem q.msg q.msgLen q.localOffset q.remoteOffset q.signal
  | .write1 => c.postWrite1 mem q.msg q.msgLen q.localOffset q.remoteOffset q.signal

/-- The buffer given to `register_write_buf`. -/
def writeExtent (c : RDMAContext) : Extent :=
  match c.writeMr with
  | some mr => mr.extent
  | none => ⟨0, 0⟩

/-- The buffer a function addresses. -/
def buffer (c : RDMAContext) : PostFn → Extent
  | .send => ⟨c.sendBuf, sendBufSize⟩
  | .write => c.writeExtent
  | .write0 => c.writeExtent
  | .write1 => ⟨c.sendBuf, sendBufSize⟩

/-- The call keeps to the buffer it addresses. -/
def InBuffer (c : RDMAContext) (q : PostCall) : Prop :=
  q.localOffset + q.msgLen ≤ (c.buffer q.fn).size

instance (c : RDMAContext) (q : PostCall) : Decidable (c.InBuffer q) :=
  inferInstanceAs (Decidable (_ ≤ _))

/-- The context comes from `open`, `register_write_buf` and the exchange of certificates. -/
def Produced (c : RDMAContext) : Prop :=
  ∃ sendBuf lkey rkey mem memsize lkey' rkey' remote c₀ c₁,
    RDMADevice.open sendBuf lkey rkey = some c₀ ∧
    c₀.registerWriteBuf mem memsize lkey' rkey' = some c₁ ∧ c = c₁.exchangeCertificate remote

end RDMAContext

/-- `HybridClerk::Run`, lines 354–355: the reply with a value of that size. -/
def clerkReply (valSize : Nat) : PostCall :=
  ⟨.write1, none, sizeofReply + valSize, ringHeader, ringHeader, false⟩

/-! ## The keys of the requests -/

namespace RDMAContext

/-- The two regions of a context that is ready to post. -/
structure Ready (c : RDMAContext) (mr : Mr) : Prop where
  regions : c.pd.regions = [mr, c.sendMr]
  writeMr : c.writeMr = some mr
  sendExtent : c.sendMr.extent = ⟨c.sendBuf, sendBufSize⟩
  base : mr.extent.base = c.writeBuf
  size : mr.extent.size < 2 ^ 31
  dmaoff : c.dmaoff = 0

theorem Produced.ready {c : RDMAContext} (h : c.Produced) : ∃ mr, c.Ready mr := by
  obtain ⟨sendBuf, lkey, rkey, mem, memsize, lkey', rkey', remote, c₀, c₁, hopen, hreg, rfl⟩ := h
  obtain ⟨⟨mr, pd⟩, hmr, rfl⟩ := Option.map_eq_some_iff.mp hopen
  obtain ⟨⟨mr', pd'⟩, hmr', rfl⟩ := Option.map_eq_some_iff.mp hreg
  obtain ⟨rfl, hregions⟩ := Pd.regMr_eq_some hmr
  obtain ⟨rfl, hregions'⟩ := Pd.regMr_eq_some hmr'
  refine ⟨_, ?_, rfl, rfl, rfl, memsize.isLt, rfl⟩
  show pd'.regions = _
  rw [hregions']
  exact congrArg _ hregions

namespace Ready

variable {c : RDMAContext} {mr : Mr}

theorem writeExtent_eq (h : c.Ready mr) : c.writeExtent = mr.extent := by
  unfold writeExtent
  rw [h.writeMr]

theorem mem_write (h : c.Ready mr) : mr ∈ c.pd.regions := by
  rw [h.regions]
  exact List.mem_cons_self

theorem mem_send (h : c.Ready mr) : c.sendMr ∈ c.pd.regions := by
  rw [h.regions]
  exact List.mem_cons_of_mem _ List.mem_cons_self

/-- No buffer is as long as the element's length can count. -/
theorem length_lt (h : c.Ready mr) {q : PostCall} (hin : c.InBuffer q) : q.msgLen < 2 ^ 32 := by
  have hsend : sendBufSize < 2 ^ 31 := by decide
  have hwrite : c.writeExtent.size < 2 ^ 31 := h.writeExtent_eq ▸ h.size
  have hsize : (c.buffer q.fn).size < 2 ^ 31 := by
    cases q.fn
    · exact hsend
    · exact hwrite
    · exact hwrite
    · exact hsend
  unfold InBuffer at hin
  omega

/-- An element that carries the key of `write_mr` has to lie in its region. -/
theorem covered_write (h : c.Ready mr) {sg : Sge} (hkey : sg.lkey = mr.lkey) :
    sg.Covered c.pd ↔ (⟨sg.addr, sg.length⟩ : Extent).Within mr.extent := by
  constructor
  · rintro ⟨mr', hmem, hkey', hwithin⟩
    cases Pd.eq_of_lkey hmem h.mem_write (hkey'.trans hkey)
    exact hwithin
  · intro hwithin
    exact ⟨mr, h.mem_write, hkey.symm, hwithin⟩

/-- The requests from `write_buf` carry the key of the region they read. -/
theorem write_covered (h : c.Ready mr) {len off : Nat} (hin : off + len ≤ mr.extent.size) :
    Sge.Covered c.pd ⟨c.writeBuf + c.dmaoff + off, len, mr.lkey⟩ := by
  rw [h.covered_write rfl, h.dmaoff, Nat.add_zero, ← h.base]
  exact Extent.within_of_offset hin

theorem send_covered (h : c.Ready mr) {len off : Nat} (hin : off + len ≤ sendBufSize) :
    Sge.Covered c.pd ⟨c.sendBuf + off, len, c.sendMr.lkey⟩ := by
  refine ⟨c.sendMr, h.mem_send, rfl, ?_⟩
  rw [h.sendExtent]
  exact Extent.within_of_offset hin

end Ready

/-- The call is not `post_write1`, or it is inline, or its part of `send_buf` is also in the
buffer that was given to `register_write_buf`. -/
def KeyFits (c : RDMAContext) (q : PostCall) : Prop :=
  q.fn ≠ .write1 ∨ q.msgLen ≤ maxInlineSize ∨
    (⟨c.sendBuf + q.localOffset, q.msgLen⟩ : Extent).Within c.writeExtent

/-- Where the key is right, the element may be looked at. -/
theorem keyCovers_iff_of_covered {c : RDMAContext} {q : PostCall} {wr : SendWr}
    (hfn : q.fn ≠ .write1) (hcov : wr.sge.Covered c.pd) : wr.KeyCovers c.pd ↔ c.KeyFits q :=
  ⟨fun _ => .inl hfn, fun _ _ => hcov⟩

/-- One call. -/
theorem Ready.post_keyCovers {c : RDMAContext} {mr : Mr} (h : c.Ready mr) (mem : Mem) (q : PostCall)
    (hin : c.InBuffer q) :
    ∃ mem' wr, c.post mem q = some (mem', wr) ∧ (wr.KeyCovers c.pd ↔ c.KeyFits q) := by
  have hlen : q.msgLen % 2 ^ 32 = q.msgLen := Nat.mod_eq_of_lt (h.length_lt hin)
  obtain ⟨fn, msg, msgLen, localOffset, remoteOffset, signal⟩ := q
  simp only at hlen
  have hwrite : c.writeExtent.size = mr.extent.size := by rw [h.writeExtent_eq]
  cases fn with
  | send =>
    refine ⟨_, _, rfl, keyCovers_iff_of_covered PostFn.noConfusion ?_⟩
    show Sge.Covered c.pd ⟨c.sendBuf + localOffset, msgLen % 2 ^ 32, c.sendMr.lkey⟩
    rw [hlen]
    exact h.send_covered hin
  | write | write0 =>
    refine ⟨_, _, (congrArg (Option.map _) h.writeMr).trans rfl,
      keyCovers_iff_of_covered PostFn.noConfusion ?_⟩
    show Sge.Covered c.pd ⟨c.writeBuf + c.dmaoff + localOffset, msgLen % 2 ^ 32, mr.lkey⟩
    rw [hlen]
    exact h.write_covered (hwrite ▸ hin)
  | write1 =>
    -- the address is in `send_buf`, the key is that of `write_mr`
    refine ⟨_, _, (congrArg (Option.map _) h.writeMr).trans rfl, ?_⟩
    show (decide (msgLen ≤ maxInlineSize) = false →
      Sge.Covered c.pd ⟨c.sendBuf + localOffset, msgLen % 2 ^ 32, mr.lkey⟩) ↔ _
    rw [hlen, h.covered_write rfl, decide_eq_false_iff_not, ← h.writeExtent_eq]
    unfold KeyFits
    constructor
    · intro hcov
      by_cases hinline : msgLen ≤ maxInlineSize
      · exact .inr (.inl hinline)
      · exact .inr (.inr (hcov hinline))
    · rintro (hfn | hinline | hwithin) hlong
      · exact absurd rfl hfn
      · exact absurd hinline hlong
      · exact hwithin

end RDMAContext

/-- **Keys of the posted requests.** For every call that keeps to the buffer it addresses, the
element of a request that is not inline lies in the region whose key it carries exactly when
the call is not `post_write1`, or is short enough to be inline, or reads a part of `send_buf`
that was registered as the write buffer as well; and a clerk's reply is sent exactly in the
last two cases. -/
theorem keyCovers_iff_keyFits {c : RDMAContext} (h : c.Produced) (mem : Mem) :
    (∀ q, c.InBuffer q → ∃ mem' wr, c.post mem q = some (mem', wr) ∧
      (wr.KeyCovers c.pd ↔ c.KeyFits q)) ∧
    (∀ valSize, c.InBuffer (clerkReply valSize) → ∃ mem' wr,
      c.post mem (clerkReply valSize) = some (mem', wr) ∧
      ((wr.transmit c.pd mem').isSome ↔ sizeofReply + valSize ≤ maxInlineSize ∨
        (⟨c.sendBuf + ringHeader, sizeofReply + valSize⟩ : Extent).Within c.writeExtent)) := by
  obtain ⟨mr, hready⟩ := h.ready
  refine ⟨hready.post_keyCovers mem, ?_⟩
  intro valSize hin
  obtain ⟨mem', wr, hpost, hiff⟩ := hready.post_keyCovers mem (clerkReply valSize) hin
  refine ⟨mem', wr, hpost, ?_⟩
  rw [SendWr.transmit_isSome, hiff]
  exact or_iff_right (fun hfn => hfn rfl)

/-- The regions of a clerk: the ring at 4 MiB and `send_buf` at 2 MiB. -/
def sampleRegions : List Mr :=
  [⟨⟨4194304, maxAsyncSize⟩, 2, 2⟩, ⟨⟨2097152, sendBufSize⟩, 1, 1⟩]

theorem sampleRegions_distinct : (sampleRegions.map Mr.lkey).Nodup := by decide

/-- A clerk's context with these regions. -/
def sampleContext : RDMAContext where
  pd := ⟨sampleRegions, sampleRegions_distinct⟩
  sendMr := ⟨⟨2097152, sendBufSize⟩, 1, 1⟩
  sendBuf := 2097152
  writeMr := some ⟨⟨4194304, maxAsyncSize⟩, 2, 2⟩
  writeBuf := 4194304
  dmaoff := 0
  remote := ⟨0, 0, 0, 0⟩

theorem sampleContext_produced : sampleContext.Produced :=
  ⟨2097152, 1, 1, 4194304, ⟨maxAsyncSize, by decide⟩, 2, 2, ⟨0, 0, 0, 0⟩, _, _, rfl, rfl, rfl⟩

/-- A value of 120 bytes is the longest a clerk sends. -/
theorem reply_sent_sample : sampleContext.Produced ∧ ∀ mem, ∃ mem' wr,
    sampleContext.post mem (clerkReply 120) = some (mem', wr) ∧
      (wr.transmit sampleContext.pd mem').isSome := by
  refine ⟨sampleContext_produced, fun mem => ?_⟩
  obtain ⟨-, hreply⟩ := keyCovers_iff_keyFits sampleContext_produced mem
  obtain ⟨mem', wr, hpost, hiff⟩ := hreply 120 (by decide)
  exact ⟨mem', wr, hpost, hiff.mpr (by decide)⟩

/-- The reply to a `GET` of a value of 121 bytes carries a key that does not cover it, and is
not sent. -/
theorem reply_lost_sample : sampleContext.Produced ∧ sampleContext.InBuffer (clerkReply 121) ∧
    ∀ mem, ∃ mem' wr, sampleContext.post mem (clerkReply 121) = some (mem', wr) ∧
      ¬ wr.KeyCovers sampleContext.pd ∧ wr.transmit sampleContext.pd mem' = none := by
  refine ⟨sampleContext_produced, by decide, fun mem => ⟨_, _, rfl, ?_, ?_⟩⟩
  · intro hcov
    exact absurd (hcov rfl) (by decide)
  · rw [← Option.not_isSome_iff_eq_none, SendWr.transmit_isSome]
    intro hcov
    exact absurd (hcov rfl) (by decide)

end LogDirect.Rdma
