import LogDirect.CpuAccess.RandSet
import LogDirect.Lib.Mem
import Mathlib.Data.Finset.Dedup
import Mathlib.Data.List.Iterate

/-!
# The chain the latency benchmark follows

`init_memory` of `cpuaccess/latency.cc`. Every slot of the buffer is put into a `RandSet`;
each step draws one that is left, stores it in the slot drawn before and takes it out. The
slots are below `INT32_MAX`, so the set is one (`RandSet.Numbered`), and whatever is drawn
the stored offsets are a single chain through all slots.
-/

namespace LogDirect.CpuAccess

open Lib

/-- `BUFSIZE` -/
def bufsize : Nat := 4 * 1024 * 1024

/-- `ALIGN_SIZE` -/
def alignSize : Nat := 64

/-- `BUFSIZE / ALIGN_SIZE` -/
def slots : Nat := bufsize / alignSize

/-- `i * ALIGN_SIZE` -/
def slot (i : Nat) : BitVec 64 := BitVec.ofNat 64 (i * alignSize)

/-! ## The two loops -/

/-- The set after `n` turns of the first loop. -/
def fill : Nat → Option (RandSet (BitVec 64))
  | 0 => some .empty
  | n + 1 => (fill n).bind fun set => (set.insert (slot n)).map Prod.snd

/-- What the second loop works on. `buffer` starts at address zero. -/
structure Chase where
  set : RandSet (BitVec 64)
  lastPos : BitVec 64
  buffer : Mem

/-- One turn, for what `dist(gen)` returns in it; `none` is a `get` that has no result. -/
def Chase.link (c : Chase) (draw : Nat) : Option Chase :=
  (c.set.get draw).map fun getone =>
    { set := (c.set.remove getone).2
      lastPos := getone
      buffer := c.buffer.write c.lastPos.toNat (leBytes 8 getone.toNat) }

/-- The state after `n` turns. -/
def Chase.links (c : Chase) (draws : Nat → Fin intBound) : Nat → Option Chase
  | 0 => some c
  | n + 1 => (c.links draws n).bind fun c => c.link (draws n)

/-- `init_memory` -/
def initMemory (draws : Nat → Fin intBound) (buffer : Mem) : Option Mem :=
  (fill slots).bind fun set =>
    (Chase.links ⟨(set.remove 0).2, 0, buffer⟩ draws (slots - 1)).map Chase.buffer

/-- The offset that is stored at an offset. -/
def follow (buffer : Mem) (pos : BitVec 64) : BitVec 64 :=
  BitVec.ofNat 64 (leNat (buffer.read pos.toNat 8))

/-! ## Slots -/

/-- The slots of the first `n` turns. -/
def slotsBelow (n : Nat) : List (BitVec 64) := (List.range n).map slot

theorem slots_eq : slots = 65536 := by decide

theorem toNat_slot {i : Nat} (h : i < slots) : (slot i).toNat = i * 64 := by
  rw [slots_eq] at h
  rw [slot, alignSize, BitVec.toNat_ofNat]
  omega

theorem slot_stored {i : Nat} (h : i < slots) : Stored (slot i) := by
  rw [stored_iff, toNat_slot h]
  rw [slots_eq] at h
  omega

theorem slot_inj {i j : Nat} (hi : i < slots) (hj : j < slots) (h : slot i = slot j) : i = j := by
  have h := congrArg BitVec.toNat h
  rw [toNat_slot hi, toNat_slot hj] at h
  omega

theorem mem_slotsBelow {n : Nat} {pos : BitVec 64} :
    pos ∈ slotsBelow n ↔ ∃ i < n, slot i = pos := by
  simp [slotsBelow]

theorem slotsBelow_nodup {n : Nat} (h : n ≤ slots) : (slotsBelow n).Nodup := by
  refine List.Nodup.map_on ?_ List.nodup_range
  intro i hi j hj
  exact slot_inj ((List.mem_range.mp hi).trans_le h) ((List.mem_range.mp hj).trans_le h)

/-- Storing into a slot changes what is stored in no other one. -/
theorem follow_write {a b : BitVec 64} (ha : a ∈ slotsBelow slots) (hb : b ∈ slotsBelow slots)
    (hne : b ≠ a) (buffer : Mem) (x : Nat) :
    follow (buffer.write a.toNat (leBytes 8 x)) b = follow buffer b := by
  obtain ⟨i, hi, rfl⟩ := mem_slotsBelow.mp ha
  obtain ⟨j, hj, rfl⟩ := mem_slotsBelow.mp hb
  have hij : j ≠ i := by
    rintro rfl
    exact hne rfl
  unfold follow
  rw [Mem.read_write_of_disjoint]
  rw [length_leBytes, toNat_slot hi, toNat_slot hj]
  omega

theorem follow_write_self (a x : BitVec 64) (buffer : Mem) :
    follow (buffer.write a.toNat (leBytes 8 x.toNat)) a = x := by
  have hread := buffer.read_write a.toNat (leBytes 8 x.toNat)
  rw [length_leBytes] at hread
  rw [follow, hread, leNat_leBytes_of_lt x.isLt, BitVec.ofNat_toNat, BitVec.setWidth_eq]

/-! ## The chain -/

/-- A chain is extended at its end: the links before it stay as they are. -/
theorem iterate_concat {α : Type} {f g : α → α} {a last x : α} {path : List α}
    (hpath : path ++ [last] = List.iterate f a (path.length + 1)) (hkeep : ∀ y ∈ path, g y = f y)
    (hlast : g last = x) : path ++ [last] ++ [x] = List.iterate g a (path.length + 2) := by
  induction path generalizing a with
  | nil =>
    obtain ⟨rfl, -⟩ := List.cons.inj hpath
    rw [← hlast]
    rfl
  | cons y path ih =>
    obtain ⟨rfl, hrest⟩ := List.cons.inj hpath
    have hy : g y = f y := hkeep y List.mem_cons_self
    have htail := ih hrest fun z hz => hkeep z (List.mem_cons_of_mem _ hz)
    show y :: (path ++ [last] ++ [x]) = y :: List.iterate g (g y) (path.length + 2)
    rw [htail, hy]

/-- A member that goes from the set to the chain. -/
theorem perm_toList_erase {α : Type} [DecidableEq α] {S : Finset α} {x : α} (hx : x ∈ S) :
    (x :: (S.erase x).toList).Perm S.toList := by
  have hperm := Finset.toList_insert (Finset.notMem_erase x S)
  rw [Finset.insert_erase hx] at hperm
  exact hperm.symm

/-- The slots of the chain so far, and those that are left in the set, are all slots. -/
structure Chase.Chained (c : Chase) (path : List (BitVec 64)) (S : Finset (BitVec 64)) : Prop where
  set : c.set.Numbered S
  chain : path ++ [c.lastPos] = List.iterate (follow c.buffer) 0 (path.length + 1)
  all : (path ++ [c.lastPos] ++ S.toList).Perm (slotsBelow slots)

namespace Chase

variable {c : Chase} {path : List (BitVec 64)} {S : Finset (BitVec 64)}

theorem Chained.length (h : c.Chained path S) : path.length + 1 + S.card = slots := by
  have hlen := h.all.length_eq
  rw [slotsBelow, List.length_append, List.length_append, Finset.length_toList, List.length_map,
    List.length_range] at hlen
  exact hlen

/-- A turn with something left in the set. -/
theorem Chained.link (h : c.Chained path S) (hleft : path.length + 1 < slots)
    (draw : Fin intBound) :
    ∃ c' S', c.link draw = some c' ∧ c'.Chained (path ++ [c.lastPos]) S' := by
  have hne : S.Nonempty := by
    have := h.length
    exact Finset.card_pos.mp (by omega)
  obtain ⟨x, hx, hget⟩ := h.set.actsAs.get hne draw draw.isLt
  have hnodup := h.all.nodup_iff.mpr (slotsBelow_nodup le_rfl)
  have hslot : ∀ y ∈ path ++ [c.lastPos], y ∈ slotsBelow slots := fun y hy =>
    h.all.subset (List.mem_append_left _ hy)
  have hlast : c.lastPos ∈ path ++ [c.lastPos] := List.mem_append_right _ List.mem_cons_self
  have hxslot : x ∈ slotsBelow slots :=
    h.all.subset (List.mem_append_right _ (Finset.mem_toList.mpr hx))
  obtain ⟨i, hi, rfl⟩ := mem_slotsBelow.mp hxslot
  refine ⟨_, S.erase (slot i), by rw [Chase.link, hget]; rfl, ?_, ?_, ?_⟩
  · exact (h.set.remove (slot_stored hi) hx).2
  · rw [List.length_append]
    refine iterate_concat h.chain ?_ (follow_write_self ..)
    intro y hy
    -- the last slot is not on the path before it
    have hy' : y ≠ c.lastPos := by
      rintro rfl
      exact (List.nodup_append.mp hnodup.of_append_left).2.2 _ hy _ List.mem_cons_self rfl
    exact follow_write (hslot _ hlast) (hslot y (List.mem_append_left _ hy)) hy' ..
  · refine List.Perm.trans ?_ h.all
    rw [List.append_assoc _ [slot i]]
    exact List.Perm.append_left _ (perm_toList_erase hx)

/-- Any number of turns. -/
theorem Chained.links (h : c.Chained [] S) (draws : Nat → Fin intBound) {n : Nat} (hn : n < slots) :
    ∃ c' path' S', c.links draws n = some c' ∧ c'.Chained path' S' ∧ path'.length = n := by
  induction n with
  | zero => exact ⟨c, [], S, rfl, h, rfl⟩
  | succ n ih =>
    obtain ⟨c', path', S', hlinks, hc', rfl⟩ := ih (Nat.lt_of_succ_lt hn)
    obtain ⟨c'', S'', hlink, hc''⟩ := hc'.link hn (draws path'.length)
    refine ⟨c'', _, S'', ?_, hc'', List.length_append⟩
    rw [Chase.links, hlinks]
    exact hlink

end Chase

theorem slotsBelow_succ (n : Nat) :
    (slotsBelow (n + 1)).toFinset = Insert.insert (slot n) (slotsBelow n).toFinset := by
  rw [slotsBelow, List.range_succ, List.map_append, List.toFinset_append, Finset.union_comm]
  rfl

/-- The first loop. -/
theorem fill_numbered {n : Nat} (h : n ≤ slots) :
    ∃ set, fill n = some set ∧ set.Numbered (slotsBelow n).toFinset := by
  induction n with
  | zero => exact ⟨.empty, rfl, RandSet.empty_numbered⟩
  | succ n ih =>
    obtain ⟨set, hfill, hset⟩ := ih (Nat.le_of_succ_le h)
    have hcard : (slotsBelow n).toFinset.card + 1 < intBound := by
      have hle := (slotsBelow n).toFinset_card_le
      rw [slotsBelow, List.length_map, List.length_range] at hle
      rw [slots_eq] at h
      unfold intBound
      unfold slotsBelow
      omega
    obtain ⟨set', hinsert, hset'⟩ := hset.insert (slot_stored h) (.inr hcard)
    refine ⟨set', ?_, ?_⟩
    · rw [fill, hfill, Option.bind_some, hinsert]
      rfl
    · rw [slotsBelow_succ]
      exact hset'

/-- Following the stored offsets from zero leads through every slot once, and no `get` is
made on an empty set. -/
theorem initMemory_chain (draws : Nat → Fin intBound) (buffer : Mem) :
    ∃ buffer', initMemory draws buffer = some buffer' ∧
      (List.iterate (follow buffer') 0 slots).Perm ((List.range slots).map slot) := by
  obtain ⟨set, hfill, hset⟩ := fill_numbered le_rfl
  have hpos : 0 < slots := by decide
  have hzero : (0 : BitVec 64) ∈ slotsBelow slots := mem_slotsBelow.mpr ⟨0, hpos, rfl⟩
  have hstart : Chase.Chained ⟨(set.remove 0).2, 0, buffer⟩ []
      ((slotsBelow slots).toFinset.erase 0) := by
    refine ⟨(hset.remove (slot_stored hpos) (List.mem_toFinset.mpr hzero)).2, rfl, ?_⟩
    exact (perm_toList_erase (List.mem_toFinset.mpr hzero)).trans
      (List.toFinset_toList (slotsBelow_nodup le_rfl))
  obtain ⟨c, path, S, hlinks, hc, hpath⟩ := hstart.links draws (Nat.sub_lt hpos Nat.one_pos)
  have hlen := hc.length
  have hempty : S = ∅ := Finset.card_eq_zero.mp (by omega)
  have hall : path.length + 1 = slots := by omega
  refine ⟨c.buffer, ?_, ?_⟩
  · rw [initMemory, hfill, Option.bind_some, hlinks]
    rfl
  · have hperm := hc.all
    rw [hempty, Finset.toList_empty, List.append_nil, hc.chain, hall] at hperm
    exact hperm

end LogDirect.CpuAccess
