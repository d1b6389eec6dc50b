import LogDirect.BitCask.File
import LogDirect.Lib.Frames
import LogDirect.Lib.Pool
import LogDirect.Lib.TSys
import Mathlib.Algebra.BigOperators.Group.List.Basic

/-!
# BitCask: concurrent appends to one file

`AppendData` and `AppendDataBatch` (`posix_file.cc`, lines 38–83) on one
`PosixFile`, any number of calls at once. A call reserves its range in
`file_offset_` and then writes; `O_APPEND` puts the write at the end of the
file, so the place of a record is decided by the order of the writes and the
offset a call returns by the order of the reservations.

The load and the compare-exchange loop are one step: the exchange that succeeds
sees the offset it was last compared with, and the loop gives up when it sees a
full segment.
-/

namespace LogDirect.BitCask

open Lib

/-- How far a call has come; a call that returns false has no offset. -/
inductive AppendPc
  | entered
  | reserved (off : Nat)
  | returned (off : Option Nat)
  deriving DecidableEq

/-- A file and the calls made on it. -/
structure Appends where
  file : File
  calls : List (Append × AppendPc)

/-- Who moves. -/
inductive AppendLabel
  | call (c : Append)
  | reserve (i : Nat)
  | pwrite (i : Nat)

namespace Appends

def step (s : Appends) : AppendLabel → Option Appends
  | .call c => some { s with calls := s.calls ++ [(c, .entered)] }
  | .reserve i =>
      match s.calls[i]? with
      | some (c, .entered) =>
          match s.file.reserve c.size with
          | some (off, file) => some ⟨file, s.calls.set i (c, .reserved off)⟩
          | none => some { s with calls := s.calls.set i (c, .returned none) }
      | _ => none
  | .pwrite i =>
      match s.calls[i]? with
      | some (c, .reserved off) =>
          some ⟨s.file.pwrite c.bytes, s.calls.set i (c, .returned (some off))⟩
      | _ => none

/-- All calls have returned. -/
def Returned (s : Appends) : Prop := ∀ p ∈ s.calls, ∃ off, p.2 = .returned off

/-- The record of every call is found at the offset the call returned. -/
def Placed (s : Appends) : Prop :=
  ∀ c off, (c, .returned (some off)) ∈ s.calls → FoundAt s.file.bytes off c.bytes

end Appends

/-- Appends to a file that `Env::NewFile` opened. -/
def appends (held : Bytes) : TSys Appends AppendLabel where
  init s := s = ⟨.new held, []⟩
  step := Appends.step

/-! ## What a step does -/

namespace Appends

variable {s s' : Appends}

theorem step_reserve {i : Nat} (h : s.step (.reserve i) = some s') :
    ∃ c, s.calls[i]? = some (c, .entered) ∧
      (s.file.fileOffset < segmentSize ∧
          s' = ⟨{ s.file with fileOffset := u32 (s.file.fileOffset + c.size) },
            s.calls.set i (c, .reserved s.file.fileOffset)⟩ ∨
        segmentSize ≤ s.file.fileOffset ∧
          s' = { s with calls := s.calls.set i (c, .returned none) }) := by
  simp only [step] at h
  split at h
  · rename_i c hc
    refine ⟨c, hc, ?_⟩
    split at h
    · rename_i off file hres
      obtain ⟨hroom, rfl, rfl⟩ := File.reserve_eq_some hres
      cases h
      exact .inl ⟨hroom, rfl⟩
    · rename_i hres
      cases h
      exact .inr ⟨File.reserve_eq_none hres, rfl⟩
  · cases h

theorem step_pwrite {i : Nat} (h : s.step (.pwrite i) = some s') :
    ∃ c off, s.calls[i]? = some (c, .reserved off) ∧
      s' = ⟨s.file.pwrite c.bytes, s.calls.set i (c, .returned (some off))⟩ := by
  simp only [step] at h
  split at h
  · rename_i c off hc
    cases h
    exact ⟨c, off, hc, rfl⟩
  · cases h

end Appends

/-! ## The two orders -/

/-- The record a step reserves. -/
def reservation : Appends × AppendLabel → Option Bytes
  | (s, .reserve i) =>
      if s.file.fileOffset < segmentSize then s.calls[i]?.map fun p => p.1.bytes else none
  | _ => none

/-- The record a step writes. -/
def written : Appends × AppendLabel → Option Bytes
  | (s, .pwrite i) => s.calls[i]?.map fun p => p.1.bytes
  | _ => none

/-- The records of a run, in the order of the reservations. -/
def reservations (tr : List (Appends × AppendLabel)) : List Bytes := tr.filterMap reservation

/-- The records of a run, in the order of the writes. -/
def writes (tr : List (Appends × AppendLabel)) : List Bytes := tr.filterMap written

theorem reservations_snoc (tr : List (Appends × AppendLabel)) (p : Appends × AppendLabel) :
    reservations (tr ++ [p]) = reservations tr ++ (reservation p).toList := by
  rw [reservations, List.filterMap_append]
  cases h : reservation p <;> simp [reservations, h]

theorem writes_snoc (tr : List (Appends × AppendLabel)) (p : Appends × AppendLabel) :
    writes (tr ++ [p]) = writes tr ++ (written p).toList := by
  rw [writes, List.filterMap_append]
  cases h : written p <;> simp [writes, h]

/-- The offset a call has. -/
def AppendPc.offset : AppendPc → Option Nat
  | .entered => none
  | .reserved off => some off
  | .returned off => off

/-- What a call has reserved and not written. -/
def owed : Append × AppendPc → Nat
  | (c, .reserved _) => c.bytes.length
  | _ => 0

/-- The file follows the order of the writes, the offsets that of the reservations. -/
structure Tracks (held : Bytes) (tr : List (Appends × AppendLabel)) (s : Appends) : Prop where
  begins : s.file.held = held
  chunks : s.file.chunks = writes tr
  offset : s.file.fileOffset = held.length + (reservations tr).flatten.length
  place : ∀ c pc off, (c, pc) ∈ s.calls → pc.offset = some off →
    ∃ pre post, reservations tr = pre ++ c.bytes :: post ∧ off = held.length + pre.flatten.length
  cover : ∀ pre r post, reservations tr = pre ++ r :: post →
    ∃ c pc, (c, pc) ∈ s.calls ∧ c.bytes = r ∧ pc.offset = some (held.length + pre.flatten.length)
  length : (writes tr).flatten.length + (s.calls.map owed).sum = (reservations tr).flatten.length

variable {held : Bytes} {tr : List (Appends × AppendLabel)} {s : Appends} {i : Nat} {c : Append}

theorem Tracks.call (h : Tracks held tr s) (c : Append) :
    Tracks held (tr ++ [(s, .call c)]) { s with calls := s.calls ++ [(c, .entered)] } := by
  have hr : reservations (tr ++ [(s, .call c)]) = reservations tr := by
    rw [reservations_snoc]
    exact List.append_nil _
  have hw : writes (tr ++ [(s, .call c)]) = writes tr := by
    rw [writes_snoc]
    exact List.append_nil _
  refine ⟨h.begins, ?_, ?_, ?_, ?_, ?_⟩
  · rw [hw, h.chunks]
  · rw [hr, h.offset]
  · intro d pc off hmem hoff
    rw [hr]
    rcases List.mem_append.mp hmem with hmem | hmem
    · exact h.place d pc off hmem hoff
    · cases List.mem_singleton.mp hmem
      cases hoff
  · intro pre r post hsplit
    rw [hr] at hsplit
    obtain ⟨d, pc, hmem, hd⟩ := h.cover pre r post hsplit
    exact ⟨d, pc, List.mem_append_left _ hmem, hd⟩
  · rw [hr, hw, List.map_append, List.sum_append]
    exact h.length

/-- A call that finds the segment full. -/
theorem Tracks.full (h : Tracks held tr s) (hc : s.calls[i]? = some (c, .entered))
    (hfull : segmentSize ≤ s.file.fileOffset) :
    Tracks held (tr ++ [(s, .reserve i)])
      { s with calls := s.calls.set i (c, .returned none) } := by
  have hr : reservations (tr ++ [(s, .reserve i)]) = reservations tr := by
    rw [reservations_snoc, reservation, if_neg (by omega)]
    exact List.append_nil _
  have hw : writes (tr ++ [(s, .reserve i)]) = writes tr := by
    rw [writes_snoc]
    exact List.append_nil _
  refine ⟨h.begins, ?_, ?_, ?_, ?_, ?_⟩
  · rw [hw, h.chunks]
  · rw [hr, h.offset]
  · intro d pc off hmem hoff
    rw [hr]
    rcases mem_of_mem_set hmem with heq | hmem
    · cases heq
      cases hoff
    · exact h.place d pc off hmem hoff
  · intro pre r post hsplit
    rw [hr] at hsplit
    obtain ⟨d, pc, hmem, hd, hoff⟩ := h.cover pre r post hsplit
    rcases mem_set_of_mem hc hmem with heq | hmem
    · cases heq
      cases hoff
    · exact ⟨d, pc, hmem, hd, hoff⟩
  · have hsum := sum_set hc owed (c, .returned none)
    have hlen := h.length
    rw [hr, hw]
    simp only [owed] at hsum
    show _ + ((s.calls.set i (c, .returned none)).map owed).sum = _
    omega

/-- A reservation. -/
theorem Tracks.reserve (h : Tracks held tr s) (hc : s.calls[i]? = some (c, .entered))
    (hroom : s.file.fileOffset < segmentSize) :
    Tracks held (tr ++ [(s, .reserve i)])
      ⟨{ s.file with fileOffset := u32 (s.file.fileOffset + c.size) },
        s.calls.set i (c, .reserved s.file.fileOffset)⟩ := by
  have hr : reservations (tr ++ [(s, .reserve i)]) = reservations tr ++ [c.bytes] := by
    rw [reservations_snoc, reservation, if_pos hroom, hc]
    rfl
  have hw : writes (tr ++ [(s, .reserve i)]) = writes tr := by
    rw [writes_snoc]
    exact List.append_nil _
  -- the offset does not wrap: a segment is short, and so is a record
  have hoff : u32 (s.file.fileOffset + c.size) = s.file.fileOffset + c.bytes.length := by
    have hlen := c.length_bytes_le
    rw [segmentSize] at hroom
    rw [maxRwCount] at hlen
    rw [c.size_eq, u32_eq (by omega)]
  refine ⟨h.begins, ?_, ?_, ?_, ?_, ?_⟩
  · rw [hw, h.chunks]
  · show u32 (s.file.fileOffset + c.size) = _
    rw [hoff, hr, h.offset, List.flatten_append, List.flatten_singleton, List.length_append,
      Nat.add_assoc]
  · intro d pc off hmem hpc
    rw [hr]
    rcases mem_of_mem_set hmem with heq | hmem
    · cases heq
      cases hpc
      exact ⟨reservations tr, [], rfl, h.offset⟩
    · obtain ⟨pre, post, hsplit, hpre⟩ := h.place d pc off hmem hpc
      exact ⟨pre, post ++ [c.bytes], by rw [hsplit]; simp, hpre⟩
  · intro pre r post hsplit
    rw [hr] at hsplit
    rcases List.eq_nil_or_concat' post with rfl | ⟨post', x, rfl⟩
    · obtain ⟨hpre, hrec⟩ := List.append_inj' hsplit rfl
      cases hrec
      refine ⟨c, .reserved s.file.fileOffset, mem_set_self hc _, rfl, ?_⟩
      rw [← hpre, ← h.offset]
      rfl
    · have hsplit' : reservations tr ++ [c.bytes] = (pre ++ r :: post') ++ [x] := by
        rw [hsplit]
        simp
      obtain ⟨d, pc, hmem, hd, hpc⟩ := h.cover pre r post' (List.append_inj' hsplit' rfl).1
      rcases mem_set_of_mem hc hmem with heq | hmem
      · cases heq
        cases hpc
      · exact ⟨d, pc, hmem, hd, hpc⟩
  · have hsum := sum_set hc owed (c, .reserved s.file.fileOffset)
    have hlen := h.length
    rw [hr, hw, List.flatten_append, List.flatten_singleton, List.length_append]
    simp only [owed] at hsum
    show _ + ((s.calls.set i (c, .reserved s.file.fileOffset)).map owed).sum = _
    omega

/-- A write. -/
theorem Tracks.pwrite (h : Tracks held tr s) {off : Nat}
    (hc : s.calls[i]? = some (c, .reserved off)) :
    Tracks held (tr ++ [(s, .pwrite i)])
      ⟨s.file.pwrite c.bytes, s.calls.set i (c, .returned (some off))⟩ := by
  have hr : reservations (tr ++ [(s, .pwrite i)]) = reservations tr := by
    rw [reservations_snoc]
    exact List.append_nil _
  have hw : writes (tr ++ [(s, .pwrite i)]) = writes tr ++ [c.bytes] := by
    rw [writes_snoc, written, hc]
    rfl
  refine ⟨h.begins, ?_, ?_, ?_, ?_, ?_⟩
  · rw [hw, ← h.chunks]
    rfl
  · rw [hr, ← h.offset]
    rfl
  · intro d pc o hmem hpc
    rw [hr]
    rcases mem_of_mem_set hmem with heq | hmem
    · cases heq
      exact h.place c (.reserved off) o (List.mem_of_getElem? hc) hpc
    · exact h.place d pc o hmem hpc
  · intro pre r post hsplit
    rw [hr] at hsplit
    obtain ⟨d, pc, hmem, hd, hpc⟩ := h.cover pre r post hsplit
    rcases mem_set_of_mem hc hmem with heq | hmem
    · cases heq
      exact ⟨c, _, mem_set_self hc _, hd, hpc⟩
    · exact ⟨d, pc, hmem, hd, hpc⟩
  · have hsum := sum_set hc owed (c, .returned (some off))
    have hlen := h.length
    rw [hr, hw, List.flatten_append, List.flatten_singleton, List.length_append]
    simp only [owed] at hsum
    show _ + ((s.calls.set i (c, .returned (some off))).map owed).sum = _
    omega

theorem run_tracks (hheld : held.length < 2 ^ 32) (hrun : (appends held).Run ⟨.new held, []⟩ tr s) :
    Tracks held tr s := by
  induction hrun with
  | nil =>
    refine ⟨rfl, rfl, u32_eq hheld, ?_, ?_, rfl⟩
    · intro c pc off hmem
      cases hmem
    · intro pre r post hsplit
      cases pre <;> cases hsplit
  | @snoc tr s l s' _ hstep ih =>
    cases l with
    | call c =>
      cases hstep
      exact ih.call c
    | reserve i =>
      obtain ⟨c, hc, ⟨hroom, rfl⟩ | ⟨hfull, rfl⟩⟩ := Appends.step_reserve hstep
      · exact ih.reserve hc hroom
      · exact ih.full hc hfull
    | pwrite i =>
      obtain ⟨c, off, hc, rfl⟩ := Appends.step_pwrite hstep
      exact ih.pwrite hc

/-- Once all calls have returned, on a file that was below 4 GiB, every record is where
its call said exactly if the writes in their order spell what the reservations in
theirs do. -/
theorem placed_iff (hheld : held.length < 2 ^ 32) (hrun : (appends held).Run ⟨.new held, []⟩ tr s)
    (hret : s.Returned) : s.Placed ↔ (writes tr).flatten = (reservations tr).flatten := by
  have h := run_tracks hheld hrun
  have howed : (s.calls.map owed).sum = 0 := by
    apply List.sum_eq_zero
    intro n hn
    obtain ⟨⟨c, pc⟩, hmem, rfl⟩ := List.mem_map.mp hn
    obtain ⟨off, hoff⟩ := hret (c, pc) hmem
    cases hoff
    rfl
  have hlen : (writes tr).flatten.length = (reservations tr).flatten.length := by
    have := h.length
    omega
  have hbytes : s.file.bytes = held ++ (writes tr).flatten := by
    rw [File.bytes, h.begins, h.chunks]
  rw [← flatten_eq_iff hlen, Appends.Placed, hbytes]
  constructor
  · intro hplaced pre r post hsplit
    obtain ⟨c, pc, hmem, rfl, hpc⟩ := h.cover pre r post hsplit
    obtain ⟨off, hoff⟩ := hret (c, pc) hmem
    cases hoff
    cases hpc
    exact foundAt_append_left.mp (hplaced c _ hmem)
  · intro hfound c off hmem
    obtain ⟨pre, post, hsplit, rfl⟩ := h.place c _ off hmem rfl
    exact foundAt_append_left.mpr (hfound pre c.bytes post hsplit)

theorem length_singleton_whole (b : UInt8) : ([b] : Bytes).length ≤ maxRwCount := by
  rw [List.length_singleton, maxRwCount]
  omega

/-- A batch of one byte. -/
def appendOne (b : UInt8) : Append := .batch [b] (length_singleton_whole b)

/-- Two calls at the same time that write in the order in which they reserve. -/
theorem placed_two : ∃ tr s, ([] : Bytes).length < 2 ^ 32 ∧
    (appends []).Run ⟨.new [], []⟩ tr s ∧ s.Returned ∧
    s.calls.map Prod.fst = [appendOne 1, appendOne 2] ∧
    reservations tr = [[2], [1]] ∧ s.Placed := by
  obtain ⟨tr, htr, hreserved, horder⟩ : ∃ tr, (appends []).trace ⟨.new [], []⟩
      [.call (appendOne 1), .call (appendOne 2), .reserve 1, .reserve 0, .pwrite 1, .pwrite 0] =
        some (tr, ⟨⟨[], [[2], [1]], 2, 0⟩,
          [(appendOne 1, .returned (some 1)), (appendOne 2, .returned (some 0))]⟩) ∧
      reservations tr = [[2], [1]] ∧
      (writes tr).flatten = (reservations tr).flatten := ⟨_, rfl, rfl, rfl⟩
  have hrun := TSys.run_of_trace htr
  have hret : Appends.Returned ⟨⟨[], [[2], [1]], 2, 0⟩,
      [(appendOne 1, .returned (some 1)), (appendOne 2, .returned (some 0))]⟩ := by
    intro p hp
    simp only [List.mem_cons, List.not_mem_nil, or_false] at hp
    rcases hp with rfl | rfl
    · exact ⟨_, rfl⟩
    · exact ⟨_, rfl⟩
  exact ⟨tr, _, by norm_num, hrun, hret, rfl, hreserved,
    (placed_iff (by norm_num) hrun hret).mpr horder⟩

/-- Two calls that write in the other order than they reserve: the byte of each is where
the other says. -/
theorem writes_cross : ∃ tr s, (appends []).Run ⟨.new [], []⟩ tr s ∧ s.Returned ∧ ¬ s.Placed := by
  obtain ⟨tr, htr⟩ : ∃ tr, (appends []).trace ⟨.new [], []⟩ [.call (appendOne 1),
      .call (appendOne 2), .reserve 0, .reserve 1, .pwrite 1, .pwrite 0] =
      some (tr, ⟨⟨[], [[2], [1]], 2, 0⟩,
        [(appendOne 1, .returned (some 0)), (appendOne 2, .returned (some 1))]⟩) := ⟨_, rfl⟩
  refine ⟨tr, _, TSys.run_of_trace htr, ?_, ?_⟩
  · intro p hp
    simp only [List.mem_cons, List.not_mem_nil, or_false] at hp
    rcases hp with rfl | rfl
    · exact ⟨_, rfl⟩
    · exact ⟨_, rfl⟩
  · intro hplaced
    have hbyte : ([2] : Bytes) = [1] := hplaced (appendOne 1) 0 List.mem_cons_self
    cases hbyte

end LogDirect.BitCask
