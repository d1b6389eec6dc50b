import LogDirect.CpuAccess.PointerChase
import Mathlib.Logic.Function.Iterate

/-!
# Random accesses

`rand_write_lat` and `rand_read_lat` of `cpuaccess/access.cc`, as `run_test` of
`cpuaccess/latency.cc` calls them. A shift register gives the start of an access; the mask
keeps the start inside the buffer, and the inner loop goes on for `size` bytes. For how many
turns the register still holds bits of a small seed where the mask looks decides which sizes
stay inside.
-/

namespace LogDirect.CpuAccess

/-! ## The two functions -/

/-- `RandLFSR64`: what it leaves in `r12`, and in the variable. -/
def randLFSR64 (random : BitVec 64) : BitVec 64 :=
  let r9 := random >>> 1
  let r12 := -(random &&& 1) &&& 0xd800000000000000
  r12 ^^^ r9

/-- `access_mask` -/
def accessMask : BitVec 64 := BitVec.ofNat 64 ((bufsize - 1) ^^^ (alignSize - 1))

/-- An access of 64 bytes, at an offset from `start_addr`. -/
inductive Access
  | load (offset : Nat)
  | store (offset : Nat)

def Access.offset : Access → Nat
  | load offset => offset
  | store offset => offset

/-- The inner loop, `r9` being an offset from `start_addr`. -/
def lineLoop (access : Nat → Access) (size r9 r10 : Nat) : List Access :=
  access (r9 + r10) :: if r10 + 0x40 < size then lineLoop access size r9 (r10 + 0x40) else []
termination_by size - r10

/-- The outer loop. -/
def fencedLoop (access : Nat → Access) (size count : Nat) (random : BitVec 64) (r11 : Nat) :
    List Access :=
  let r12 := randLFSR64 random
  let r8 := r12 &&& accessMask
  lineLoop access size r8.toNat 0 ++
    if r11 + 1 < count then fencedLoop access size count r12 (r11 + 1) else []
termination_by count - r11

/-- `rand_write_lat`, for what `getSeed` returns -/
def randWriteLat (seed size count : Nat) : List Access :=
  fencedLoop .store size count (BitVec.ofNat 64 seed) 0

/-- `rand_read_lat` -/
def randReadLat (seed size count : Nat) : List Access :=
  fencedLoop .load size count (BitVec.ofNat 64 seed) 0

/-- `run_test` -/
def runTest (seed size : Nat) (read : Bool) : List Access :=
  let count := bufsize / size % 2 ^ 32
  if read then randReadLat seed size count else randWriteLat seed size count

/-- What `tv_usec` is below. -/
def seedBound : Nat := 1000000

/-! ## The accesses of a run -/

section Loops

variable {access : Nat → Access} {size count r9 r10 r11 : Nat} {random : BitVec 64} {a : Access}

theorem mem_lineLoop : a ∈ lineLoop access size r9 r10 ↔
    ∃ i, (i = 0 ∨ r10 + 64 * i < size) ∧ a = access (r9 + (r10 + 64 * i)) := by
  fun_induction lineLoop access size r9 r10 with
  | case1 r10 ih =>
    rw [List.mem_cons]
    by_cases hmore : r10 + 0x40 < size
    · rw [if_pos hmore, ih hmore]
      constructor
      · rintro (rfl | ⟨i, hi, rfl⟩)
        · exact ⟨0, .inl rfl, rfl⟩
        · exact ⟨i + 1, .inr (by omega), congrArg access (by omega)⟩
      · rintro ⟨i, hi, rfl⟩
        cases i with
        | zero => exact .inl rfl
        | succ i => exact .inr ⟨i, by omega, congrArg access (by omega)⟩
    · rw [if_neg hmore, or_iff_left List.not_mem_nil]
      constructor
      · rintro rfl
        exact ⟨0, .inl rfl, rfl⟩
      · rintro ⟨i, hi, rfl⟩
        exact congrArg access (by omega)

theorem mem_fencedLoop : a ∈ fencedLoop access size count random r11 ↔
    ∃ k, (k = 0 ∨ r11 + k < count) ∧
      a ∈ lineLoop access size (randLFSR64^[k + 1] random &&& accessMask).toNat 0 := by
  fun_induction fencedLoop access size count random r11 with
  | case1 random r11 r12 r8 ih =>
    rw [List.mem_append]
    by_cases hmore : r11 + 1 < count
    · rw [if_pos hmore, ih hmore]
      constructor
      · rintro (h | ⟨k, hk, h⟩)
        · exact ⟨0, .inl rfl, h⟩
        · exact ⟨k + 1, .inr (by omega), h⟩
      · rintro ⟨k, hk, h⟩
        cases k with
        | zero => exact .inl h
        | succ k => exact .inr ⟨k, by omega, h⟩
    · rw [if_neg hmore, or_iff_left List.not_mem_nil]
      constructor
      · exact fun h => ⟨0, .inl rfl, h⟩
      · rintro ⟨k, hk, h⟩
        have : k = 0 := by omega
        subst this
        exact h

end Loops

/-- Where the access of turn `k` starts. -/
def start (seed k : Nat) : Nat := (randLFSR64^[k + 1] (BitVec.ofNat 64 seed) &&& accessMask).toNat

/-- The accesses that `run_test` makes. -/
theorem mem_runTest {seed size : Nat} {read : Bool} {a : Access} : a ∈ runTest seed size read ↔
    ∃ k, (k = 0 ∨ k < bufsize / size) ∧ ∃ i, (i = 0 ∨ 64 * i < size) ∧
      a = (if read then Access.load else .store) (start seed k + 64 * i) := by
  have hcount : bufsize / size % 2 ^ 32 = bufsize / size :=
    Nat.mod_eq_of_lt ((Nat.div_le_self ..).trans_lt (by decide))
  have hloop : runTest seed size read = fencedLoop (if read then Access.load else .store) size
      (bufsize / size) (BitVec.ofNat 64 seed) 0 := by
    unfold runTest
    rw [hcount]
    cases read with
    | false => rfl
    | true => rfl
  rw [hloop, mem_fencedLoop]
  simp only [mem_lineLoop, Nat.zero_add]
  rfl

/-- A turn reaches `size` bytes further than it starts. -/
theorem runTest_within_iff {seed size : Nat} (hpos : 0 < size) (hdvd : 64 ∣ size) :
    (∀ read, ∀ a ∈ runTest seed size read, a.offset + 64 ≤ bufsize) ↔
      ∀ k, k = 0 ∨ k < bufsize / size → start seed k + size ≤ bufsize := by
  obtain ⟨m, rfl⟩ := hdvd
  constructor
  · intro h k hk
    have hlast : start seed k + 64 * (m - 1) + 64 ≤ bufsize :=
      h true (.load _) (mem_runTest.mpr ⟨k, hk, m - 1, by omega, rfl⟩)
    omega
  · intro h read a ha
    obtain ⟨k, hk, i, hi, rfl⟩ := mem_runTest.mp ha
    have hoffset : ((if read then Access.load else .store) (start seed k + 64 * i)).offset =
        start seed k + 64 * i := by
      cases read with
      | false => rfl
      | true => rfl
    have hstart := h k hk
    omega

/-! ## The register -/

theorem getLsbD_accessMask (j : Nat) : accessMask.getLsbD j = decide (6 ≤ j ∧ j < 22) := by
  by_cases hj : j < 64
  · revert j
    decide
  · rw [BitVec.getLsbD_of_ge _ _ (Nat.le_of_not_lt hj)]
    exact (decide_eq_false (by omega)).symm

/-- Below the four bits of the polynomial a turn is a shift. -/
theorem getLsbD_randLFSR64 (x : BitVec 64) {j : Nat} (hj : j < 59) :
    (randLFSR64 x).getLsbD j = x.getLsbD (j + 1) := by
  have hmask : (0xd800000000000000#64).getLsbD j = false := by
    revert j
    decide
  unfold randLFSR64
  simp [hmask, Nat.add_comm]

/-- The bits of the seed move down. -/
theorem getLsbD_iterate (k : Nat) (x : BitVec 64) {j : Nat} (h : j + k < 60) :
    (randLFSR64^[k] x).getLsbD j = x.getLsbD (j + k) := by
  induction k generalizing x with
  | zero => rfl
  | succ k ih =>
    rw [Function.iterate_succ_apply, ih _ (by omega), getLsbD_randLFSR64 x (by omega)]
    rfl

theorem start_le (seed k : Nat) : start seed k ≤ bufsize - alignSize := by
  refine (BitVec.toNat_and .. ▸ Nat.and_le_right).trans ?_
  decide

theorem start_mod (seed k : Nat) : start seed k % alignSize = 0 := by
  show _ % 2 ^ 6 = 0
  rw [start, BitVec.toNat_and, Nat.and_mod_two_pow]
  exact Nat.and_zero _

/-- For 38 turns the mask sees bits of the seed only. -/
theorem start_le_seed {seed k : Nat} (hseed : seed < 2 ^ 64) (hk : k < 38) :
    start seed k ≤ seed >>> (k + 1) := by
  have hbits : randLFSR64^[k + 1] (BitVec.ofNat 64 seed) &&& accessMask =
      (BitVec.ofNat 64 seed >>> (k + 1)) &&& accessMask := by
    refine BitVec.eq_of_getLsbD_eq fun j _ => ?_
    rw [BitVec.getLsbD_and, BitVec.getLsbD_and, getLsbD_accessMask]
    by_cases hmask : 6 ≤ j ∧ j < 22
    · rw [getLsbD_iterate _ _ (by omega), BitVec.getLsbD_ushiftRight, Nat.add_comm]
    · rw [decide_eq_false hmask, Bool.and_false, Bool.and_false]
  rw [start, hbits, BitVec.toNat_and]
  refine Nat.and_le_left.trans ?_
  rw [BitVec.toNat_ushiftRight, BitVec.toNat_ofNat, Nat.mod_eq_of_lt hseed]

/-- For 43 turns what the polynomial has set is above the low 17 bits, and the seed is gone
from them after 20. -/
theorem start_mod_seed {seed k : Nat} (hseed : seed < 2 ^ 20) (hk : 20 ≤ k) (hk' : k < 43) :
    start seed k % 2 ^ 17 = 0 := by
  refine Nat.eq_of_testBit_eq fun j => ?_
  rw [Nat.testBit_mod_two_pow, Nat.zero_testBit]
  by_cases hj : j < 17
  · have hzero : seed.testBit (j + (k + 1)) = false :=
      Nat.testBit_lt_two_pow (hseed.trans_le (Nat.pow_le_pow_right Nat.two_pos (by omega)))
    have hbit := getLsbD_iterate (k + 1) (BitVec.ofNat 64 seed) (j := j) (by omega)
    rw [BitVec.getLsbD_ofNat, hzero, Bool.and_false] at hbit
    rw [start, BitVec.toNat_and, Nat.testBit_and]
    simp only [BitVec.getLsbD] at hbit
    rw [hbit, Bool.false_and, Bool.and_false]
  · rw [decide_eq_false hj, Bool.false_and]

/-! ## The sizes that stay inside -/

/-- Two starts near the end of the buffer, and the farthest one of a first turn. -/
theorem start_late : start 53437 53 = 4194240 ∧ start 53437 43 = 4128768 ∧
    start 999999 0 = 499968 := by
  decide +kernel

/-- With 43 turns or fewer. -/
theorem start_add_le {seed size k : Nat} (hseed : seed < seedBound) (hmin : 95360 ≤ size)
    (hmax : size ≤ 3694336) (hk : k = 0 ∨ k < bufsize / size) : start seed k + size ≤ bufsize := by
  unfold seedBound at hseed
  have hmod : start seed k % 64 = 0 := start_mod seed k
  have hbuf : bufsize = 4194304 := rfl
  have hturns : k = 0 ∨ (k + 1) * size ≤ bufsize :=
    hk.imp_right (Nat.le_div_iff_mul_le (Nat.zero_lt_of_lt hmin)).mp
  by_cases hearly : k < 38
  · have hle := start_le_seed (hseed.trans (by decide)) hearly
    have hhalf : seed >>> (k + 1) ≤ seed / 2 := by
      rw [Nat.shiftRight_eq_div_pow]
      exact Nat.div_le_div_left (Nat.le_self_pow (Nat.succ_ne_zero k) 2) Nat.two_pos
    omega
  · have hlate : (k + 1) * size ≤ bufsize := hturns.resolve_left (by omega)
    have hfew : 39 * size ≤ bufsize :=
      (Nat.mul_le_mul_right size (by omega : 39 ≤ k + 1)).trans hlate
    have hlt : k < 43 := by
      by_contra hk'
      have := (Nat.mul_le_mul_right size (by omega : 44 ≤ k + 1)).trans hlate
      omega
    have hzero := start_mod_seed (hseed.trans (by decide)) (by omega) hlt
    have hle : start seed k ≤ 4194304 - 64 := start_le seed k
    omega

/-- The accesses of `run_test` stay inside the buffer for every seed exactly if the size is
that of one line, or so large that the 44th turn is never made and not so large that the
first one can leave the buffer. -/
theorem runTest_within_buffer_iff {size : Nat} (hpos : 0 < size) (hdvd : alignSize ∣ size) :
    (∀ seed < seedBound, ∀ read, ∀ a ∈ runTest seed size read, a.offset + 64 ≤ bufsize) ↔
      size = alignSize ∨ 95360 ≤ size ∧ size ≤ 3694336 := by
  have hbuf : bufsize = 4194304 := rfl
  have halign : alignSize = 64 := rfl
  simp only [runTest_within_iff hpos hdvd]
  obtain ⟨hlast, hnear, hfirst⟩ := start_late
  constructor
  · intro h
    have hmax := h 999999 (by decide) 0 (.inl rfl)
    by_contra hnot
    have hsmall : size < 95360 := by omega
    have hlines : 64 ∣ size := hdvd
    by_cases hmany : size ≤ 77632
    · have hturn : 53 < bufsize / size := (Nat.le_div_iff_mul_le hpos).mpr (by omega)
      have hin := h 53437 (by decide) 53 (.inr hturn)
      omega
    · have hturn : 43 < bufsize / size := (Nat.le_div_iff_mul_le hpos).mpr (by omega)
      have hin := h 53437 (by decide) 43 (.inr hturn)
      omega
  · rintro (rfl | ⟨hmin, hmax⟩) seed hseed k hk
    · exact Nat.add_le_of_le_sub (by decide) (start_le seed k)
    · exact start_add_le hseed hmin hmax hk

/-- Accesses of 128 KiB: 32 turns of 2048 lines each, the last line of the last turn included. -/
theorem runTest_within_buffer_block :
    0 < 131072 ∧ alignSize ∣ 131072 ∧
      (∀ seed < seedBound, ∀ read, ∀ a ∈ runTest seed 131072 read, a.offset + 64 ≤ bufsize) ∧
      ∃ a ∈ runTest 53437 131072 false, a.offset = start 53437 31 + 64 * 2047 := by
  have hdvd : alignSize ∣ 131072 := by decide
  refine ⟨by decide, hdvd, (runTest_within_buffer_iff (by decide) hdvd).mpr (.inr (by decide)), ?_⟩
  exact ⟨.store _, mem_runTest.mpr ⟨31, .inr (by decide), 2047, .inr (by decide), rfl⟩, rfl⟩

/-- With pages the seed 53437 starts its 54th access at the last line of the buffer. -/
theorem runTest_page_leaves_buffer :
    ∃ a ∈ runTest 53437 4096 false, bufsize ≤ a.offset := by
  refine ⟨.store _, mem_runTest.mpr ⟨53, .inr (by decide), 1, .inr (by decide), rfl⟩, ?_⟩
  show bufsize ≤ start 53437 53 + 64 * 1
  rw [start_late.1]
  decide

end LogDirect.CpuAccess
