import Mathlib.Data.List.Basic
import Mathlib.Tactic.Ring

/-!
# Byte memories and little-endian words

Memory is a function from addresses to bytes; a block is read and written as a
list of bytes. The lemmas say when a read sees a write (`read_write`), when it
does not (`read_write_of_disjoint`), and how reads split (`read_add`). Words
are little-endian lists of a fixed number of bytes.
-/

namespace Lib

abbrev Bytes := List UInt8

/-! ## Little-endian words -/

/-- The low `n` bytes of `x`, least significant byte first. -/
def leBytes : Nat → Nat → Bytes
  | 0, _ => []
  | n + 1, x => UInt8.ofNat x :: leBytes n (x / 256)

/-- The number a byte string denotes, least significant byte first. -/
def leNat : Bytes → Nat
  | [] => 0
  | b :: bs => b.toNat + 256 * leNat bs

@[simp] theorem length_leBytes (n x : Nat) : (leBytes n x).length = n := by
  induction n generalizing x with
  | zero => rfl
  | succ n ih => simp [leBytes, ih]

/-- Decoding recovers the value modulo the width. -/
theorem leNat_leBytes (n x : Nat) : leNat (leBytes n x) = x % 256 ^ n := by
  induction n generalizing x with
  | zero => simp [leBytes, leNat, Nat.mod_one]
  | succ n ih =>
    simp only [leBytes, leNat, ih]
    rw [Nat.pow_succ, Nat.mul_comm (256 ^ n) 256, Nat.mod_mul]
    simp

theorem leNat_leBytes_of_lt {n x : Nat} (h : x < 256 ^ n) : leNat (leBytes n x) = x := by
  rw [leNat_leBytes, Nat.mod_eq_of_lt h]

/-- Encoding drops what is beyond the width. -/
theorem leBytes_mod (n x : Nat) : leBytes n (x % 256 ^ n) = leBytes n x := by
  induction n generalizing x with
  | zero => rfl
  | succ n ih =>
    have hhead : UInt8.ofNat (x % 256 ^ (n + 1)) = UInt8.ofNat x := by
      rw [← UInt8.toNat_inj, UInt8.toNat_ofNat', UInt8.toNat_ofNat']
      exact Nat.mod_mod_of_dvd x (Dvd.intro_left (256 ^ n) (Nat.pow_succ ..).symm)
    have htail : x % 256 ^ (n + 1) / 256 = x / 256 % 256 ^ n := by
      rw [Nat.pow_succ, Nat.mul_comm, Nat.mod_mul_right_div_self]
    rw [leBytes, leBytes, hhead, htail, ih]

theorem leNat_lt (bs : Bytes) : leNat bs < 256 ^ bs.length := by
  induction bs with
  | nil => exact Nat.one_pos
  | cons b bs ih =>
    have hb : b.toNat < 256 := b.toNat_lt
    rw [leNat, List.length_cons, Nat.pow_succ]
    omega

/-- Encoding gives back what was decoded. -/
theorem leBytes_leNat (bs : Bytes) : leBytes bs.length (leNat bs) = bs := by
  induction bs with
  | nil => rfl
  | cons b bs ih =>
    have hb : b.toNat < 256 := b.toNat_lt
    have hhead : UInt8.ofNat (b.toNat + 256 * leNat bs) = b := by
      rw [← UInt8.toNat_inj, UInt8.toNat_ofNat']
      omega
    have htail : (b.toNat + 256 * leNat bs) / 256 = leNat bs := by omega
    rw [leNat, List.length_cons, leBytes, hhead, htail, ih]

/-! ## Memories -/

/-- A byte-addressed memory. -/
def Mem := Nat → UInt8

namespace Mem

/-- The `n` bytes from address `a`. -/
def read (m : Mem) (a n : Nat) : Bytes :=
  (List.range n).map fun i => m (a + i)

/-- Store the block `bs` at address `a`. -/
def write (m : Mem) (a : Nat) (bs : Bytes) : Mem :=
  fun x => if a ≤ x ∧ x < a + bs.length then bs.getD (x - a) 0 else m x

@[simp] theorem length_read (m : Mem) (a n : Nat) : (m.read a n).length = n := by
  simp [read]

variable {m : Mem} {a n : Nat} {bs : Bytes}

/-- Two reads agree when the memories agree on the block. -/
theorem read_congr {m' : Mem} (h : ∀ i < n, m (a + i) = m' (a + i)) : m.read a n = m'.read a n := by
  refine List.map_congr_left fun i hi => h i ?_
  simpa using hi

/-- A block read splits at any point. -/
theorem read_add (m : Mem) (a n k : Nat) :
    m.read a (n + k) = m.read a n ++ m.read (a + n) k := by
  unfold read
  rw [List.range_add, List.map_append, List.map_map]
  congr 1
  refine List.map_congr_left fun i _ => ?_
  show m (a + (n + i)) = m (a + n + i)
  rw [Nat.add_assoc]

/-- Reading back the block just written. -/
@[simp] theorem read_write (m : Mem) (a : Nat) (bs : Bytes) :
    (m.write a bs).read a bs.length = bs := by
  refine List.ext_getElem (by simp) fun i hi hi' => ?_
  simp [read, write, hi']

theorem read_write_eq (m : Mem) (a : Nat) (bs : Bytes) (hn : n = bs.length) :
    (m.write a bs).read a n = bs := by
  rw [hn, read_write]

/-- A read outside the written block does not see the write. -/
theorem read_write_of_disjoint (m : Mem) {b : Nat} (h : b + n ≤ a ∨ a + bs.length ≤ b) :
    (m.write a bs).read b n = m.read b n := by
  refine read_congr fun i hi => ?_
  unfold write
  rw [if_neg (by omega)]

/-- A read inside the written block sees the corresponding part of it. -/
theorem read_write_sub (m : Mem) {off : Nat} (h : off + n ≤ bs.length) :
    (m.write a bs).read (a + off) n = (bs.drop off).take n := by
  refine List.ext_getElem (by simp; omega) fun i hi hi' => ?_
  have hin : i < n := by simpa using hi
  have hlt : off + i < bs.length := by omega
  have h1 : a ≤ a + off + i := by omega
  have h2 : a + off + i - a = off + i := by omega
  have h3 : a + off + i < a + bs.length := by omega
  simp [read, write, h1, h2, h3, hlt]

/-- A part of a block that reads as `bs` reads as that part of `bs`. -/
theorem read_sub {k : Nat} (h : m.read a k = bs) (off n : Nat) (hk : off + n ≤ k) :
    m.read (a + off) n = (bs.drop off).take n := by
  obtain ⟨j, rfl⟩ : ∃ j, k = off + (n + j) := ⟨k - off - n, by omega⟩
  rw [read_add, read_add] at h
  rw [← h, List.drop_left' (by simp), List.take_left' (by simp)]

/-- Two memories that agree on a block agree on every part of it. -/
theorem read_sub_congr {m' : Mem} {k : Nat} (h : m.read a k = m'.read a k) (off n : Nat)
    (hk : off + n ≤ k) : m.read (a + off) n = m'.read (a + off) n := by
  rw [read_sub h off n hk, ← read_sub rfl off n hk]

/-- A block that reads as `xs ++ ys` reads as `xs` in its first part. -/
theorem read_left (xs ys : Bytes) (h : m.read a (xs.length + ys.length) = xs ++ ys) :
    m.read a xs.length = xs := by
  have h' := read_sub h 0 xs.length (by omega)
  simpa using h'

/-- A block that reads as `xs ++ ys` reads as `ys` in its second part. -/
theorem read_right (xs ys : Bytes) (h : m.read a (xs.length + ys.length) = xs ++ ys) :
    m.read (a + xs.length) ys.length = ys := by
  have h' := read_sub h xs.length ys.length (by omega)
  simpa using h'

/-- A block that reads as `pre ++ mid ++ post` reads as `mid` in the middle. -/
theorem read_mid (pre mid post : Bytes)
    (h : m.read a (pre ++ mid ++ post).length = pre ++ mid ++ post) :
    m.read (a + pre.length) mid.length = mid := by
  have h' := read_sub h pre.length mid.length (by simp only [List.length_append]; omega)
  rwa [List.append_assoc, List.drop_left' rfl, List.take_left' rfl] at h'

end Mem

end Lib
