import LogDirect.Lib.Mem

/-!
# Bytes in flight

A block that is written to a memory from afar becomes visible byte by byte, lowest
address first. `land m w` is the memory once all of `w` has arrived; a delivery
does not change it, so what holds of it when a block is posted holds until the
block has landed.
-/

namespace Lib

/-- Bytes on their way to a memory, next first. -/
abbrev Wire := List (Nat × UInt8)

namespace Wire

/-- The bytes of a block at an address. -/
def post : Nat → Bytes → Wire
  | _, [] => []
  | a, b :: bs => (a, b) :: post (a + 1) bs

/-- The memory once everything has arrived. -/
def land (m : Mem) : Wire → Mem
  | [] => m
  | p :: w => land (m.write p.1 [p.2]) w

theorem mem_post {a : Nat} {bs : Bytes} {p : Nat × UInt8} (h : p ∈ post a bs) :
    a ≤ p.1 ∧ p.1 < a + bs.length := by
  induction bs generalizing a with
  | nil => cases h
  | cons b bs ih =>
    rcases List.mem_cons.mp h with rfl | h
    · exact ⟨Nat.le_refl _, by simp⟩
    · have := ih h
      rw [List.length_cons]
      omega

theorem land_append (m : Mem) (w w' : Wire) : land m (w ++ w') = land (land m w) w' := by
  induction w generalizing m with
  | nil => rfl
  | cons p w ih => exact ih _

/-- A block that has arrived has been written. -/
theorem land_post (m : Mem) (a : Nat) (bs : Bytes) : land m (post a bs) = m.write a bs := by
  induction bs generalizing m a with
  | nil =>
    funext x
    show m x = if a ≤ x ∧ x < a + 0 then _ else m x
    rw [if_neg (by omega)]
  | cons b bs ih =>
    rw [post, land, ih]
    funext x
    simp only [Mem.write, List.length_cons, List.length_nil]
    rcases Nat.lt_trichotomy x a with hx | rfl | hx
    · rw [if_neg (by omega), if_neg (by omega), if_neg (by omega)]
    · rw [if_neg (by omega), if_pos (by omega), if_pos (by omega), Nat.sub_self]
      rfl
    · obtain ⟨k, rfl⟩ : ∃ k, x = a + 1 + k := ⟨x - (a + 1), by omega⟩
      by_cases hk : k < bs.length
      · rw [if_pos (by omega), if_pos (by omega), Nat.add_sub_cancel_left,
          show a + 1 + k - a = k + 1 by omega]
        rfl
      · rw [if_neg (by omega), if_neg (by omega), if_neg (by omega)]

/-- What is in flight to lower addresses does not matter to a block. -/
theorem read_land_of_lt {m : Mem} {w : Wire} {a : Nat} (h : ∀ p ∈ w, p.1 < a) (n : Nat) :
    (land m w).read a n = m.read a n := by
  induction w generalizing m with
  | nil => rfl
  | cons p w ih =>
    have hp := h p List.mem_cons_self
    rw [land, ih fun q hq => h q (List.mem_cons_of_mem _ hq)]
    exact Mem.read_write_of_disjoint m (.inr (by rw [List.length_singleton]; omega))

end Wire

/-- A byte at another address. -/
theorem Mem.write_byte_of_ne (m : Mem) {a x : Nat} (b : UInt8) (h : a ≠ x) :
    m.write a [b] x = m x :=
  if_neg (by rw [List.length_singleton]; omega)

@[simp] theorem Mem.write_byte (m : Mem) (a : Nat) (b : UInt8) : m.write a [b] a = b := by
  unfold Mem.write
  rw [if_pos (by simp), Nat.sub_self]
  rfl

end Lib
