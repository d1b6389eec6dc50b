import Mathlib.Data.BitVec

/-!
# A bitmap of slots

Slot `i` is bit `i` counted from the top. A slot is taken by adding its bit and
given back by subtracting it; neither carries, as long as slots are taken when
free and given back when taken. The lowest free slot is the number of leading
ones.
-/

namespace Lib.Slots

variable {w : Nat}

/-- The bit of slot `i`. -/
def bit (w i : Nat) : BitVec w := 1#w <<< (w - 1 - i)

/-- Slot `i` is taken. -/
def Taken (b : BitVec w) (i : Nat) : Prop := b.getMsbD i = true

/-- The lowest free slot, or `w` if there is none. -/
def firstFree (b : BitVec w) : Nat := (~~~ b).clz.toNat

theorem getMsbD_bit {i j : Nat} (hi : i < w) (hj : j < w) :
    (bit w i).getMsbD j = decide (j = i) := by
  have hsub : w - 1 - j < w := by omega
  unfold bit
  rw [← BitVec.twoPow_eq, BitVec.getMsbD_eq_getLsbD, BitVec.getLsbD_twoPow]
  by_cases hij : j = i
  · subst hij
    simp [hj, hsub]
  · have hne : w - 1 - i ≠ w - 1 - j := by omega
    simp [hij, hne]

theorem not_taken_firstFree {b : BitVec w} (h : firstFree b < w) : ¬ Taken b (firstFree b) := by
  have hne : ~~~ b ≠ 0#w := by
    intro hz
    have hclz : (~~~ b).clz = w := BitVec.clz_eq_iff_eq_zero.mpr hz
    rw [firstFree, hclz, BitVec.natCast_eq_ofNat, BitVec.toNat_ofNat,
      Nat.mod_eq_of_lt Nat.lt_two_pow_self] at h
    exact Nat.lt_irrefl _ h
  have hset := BitVec.getLsbD_true_clz_of_ne_zero (by omega) hne
  intro htaken
  rw [Taken, BitVec.getMsbD_eq_getLsbD] at htaken
  rw [BitVec.getLsbD_not] at hset
  simp only [firstFree, Bool.and_eq_true] at htaken hset
  rw [htaken.2] at hset
  simp at hset

/-- The slots before the lowest free one are taken. -/
theorem taken_of_lt_firstFree {b : BitVec w} {i : Nat} (hi : i < firstFree b) (hw : i < w) :
    Taken b i := by
  have hbound : (~~~ b).toNat < 2 ^ (w - 1 - i) := by
    refine Nat.lt_of_lt_of_le BitVec.toNat_lt_two_pow_sub_clz (Nat.pow_le_pow_right (by omega) ?_)
    simp only [firstFree] at hi
    omega
  have hbit : (~~~ b).getLsbD (w - 1 - i) = false := Nat.testBit_lt_two_pow hbound
  rw [BitVec.getLsbD_not] at hbit
  have hlt : w - 1 - i < w := by omega
  simpa [Taken, BitVec.getMsbD_eq_getLsbD, hw, hlt] using hbit

/-- Taking a free slot takes that slot only. -/
theorem taken_add {b : BitVec w} {i j : Nat} (hi : i < w) (hfree : ¬ Taken b i) (hj : j < w) :
    Taken (b + bit w i) j ↔ Taken b j ∨ j = i := by
  have hor : b + bit w i = b ||| bit w i := by
    refine BitVec.add_eq_or_of_and_eq_zero _ _ (BitVec.eq_of_getMsbD_eq fun k hk => ?_)
    rw [BitVec.getMsbD_and, getMsbD_bit hi hk]
    by_cases hki : k = i
    · subst hki
      simpa [Taken] using hfree
    · simp [hki]
  rw [hor, Taken, BitVec.getMsbD_or, getMsbD_bit hi hj]
  simp [Taken]

/-- Giving back a taken slot frees that slot only. -/
theorem taken_sub {b : BitVec w} {i j : Nat} (hi : i < w) (htaken : Taken b i) (hj : j < w) :
    Taken (b - bit w i) j ↔ Taken b j ∧ j ≠ i := by
  -- `b` is what is left of it plus the bit
  have hb : b = (b &&& ~~~ bit w i) + bit w i := by
    rw [BitVec.add_eq_or_of_and_eq_zero]
    · refine BitVec.eq_of_getMsbD_eq fun k hk => ?_
      rw [BitVec.getMsbD_or, BitVec.getMsbD_and, BitVec.getMsbD_not, getMsbD_bit hi hk]
      by_cases hki : k = i
      · subst hki
        simpa [Taken] using htaken
      · simp [hki, hk]
    · rw [BitVec.and_assoc]
      simp
  have hsub : b - bit w i = b &&& ~~~ bit w i := by
    calc b - bit w i = (b &&& ~~~ bit w i) + bit w i - bit w i := by rw [← hb]
      _ = b &&& ~~~ bit w i := BitVec.add_sub_cancel _ _
  rw [hsub, Taken, BitVec.getMsbD_and, BitVec.getMsbD_not, getMsbD_bit hi hj]
  simp [Taken, hj]

end Lib.Slots
