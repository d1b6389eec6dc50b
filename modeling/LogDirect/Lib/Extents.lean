import Mathlib.Data.List.Basic

/-!
# Stretches of an address space

An extent is a base and a size. `Tiles start es stop` says that the extents, in the
order in which they were handed out, fill the addresses from `start` to `stop`: each
begins where the one before it ends. An allocator that only moves its end forward
keeps such a tiling, and a tiling is disjoint and leaves no gap.
-/

namespace Lib

/-- The addresses from `base` on, `size` of them. -/
structure Extent where
  base : Nat
  size : Nat
  deriving DecidableEq

namespace Extent

/-- The first address behind the extent. -/
def stop (e : Extent) : Nat := e.base + e.size

/-- The address is in the extent. -/
def Holds (e : Extent) (p : Nat) : Prop := e.base ≤ p ∧ p < e.stop

/-- The extent is a part of the other. -/
def Within (a b : Extent) : Prop := b.base ≤ a.base ∧ a.stop ≤ b.stop

/-- One extent ends before the other begins. -/
def Apart (a b : Extent) : Prop := a.stop ≤ b.base ∨ b.stop ≤ a.base

instance (e : Extent) (p : Nat) : Decidable (e.Holds p) := inferInstanceAs (Decidable (_ ∧ _))

instance (a b : Extent) : Decidable (a.Within b) := inferInstanceAs (Decidable (_ ∧ _))

instance (a b : Extent) : Decidable (a.Apart b) := inferInstanceAs (Decidable (_ ∨ _))

/-- A part of an extent, by its offset. -/
theorem within_of_offset {base off len size : Nat} (h : off + len ≤ size) :
    (⟨base + off, len⟩ : Extent).Within ⟨base, size⟩ := by
  refine ⟨Nat.le_add_right _ _, ?_⟩
  show base + off + len ≤ base + size
  omega

/-- No address is in two extents that are apart. -/
theorem Apart.not_holds {a b : Extent} (h : a.Apart b) {p : Nat} (ha : a.Holds p) :
    ¬ b.Holds p := by
  rintro ⟨hbase, hstop⟩
  rcases h with h | h
  · exact absurd hbase (Nat.not_le_of_lt (Nat.lt_of_lt_of_le ha.2 h))
  · exact absurd ha.1 (Nat.not_le_of_lt (Nat.lt_of_lt_of_le hstop h))

end Extent

/-- The extents, first handed out first, fill the addresses from `start` to the index. -/
inductive Tiles (start : Nat) : List Extent → Nat → Prop
  | nil : Tiles start [] start
  | snoc {es stop} (size : Nat) : Tiles start es stop →
      Tiles start (es ++ [⟨stop, size⟩]) (stop + size)

namespace Tiles

variable {start stop : Nat} {es : List Extent}

/-- Each extent lies between the ends. -/
theorem between (h : Tiles start es stop) :
    start ≤ stop ∧ ∀ e ∈ es, start ≤ e.base ∧ e.stop ≤ stop := by
  induction h with
  | nil => exact ⟨Nat.le_refl _, by simp⟩
  | @snoc es stop size _ ih =>
    refine ⟨Nat.le_trans ih.1 (Nat.le_add_right _ _), ?_⟩
    intro e he
    rcases List.mem_append.mp he with he | he
    · have := ih.2 e he
      exact ⟨this.1, Nat.le_trans this.2 (Nat.le_add_right _ _)⟩
    · rw [List.mem_singleton.mp he]
      exact ⟨ih.1, Nat.le_refl _⟩

/-- No two extents of a tiling overlap. -/
theorem pairwise (h : Tiles start es stop) : es.Pairwise Extent.Apart := by
  induction h with
  | nil => exact List.Pairwise.nil
  | @snoc es stop size h ih =>
    rw [List.pairwise_append]
    refine ⟨ih, List.pairwise_singleton _ _, ?_⟩
    intro a ha b hb
    rw [List.mem_singleton.mp hb]
    exact .inl (h.between.2 a ha).2

/-- Every address between the ends is in an extent. -/
theorem covers (h : Tiles start es stop) {p : Nat} (hstart : start ≤ p) (hstop : p < stop) :
    ∃ e ∈ es, e.Holds p := by
  induction h with
  | nil => exact absurd hstart (Nat.not_le_of_lt hstop)
  | @snoc es stop size _ ih =>
    by_cases hp : p < stop
    · obtain ⟨e, he, hholds⟩ := ih hp
      exact ⟨e, List.mem_append_left _ he, hholds⟩
    · exact ⟨⟨stop, size⟩, by simp, Nat.le_of_not_lt hp, hstop⟩

/-- A tiling from 0 covers exactly the addresses before its end. -/
theorem lt_iff (h : Tiles 0 es stop) (p : Nat) : p < stop ↔ ∃ e ∈ es, e.Holds p := by
  constructor
  · intro hp
    exact h.covers (Nat.zero_le p) hp
  · rintro ⟨e, he, hholds⟩
    exact Nat.lt_of_lt_of_le hholds.2 (h.between.2 e he).2

end Tiles

end Lib
