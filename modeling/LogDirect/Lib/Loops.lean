import Mathlib.Data.List.Induction

/-!
# Loops that may fail

A loop over a list, or over the numbers below a bound, whose body may fail. The rules
are total: from an invariant under which every turn succeeds and keeps it, the whole loop
succeeds, and the invariant holds at its end.
-/

namespace Lib

variable {α β : Type}

/-- The invariant speaks of the elements that are done. -/
theorem foldlM_some {f : β → α → Option β} (P : List α → β → Prop) {l : List α} {b : β}
    (h₀ : P [] b)
    (hstep : ∀ pre x post b, l = pre ++ x :: post → P pre b → ∃ b', f b x = some b' ∧
      P (pre ++ [x]) b') :
    ∃ b', l.foldlM f b = some b' ∧ P l b' := by
  induction l using List.reverseRecOn with
  | nil => exact ⟨b, rfl, h₀⟩
  | append_singleton xs x ih =>
    obtain ⟨b₁, hfold, hP⟩ := ih fun pre y post b hxs =>
      hstep pre y (post ++ [x]) b (by rw [hxs, List.append_assoc, List.cons_append])
    obtain ⟨b₂, hx, hP'⟩ := hstep xs x [] b₁ rfl hP
    refine ⟨b₂, ?_, hP'⟩
    rw [List.foldlM_append, hfold]
    simpa using hx

/-- The invariant speaks of the number of turns. -/
theorem foldlM_range {f : β → Nat → Option β} (P : Nat → β → Prop) {n : Nat} {b : β} (h₀ : P 0 b)
    (hstep : ∀ i b, i < n → P i b → ∃ b', f b i = some b' ∧ P (i + 1) b') :
    ∃ b', (List.range n).foldlM f b = some b' ∧ P n b' := by
  induction n with
  | zero => exact ⟨b, rfl, h₀⟩
  | succ n ih =>
    obtain ⟨b₁, hfold, hP⟩ := ih fun i b hi => hstep i b (Nat.lt_succ_of_lt hi)
    obtain ⟨b₂, hn, hP'⟩ := hstep n b₁ (Nat.lt_succ_self n) hP
    refine ⟨b₂, ?_, hP'⟩
    rw [List.range_succ, List.foldlM_append, hfold]
    simpa using hn

end Lib
