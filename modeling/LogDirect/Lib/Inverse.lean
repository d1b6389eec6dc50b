import Mathlib.Logic.Function.Basic
import Mathlib.Data.Option.Basic

/-!
# Partial maps that are inverse to each other

A set of pairs, kept as two maps from either end of a pair to the other one. The lemmas say
that the two stay inverse to each other when a pair is added (`Inverse.add`), when one is
removed (`Inverse.remove`), and when one end of a removed pair is given to the partner of
another one (`Inverse.replace`).
-/

namespace Lib

variable {α β : Type} {f : α → Option β} {g : β → Option α} {a a' : α} {b b' : β}

theorem isSome_update_some [DecidableEq α] (f : α → Option β) (a : α) (b : β) (x : α) :
    (Function.update f a (some b) x).isSome ↔ x = a ∨ (f x).isSome := by
  by_cases hx : x = a
  · simp [hx]
  · simp [hx]

theorem isSome_update_none [DecidableEq α] (f : α → Option β) (a : α) (x : α) :
    (Function.update f a none x).isSome ↔ x ≠ a ∧ (f x).isSome := by
  by_cases hx : x = a
  · simp [hx]
  · simp [hx]

/-- A partner that is exchanged changes nothing in where the map is defined. -/
theorem isSome_update_update [DecidableEq α] (h : (f a').isSome) (b : β) (x : α) :
    (Function.update (Function.update f a' (some b)) a none x).isSome ↔ x ≠ a ∧ (f x).isSome := by
  rw [isSome_update_none, isSome_update_some]
  refine and_congr_right fun _ => or_iff_right_of_imp ?_
  rintro rfl
  exact h

/-- Each map leads back from where the other one leads. -/
def Inverse (f : α → Option β) (g : β → Option α) : Prop := ∀ a b, f a = some b ↔ g b = some a

namespace Inverse

theorem empty : Inverse (fun _ : α => (none : Option β)) fun _ => none := by
  intro a b
  simp

/-- The maps are injective. -/
theorem eq_of_eq (h : Inverse f g) (ha : f a = some b) (ha' : f a' = some b) : a = a' :=
  Option.some.inj (((h a b).mp ha).symm.trans ((h a' b).mp ha'))

variable [DecidableEq α] [DecidableEq β]

/-- A pair whose ends are both free is added. -/
theorem add (h : Inverse f g) (ha : f a = none) (hb : g b = none) :
    Inverse (Function.update f a (some b)) (Function.update g b (some a)) := by
  intro x y
  by_cases hx : x = a
  · subst hx
    rw [Function.update_self]
    by_cases hy : y = b
    · subst hy
      rw [Function.update_self]
      exact iff_of_true rfl rfl
    · rw [Function.update_of_ne hy, ← h x y, ha]
      exact iff_of_false (fun h => hy (Option.some.inj h).symm) (by simp)
  · rw [Function.update_of_ne hx]
    by_cases hy : y = b
    · subst hy
      rw [Function.update_self, h x y, hb]
      exact iff_of_false (by simp) fun h => hx (Option.some.inj h).symm
    · rw [Function.update_of_ne hy]
      exact h x y

/-- A pair is removed. -/
theorem remove (h : Inverse f g) (hab : f a = some b) :
    Inverse (Function.update f a none) (Function.update g b none) := by
  intro x y
  by_cases hx : x = a
  · subst hx
    rw [Function.update_self]
    by_cases hy : y = b
    · subst hy
      rw [Function.update_self]
      simp
    · rw [Function.update_of_ne hy, ← h x y, hab]
      exact iff_of_false (by simp) fun h => hy (Option.some.inj h).symm
  · rw [Function.update_of_ne hx]
    by_cases hy : y = b
    · subst hy
      rw [Function.update_self]
      exact iff_of_false (fun hxb => hx (h.eq_of_eq hxb hab)) (by simp)
    · rw [Function.update_of_ne hy]
      exact h x y

/-- A pair is removed, and the partner of another pair takes the end that is free now. -/
theorem replace (h : Inverse f g) (hab : f a = some b) (hab' : f a' = some b') (hne : b ≠ b') :
    Inverse (Function.update (Function.update f a' (some b)) a none)
      (Function.update (Function.update g b (some a')) b' none) := by
  have hne' : a ≠ a' := by
    rintro rfl
    exact hne (Option.some.inj (hab.symm.trans hab'))
  -- both pairs out, and one in
  have hout := (h.remove hab).remove ((Function.update_of_ne hne'.symm ..).trans hab')
  have hin := hout.add (Function.update_self ..)
    ((Function.update_of_ne hne ..).trans (Function.update_self ..))
  have hf : Function.update (Function.update (Function.update f a none) a' none) a' (some b) =
      Function.update (Function.update f a' (some b)) a none := by
    rw [Function.update_idem, Function.update_comm hne']
  have hg : Function.update (Function.update (Function.update g b none) b' none) b (some a') =
      Function.update (Function.update g b (some a')) b' none := by
    rw [Function.update_comm hne.symm, Function.update_idem]
  rwa [hf, hg] at hin

end Inverse

end Lib
