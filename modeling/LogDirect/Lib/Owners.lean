import Mathlib.Data.Set.Finite.Basic
import Mathlib.Data.Set.Finite.Lemmas
import Mathlib.Logic.Function.Basic
import Mathlib.Order.Lattice

/-!
# Owners

Resources have at most one owner each, and every process knows which ones it holds.
`Owned` says that the two sides agree; it is kept when a process takes a resource that
has no owner, when it gives one up, and when it is given some that are new.

If the processes take their resources in the order of a rank, then not all of them can be
waiting for each other (`exists_free`): one that holds the resource of the highest rank
waits for one that has no owner.
-/

namespace Lib.Owners

variable {R τ : Type} {owner owner' : R → Option τ} {holds holds' : τ → R → Prop}

/-- The owner of a resource is the process that holds it. -/
def Owned (owner : R → Option τ) (holds : τ → R → Prop) : Prop :=
  ∀ x t, owner x = some t ↔ holds t x

theorem Owned.unique (h : Owned owner holds) {x : R} {s t : τ} (hs : holds s x) (ht : holds t x) :
    s = t :=
  Option.some.inj (((h x s).mpr hs).symm.trans ((h x t).mpr ht))

/-- Some processes keep what they hold. -/
theorem Owned.same (h : Owned owner holds) (hsame : ∀ t x, holds' t x ↔ holds t x) :
    Owned owner holds' :=
  fun x t => (h x t).trans (hsame t x).symm

/-- A process takes what had no owner. -/
theorem Owned.take (h : Owned owner holds) {t : τ} (new : R → Prop)
    (hfree : ∀ x, new x → owner x = none) (hnew : ∀ x, new x → owner' x = some t)
    (hold : ∀ x, ¬ new x → owner' x = owner x)
    (hothers : ∀ s x, s ≠ t → (holds' s x ↔ holds s x))
    (hself : ∀ x, holds' t x ↔ holds t x ∨ new x) : Owned owner' holds' := by
  intro x s
  by_cases hx : new x
  · -- nobody else had it
    rw [hnew x hx, Option.some_inj]
    constructor
    · rintro rfl
      exact (hself x).mpr (.inr hx)
    · intro hs
      by_contra hne
      have hown := (h x s).mpr ((hothers s x (Ne.symm hne)).mp hs)
      rw [hfree x hx] at hown
      cases hown
  · rw [hold x hx, h x s]
    by_cases hs : s = t
    · subst hs
      rw [hself x]
      exact (or_iff_left hx).symm
    · exact (hothers s x hs).symm

/-- A process gives up what it held. -/
theorem Owned.release [DecidableEq R] (h : Owned owner holds) {t : τ} {y : R} (hy : holds t y)
    (hothers : ∀ s x, s ≠ t → (holds' s x ↔ holds s x))
    (hself : ∀ x, holds' t x ↔ holds t x ∧ x ≠ y) :
    Owned (Function.update owner y none) holds' := by
  intro x s
  by_cases hx : x = y
  · subst hx
    rw [Function.update_self]
    refine ⟨(fun hnone => by cases hnone), fun hs => ?_⟩
    by_cases hst : s = t
    · subst hst
      exact absurd rfl ((hself x).mp hs).2
    · exact absurd (h.unique ((hothers s x hst).mp hs) hy) hst
  · rw [Function.update_of_ne hx, h x s]
    by_cases hst : s = t
    · subst hst
      rw [hself x]
      exact (and_iff_left hx).symm
    · exact (hothers s x hst).symm

/-- If everybody waits for something of a higher rank than all it holds, then a given
process, or one that holds something, does not have to wait. -/
theorem exists_free {ρ : Type} [LinearOrder ρ] (rank : R → ρ) (wants : τ → R → Prop)
    (h : Owned owner holds) (hfinite : {x | ∃ t, holds t x}.Finite)
    (habove : ∀ t x, wants t x → ∀ y, holds t y → rank y < rank x) (t : τ) :
    ∃ s, (s = t ∨ ∃ x, holds s x) ∧ ∀ x, wants s x → owner x = none := by
  by_cases hempty : {x | ∃ t, holds t x}.Nonempty
  · -- the process that holds what has the highest rank
    obtain ⟨y, ⟨s, hy⟩, hmax⟩ := Set.exists_max_image _ rank hfinite hempty
    refine ⟨s, .inr ⟨y, hy⟩, fun x hx => ?_⟩
    cases hown : owner x with
    | none => rfl
    | some s' =>
      have hle := hmax x ⟨s', (h x s').mp hown⟩
      exact absurd (habove s x hx y hy) (not_lt_of_ge hle)
  · refine ⟨t, .inl rfl, fun x _ => ?_⟩
    cases hown : owner x with
    | none => rfl
    | some s => exact absurd ⟨x, s, (h x s).mp hown⟩ hempty

end Lib.Owners
