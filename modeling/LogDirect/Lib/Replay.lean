import Mathlib.Logic.Function.Basic
import Mathlib.Data.List.Basic

/-!
# Finite maps under a log of assignments

A map is a function to `Option`; a log is a list of assignments, `none` erasing
the key. `replay` applies a log in order. The one fact everything rests on is
`replay_apply`: the value of a key is the last assignment the log makes to it,
and the old value if it makes none.
-/

namespace Lib

variable {κ ν : Type} [DecidableEq κ]

/-- Apply a list of assignments in order. -/
def replay (m : κ → Option ν) (l : List (κ × Option ν)) : κ → Option ν :=
  l.foldl (fun m p => Function.update m p.1 p.2) m

/-- The last value a list of pairs gives to a key. -/
def lastOf {α : Type} : List (κ × α) → κ → Option α
  | [], _ => none
  | (k', v) :: l, k => (lastOf l k).or (if k' = k then some v else none)

theorem replay_append (m : κ → Option ν) (l l' : List (κ × Option ν)) :
    replay m (l ++ l') = replay (replay m l) l' := by
  simp [replay, List.foldl_append]

theorem replay_snoc (m : κ → Option ν) (l : List (κ × Option ν)) (k : κ) (v : Option ν) :
    replay m (l ++ [(k, v)]) = Function.update (replay m l) k v := by
  rw [replay_append]
  rfl

/-- A key's value is the last one assigned to it. -/
theorem replay_apply (m : κ → Option ν) (l : List (κ × Option ν)) (k : κ) :
    replay m l k = (lastOf l k).getD (m k) := by
  induction l generalizing m with
  | nil => rfl
  | cons p l ih =>
    obtain ⟨k', v⟩ := p
    show replay (Function.update m k' v) l k = _
    rw [ih, lastOf]
    cases hl : lastOf l k with
    | some w => rfl
    | none =>
      by_cases hk : k' = k
      · subst hk
        simp
      · simp [hk, Function.update_of_ne (Ne.symm hk)]

variable {l : List (κ × Option ν)} {k : κ} {α β : Type}

/-- A log leaves a key alone exactly when its last assignment to it, if there is one,
is the old value. -/
theorem replay_eq_self_iff {m : κ → Option ν} :
    replay m l k = m k ↔ ∀ v, lastOf l k = some v → m k = v := by
  rw [replay_apply]
  cases lastOf l k with
  | none => simp
  | some v => simp [eq_comm]

theorem lastOf_append (l l' : List (κ × α)) (k : κ) :
    lastOf (l ++ l') k = (lastOf l' k).or (lastOf l k) := by
  induction l with
  | nil => simp [lastOf]
  | cons p l ih =>
    obtain ⟨k', v⟩ := p
    simp only [List.cons_append, lastOf, ih, Option.or_assoc]

theorem lastOf_snoc (l : List (κ × α)) (k' : κ) (v : α) (k : κ) :
    lastOf (l ++ [(k', v)]) k = if k' = k then some v else lastOf l k := by
  rw [lastOf_append]
  by_cases hk : k' = k <;> simp [lastOf, hk]

/-- A key has a last value exactly when it occurs. -/
theorem lastOf_isSome (l : List (κ × α)) (k : κ) : (lastOf l k).isSome ↔ k ∈ l.map Prod.fst := by
  induction l with
  | nil => simp [lastOf]
  | cons p l ih =>
    obtain ⟨k', v⟩ := p
    simp only [lastOf, Option.isSome_or, Bool.or_eq_true, ih, List.map_cons, List.mem_cons]
    by_cases hk : k' = k
    · simp [hk]
    · simp [hk, Ne.symm hk]

theorem lastOf_eq_none {l : List (κ × α)} : lastOf l k = none ↔ k ∉ l.map Prod.fst := by
  rw [← lastOf_isSome, Option.not_isSome_iff_eq_none]

/-- The last value of a key is the value of one of its occurrences. -/
theorem mem_of_lastOf {l : List (κ × α)} {v : α} (h : lastOf l k = some v) : (k, v) ∈ l := by
  induction l with
  | nil => simp [lastOf] at h
  | cons p l ih =>
    obtain ⟨k', w⟩ := p
    rw [lastOf] at h
    cases hl : lastOf l k with
    | some u =>
      rw [hl] at h
      exact List.mem_cons_of_mem _ (ih (hl.trans h))
    | none =>
      rw [hl] at h
      by_cases hk : k' = k
      · simp only [hk, if_true, Option.none_or, Option.some.injEq] at h
        rw [hk, h]
        exact List.mem_cons_self
      · simp [hk] at h

/-- An assignment to a key the list leaves alone can wait. -/
theorem replay_update {m : κ → Option ν} (v : Option ν) (h : lastOf l k = none) :
    replay (Function.update m k v) l = Function.update (replay m l) k v := by
  funext k'
  rw [replay_apply]
  by_cases hk : k' = k
  · subst hk
    simp [h]
  · rw [Function.update_of_ne hk, Function.update_of_ne hk, replay_apply]

theorem lastOf_map (f : α → β) (l : List (κ × α)) (k : κ) :
    lastOf (l.map fun p => (p.1, f p.2)) k = (lastOf l k).map f := by
  induction l with
  | nil => rfl
  | cons p l ih =>
    obtain ⟨k', v⟩ := p
    simp only [List.map_cons, lastOf, ih]
    cases lastOf l k <;> by_cases hk : k' = k <;> simp [hk]

theorem map_fst_forall₂ {κ : Type} {R : κ × α → κ × β → Prop} (hR : ∀ p q, R p q → p.1 = q.1)
    {l : List (κ × α)} {l' : List (κ × β)} (h : List.Forall₂ R l l') :
    l.map Prod.fst = l'.map Prod.fst := by
  induction h with
  | nil => rfl
  | cons hpq _ ih => rw [List.map_cons, List.map_cons, hR _ _ hpq, ih]

/-- Two lists that agree on the keys have their last values of a key in the same place. -/
theorem lastOf_forall₂ {R : κ × α → κ × β → Prop} (hR : ∀ p q, R p q → p.1 = q.1) {l : List (κ × α)}
    {l' : List (κ × β)} (h : List.Forall₂ R l l') {b : β} (hb : lastOf l' k = some b) :
    ∃ a, lastOf l k = some a ∧ R (k, a) (k, b) := by
  induction h with
  | nil => cases hb
  | @cons p q l l' hpq htail ih =>
    obtain ⟨k₁, a⟩ := p
    obtain ⟨k₂, b'⟩ := q
    obtain rfl : k₁ = k₂ := hR _ _ hpq
    rw [lastOf] at hb ⊢
    cases hl : lastOf l' k with
    | some c =>
      rw [hl] at hb
      obtain ⟨a', ha', hRa⟩ := ih (hl.trans hb)
      exact ⟨a', by rw [ha', Option.some_or], hRa⟩
    | none =>
      rw [hl, Option.none_or] at hb
      split at hb
      · rename_i hk
        cases hb
        subst hk
        have hnone : lastOf l k₁ = none := by
          rwa [lastOf_eq_none, map_fst_forall₂ hR htail, ← lastOf_eq_none]
        exact ⟨a, by simp [hnone], hpq⟩
      · cases hb

/-- The assignments of a log that are not erasures. -/
def stores (l : List (κ × Option ν)) : List (κ × ν) :=
  l.filterMap fun p => p.2.map fun v => (p.1, v)

/-- A key never stored is absent. -/
theorem lastOf_stores_none (h : lastOf (stores l) k = none) : (lastOf l k).getD none = none := by
  induction l with
  | nil => rfl
  | cons p l ih =>
    obtain ⟨k', v⟩ := p
    cases v with
    | none =>
      have ih := ih h
      rw [lastOf]
      cases hl : lastOf l k with
      | none => by_cases hk : k' = k <;> simp [hk]
      | some w => simpa [hl] using ih
    | some v =>
      have hcons : stores ((k', some v) :: l) = (k', v) :: stores l := rfl
      rw [hcons, lastOf, Option.or_eq_none_iff] at h
      have hk : k' ≠ k := by
        rintro rfl
        simp at h
      rw [lastOf, if_neg hk, Option.or_none]
      exact ih h.1

/-- A key that was stored has the last value stored, or has been erased since. -/
theorem lastOf_stores_some {v : ν} (h : lastOf (stores l) k = some v) :
    lastOf l k = some none ∨ lastOf l k = some (some v) := by
  induction l with
  | nil => cases h
  | cons p l ih =>
    obtain ⟨k', w⟩ := p
    rw [lastOf]
    cases w with
    | none =>
      rcases ih h with ih | ih <;> simp [ih]
    | some w =>
      have hcons : stores ((k', some w) :: l) = (k', w) :: stores l := rfl
      rw [hcons, lastOf] at h
      cases hs : lastOf (stores l) k with
      | some u =>
        rw [hs] at h
        rcases ih (hs.trans h) with ih | ih <;> simp [ih]
      | none =>
        rw [hs, Option.none_or] at h
        have hnone := lastOf_stores_none hs
        split at h
        · rename_i hk
          cases h
          cases hl : lastOf l k with
          | none => simp [hk]
          | some u =>
            rw [hl] at hnone
            simp only [Option.getD_some] at hnone
            simp [hnone]
        · cases h

/-- Erase every key of a list. -/
def eraseAll {α : Type} (m : κ → Option α) (ks : List κ) : κ → Option α :=
  ks.foldl (fun m k => Function.update m k none) m

theorem eraseAll_apply (m : κ → Option α) (ks : List κ) (k : κ) :
    eraseAll m ks k = if k ∈ ks then none else m k := by
  induction ks generalizing m with
  | nil => simp [eraseAll]
  | cons k' ks ih =>
    show eraseAll (Function.update m k' none) ks k = _
    rw [ih]
    by_cases hmem : k ∈ ks
    · simp [hmem]
    · by_cases hk : k = k'
      · subst hk
        simp
      · simp [hmem, hk]

end Lib
