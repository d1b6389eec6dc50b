import Mathlib.Algebra.GroupWithZero.Nat
import Mathlib.Data.List.Basic

/-!
# A pool of threads

The threads of a system are a list; a step replaces one element. `split_set` cuts
the list at that element, after which facts about the pool are facts about
appended lists.
-/

namespace Lib

variable {α : Type}

variable {l : List α} {i : Nat} {x : α}

/-- The list around an element, before and after the element is replaced. -/
theorem split_set (h : l[i]? = some x) :
    ∃ pre post, l = pre ++ x :: post ∧ pre.length = i ∧ ∀ y, l.set i y = pre ++ y :: post := by
  induction l generalizing i with
  | nil => cases h
  | cons a l ih =>
    cases i with
    | zero =>
      rw [List.getElem?_cons_zero, Option.some.injEq] at h
      subst h
      exact ⟨[], l, rfl, rfl, fun _ => rfl⟩
    | succ i =>
      rw [List.getElem?_cons_succ] at h
      obtain ⟨pre, post, rfl, hlen, hset⟩ := ih h
      refine ⟨a :: pre, post, rfl, by rw [List.length_cons, hlen], ?_⟩
      intro y
      rw [List.set_cons_succ, hset]
      rfl

/-- An element of the new pool is the new one or an old one. -/
theorem mem_of_mem_set {y z : α} (h : z ∈ l.set i y) : z = y ∨ z ∈ l :=
  (List.mem_or_eq_of_mem_set h).symm

/-- An element of the old pool is the replaced one or still there. -/
theorem mem_set_of_mem {y z : α} (hx : l[i]? = some x) (h : z ∈ l) : z = x ∨ z ∈ l.set i y := by
  obtain ⟨pre, post, hl, -, hset⟩ := split_set hx
  rw [hset]
  rw [hl] at h
  simp only [List.mem_append, List.mem_cons] at h ⊢
  tauto

theorem mem_set_self (hx : l[i]? = some x) (y : α) : y ∈ l.set i y := by
  obtain ⟨pre, post, -, -, hset⟩ := split_set hx
  rw [hset]
  simp

/-- A sum over the pool changes by the replaced summand. -/
theorem sum_set (hx : l[i]? = some x) (f : α → Nat) (y : α) :
    ((l.set i y).map f).sum + f x = (l.map f).sum + f y := by
  obtain ⟨pre, post, hl, -, hset⟩ := split_set hx
  rw [hset, hl]
  simp only [List.map_append, List.map_cons, List.sum_append, List.sum_cons]
  omega

/-- So does a count. -/
theorem countP_set_add (hx : l[i]? = some x) (q : α → Bool) (y : α) :
    (l.set i y).countP q + (if q x then 1 else 0) = l.countP q + if q y then 1 else 0 := by
  obtain ⟨pre, post, hl, -, hset⟩ := split_set hx
  rw [hset, hl]
  simp only [List.countP_append, List.countP_cons]
  omega

end Lib
