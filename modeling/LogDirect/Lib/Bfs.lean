import Mathlib.Data.List.Basic
import Mathlib.Data.List.Induction

/-!
# Breadth-first search

A graph is given by its steps: from a node a label leads to another node, or nowhere. A
search takes nodes out of a queue, each with its distance from a start, and puts their
neighbours in, up to a distance `limit`. `Covers` is what such a search knows of the graph
around the nodes it is done with, whatever happens to the rest of the graph meanwhile
(`Covers.change`): all nodes that are nearer than the head of the queue are done
(`Covers.within`). So the first goal that is found has been reached on a way that goes
through no node twice (`distinct`).
-/

namespace Lib.Bfs

variable {N L : Type} {step step' : N → L → Option N}

/-- Where a list of labels leads. -/
def follow (step : N → L → Option N) (a : N) (ls : List L) : Option N := ls.foldlM step a

theorem follow_nil (a : N) : follow step a [] = some a := rfl

theorem follow_cons (a : N) (l : L) (ls : List L) :
    follow step a (l :: ls) = (step a l).bind fun b => follow step b ls := rfl

theorem follow_append (a : N) (ls ls' : List L) :
    follow step a (ls ++ ls') = (follow step a ls).bind fun b => follow step b ls' :=
  List.foldlM_append

theorem follow_snoc (a : N) (ls : List L) (l : L) :
    follow step a (ls ++ [l]) = (follow step a ls).bind fun b => step b l := by
  rw [follow_append]
  refine congrArg _ (funext fun b => ?_)
  rw [follow_cons]
  exact Option.bind_fun_some (step b l)

/-- A graph with more steps. -/
theorem follow_mono (h : ∀ b l b', step b l = some b' → step' b l = some b') {a b : N} {ls : List L}
    (hfollow : follow step a ls = some b) : follow step' a ls = some b := by
  induction ls generalizing a with
  | nil => exact hfollow
  | cons l ls ih =>
    rw [follow_cons] at hfollow ⊢
    obtain ⟨c, hstep, hrest⟩ := Option.bind_eq_some_iff.mp hfollow
    rw [h a l c hstep]
    exact ih hrest

/-- `done d b`: the node `b` has been taken out at distance `d`, and its neighbours have
been put in. -/
structure Covers (step : N → L → Option N) (start : N → Prop) (limit : Nat) (done : Nat → N → Prop)
    (q : List (Nat × N)) : Prop where
  begun : ∀ a, start a → done 0 a ∨ (0, a) ∈ q
  next : ∀ d b, done d b → d < limit → ∀ l b', step b l = some b' →
    done (d + 1) b' ∨ (d + 1, b') ∈ q
  sorted : q.Pairwise fun x y => x.1 ≤ y.1
  near : ∀ x ∈ q, ∀ y ∈ q, y.1 ≤ x.1 + 1
  behind : ∀ d b, done d b → ∀ x ∈ q, d ≤ x.1

variable {start : N → Prop} {limit : Nat} {done : Nat → N → Prop} {q : List (Nat × N)}

/-- The queue at the start. -/
theorem covers_start (hstart : ∀ a, start a → (0, a) ∈ q) (hzero : ∀ x ∈ q, x.1 = 0) :
    Covers step start limit (fun _ _ => False) q where
  begun a ha := .inr (hstart a ha)
  next d b hd := hd.elim
  sorted := List.pairwise_of_forall_mem_list fun x hx y hy =>
    Nat.le_of_eq ((hzero x hx).trans (hzero y hy).symm)
  near x hx y hy := by rw [hzero x hx, hzero y hy]; exact Nat.zero_le _
  behind d b hd := hd.elim

/-- The graph may change where the search has not been. -/
theorem Covers.change (h : Covers step start limit done q)
    (hsame : ∀ d b, done d b → ∀ l, step' b l = step b l) : Covers step' start limit done q where
  begun := h.begun
  next d b hd hlt l b' hstep := h.next d b hd hlt l b' (by rw [← hsame d b hd]; exact hstep)
  sorted := h.sorted
  near := h.near
  behind := h.behind

/-- The head of the queue is done with: its neighbours have been put in. -/
theorem Covers.scan {d : Nat} {b : N} {rest ys : List (Nat × N)}
    (h : Covers step start limit done ((d, b) :: rest)) (hys : ∀ y ∈ ys, y.1 = d + 1)
    (hall : d < limit → ∀ l b', step b l = some b' → (d + 1, b') ∈ ys) :
    Covers step start limit (fun d' b' => done d' b' ∨ (d' = d ∧ b' = b)) (rest ++ ys) := by
  obtain ⟨hhead, hsorted⟩ := List.pairwise_cons.mp h.sorted
  have hnear : ∀ y ∈ rest, y.1 ≤ d + 1 :=
    fun y hy => h.near (d, b) List.mem_cons_self y (List.mem_cons_of_mem _ hy)
  -- what was in the queue is done, or still there
  have hkeep : ∀ d' b', (d', b') ∈ (d, b) :: rest →
      (done d' b' ∨ (d' = d ∧ b' = b)) ∨ (d', b') ∈ rest ++ ys := by
    intro d' b' hmem
    rcases List.mem_cons.mp hmem with heq | hmem
    · exact .inl (.inr (Prod.mk.inj heq))
    · exact .inr (List.mem_append_left _ hmem)
  refine ⟨?_, ?_, ?_, ?_, ?_⟩
  · intro a ha
    rcases h.begun a ha with hdone | hmem
    · exact .inl (.inl hdone)
    · exact hkeep 0 a hmem
  · rintro d' b' (hdone | ⟨rfl, rfl⟩) hlt l c hstep
    · rcases h.next d' b' hdone hlt l c hstep with hdone | hmem
      · exact .inl (.inl hdone)
      · exact hkeep (d' + 1) c hmem
    · exact .inr (List.mem_append_right _ (hall hlt l c hstep))
  · refine List.pairwise_append.mpr ⟨hsorted, ?_, ?_⟩
    · exact List.pairwise_of_forall_mem_list fun x hx y hy =>
        Nat.le_of_eq ((hys x hx).trans (hys y hy).symm)
    · intro x hx y hy
      rw [hys y hy]
      exact hnear x hx
  · intro x hx y hy
    have hx' : d ≤ x.1 := by
      rcases List.mem_append.mp hx with hx | hx
      · exact hhead x hx
      · rw [hys x hx]
        exact Nat.le_succ d
    have hy' : y.1 ≤ d + 1 := by
      rcases List.mem_append.mp hy with hy | hy
      · exact hnear y hy
      · exact Nat.le_of_eq (hys y hy)
    omega
  · rintro d' b' hdone x hx
    have hd' : d' ≤ d := by
      rcases hdone with hdone | ⟨rfl, -⟩
      · exact h.behind d' b' hdone (d, b) List.mem_cons_self
      · exact Nat.le_refl _
    rcases List.mem_append.mp hx with hx | hx
    · exact Nat.le_trans hd' (hhead x hx)
    · rw [hys x hx]
      exact Nat.le_succ_of_le hd'

/-- Nodes that are nearer than the head of the queue are done. -/
theorem Covers.within {d : Nat} {b : N} {rest : List (Nat × N)}
    (h : Covers step start limit done ((d, b) :: rest)) (hd : d ≤ limit) {a : N} (ha : start a)
    {ls : List L} : ∀ {c : N}, follow step a ls = some c → ls.length < d → done ls.length c := by
  obtain ⟨hhead, -⟩ := List.pairwise_cons.mp h.sorted
  -- nothing in the queue is nearer
  have hout : ∀ d' c, d' < d → (d', c) ∉ (d, b) :: rest := by
    intro d' c hlt hmem
    rcases List.mem_cons.mp hmem with heq | hmem
    · exact absurd (Prod.mk.inj heq).1 (Nat.ne_of_lt hlt)
    · exact absurd (hhead _ hmem) (Nat.not_le_of_lt hlt)
  induction ls using List.reverseRecOn with
  | nil =>
    intro c hc hlt
    cases hc
    exact (h.begun a ha).resolve_right (hout 0 a hlt)
  | append_singleton ls l ih =>
    intro c hc hlt
    rw [List.length_append, List.length_singleton] at hlt ⊢
    rw [follow_snoc] at hc
    obtain ⟨c', hc', hstep⟩ := Option.bind_eq_some_iff.mp hc
    have hdone := ih hc' (Nat.lt_of_succ_lt hlt)
    exact (h.next _ c' hdone (by omega) l c hstep).resolve_right (hout _ c hlt)

/-- A shortest way to a goal goes through no node twice. -/
theorem distinct (goal : N → Prop) {a b : N} {ls : List L} (ha : start a)
    (hfollow : follow step a ls = some b) (hgoal : goal b)
    (hmin : ∀ a', start a' → ∀ ls' c, ls'.length < ls.length → follow step a' ls' = some c →
      ¬ goal c)
    {i j : Nat} (hij : i < j) (hj : j ≤ ls.length) :
    follow step a (ls.take i) ≠ follow step a (ls.take j) := by
  intro heq
  -- without what is between the two visits the way is shorter
  have hcut : follow step a (ls.take i ++ ls.drop j) = some b := by
    rw [follow_append, heq, ← follow_append, List.take_append_drop]
    exact hfollow
  refine hmin a ha _ b ?_ hcut hgoal
  rw [List.length_append, List.length_take, List.length_drop]
  omega

end Lib.Bfs
