import Mathlib.Data.List.Basic

/-!
# Transition systems with computed steps

A system is an initial-state predicate and a partial step function: the label
of a step resolves all nondeterminism, so a schedule is a list of labels. A
`Run` records every state it visits together with the label taken there, which
is what statements of the form "in every run whose steps all meet `ok`, every
state reached satisfies `P`" quantify over.

Three proof rules are used by the machines:

* `Run.invariant` — an invariant of the steps that meet `ok`;
* `Run.visited` — what holds at the end of every run holds at every state a
  run visits;
* `Run.all_iff` — the exact form: where a step out of a good state ends in a
  good state iff it meets `C`, a run is good throughout iff all its steps meet
  `C` (`Run.all_steps_iff` adds a property of the steps themselves).
-/

namespace Lib

/-- A transition system whose steps are computed from a label. -/
structure TSys (σ ℓ : Type) where
  init : σ → Prop
  step : σ → ℓ → Option σ

namespace TSys

variable {σ ℓ : Type} {T : TSys σ ℓ}

/-- `T.Run s₀ tr s`: from `s₀` the steps of `tr` lead to `s`. Each entry of
`tr` is a visited state and the label of the step taken out of it. -/
inductive Run (T : TSys σ ℓ) (s₀ : σ) : List (σ × ℓ) → σ → Prop
  | nil : Run T s₀ [] s₀
  | snoc {tr s l s'} : Run T s₀ tr s → T.step s l = some s' →
      Run T s₀ (tr ++ [(s, l)]) s'

/-- A state some run from an initial state ends in. -/
def Reachable (T : TSys σ ℓ) (s : σ) : Prop :=
  ∃ s₀ tr, T.init s₀ ∧ T.Run s₀ tr s

/-- Every step of the run meets `ok`. -/
def Meets (ok : σ → ℓ → Prop) (tr : List (σ × ℓ)) : Prop :=
  ∀ p ∈ tr, ok p.1 p.2

/-- `P` holds in every state of the run, the last one included. -/
def Throughout (P : σ → Prop) (tr : List (σ × ℓ)) (s : σ) : Prop :=
  P s ∧ ∀ p ∈ tr, P p.1

variable {ok : σ → ℓ → Prop} {tr : List (σ × ℓ)} {s s₀ : σ} {P : σ → Prop}

theorem Meets.nil : Meets ok [] := by
  intro p hp
  simp at hp

theorem meets_snoc {l : ℓ} : Meets ok (tr ++ [(s, l)]) ↔ Meets ok tr ∧ ok s l := by
  constructor
  · intro h
    exact ⟨fun p hp => h p (by simp [hp]), h (s, l) (by simp)⟩
  · rintro ⟨h, hl⟩ p hp
    rcases List.mem_append.mp hp with hp | hp
    · exact h p hp
    · rw [List.mem_singleton.mp hp]
      exact hl

theorem meets_append {tr' : List (σ × ℓ)} : Meets ok (tr ++ tr') ↔ Meets ok tr ∧ Meets ok tr' := by
  constructor
  · intro h
    exact ⟨fun p hp => h p (by simp [hp]), fun p hp => h p (by simp [hp])⟩
  · rintro ⟨h, h'⟩ p hp
    rcases List.mem_append.mp hp with hp | hp
    · exact h p hp
    · exact h' p hp

theorem Meets.mono {ok' : σ → ℓ → Prop} (h : Meets ok tr) (himp : ∀ s l, ok s l → ok' s l) :
    Meets ok' tr :=
  fun p hp => himp p.1 p.2 (h p hp)

/-- Runs compose. -/
theorem Run.trans {s₁ s₂ : σ} {tr' : List (σ × ℓ)} (h : T.Run s₀ tr s₁) (h' : T.Run s₁ tr' s₂) :
    T.Run s₀ (tr ++ tr') s₂ := by
  induction h' with
  | nil => simpa using h
  | snoc _ hstep ih =>
    rw [← List.append_assoc]
    exact .snoc ih hstep

/-- The run that a schedule makes. -/
def trace (T : TSys σ ℓ) : σ → List ℓ → Option (List (σ × ℓ) × σ)
  | s, [] => some ([], s)
  | s, l :: ls =>
      match T.step s l with
      | none => none
      | some s' => (T.trace s' ls).map fun p => ((s, l) :: p.1, p.2)

theorem run_of_trace {s' : σ} {ls : List ℓ} (h : T.trace s ls = some (tr, s')) : T.Run s tr s' := by
  induction ls generalizing s tr with
  | nil =>
    cases h
    exact .nil
  | cons l ls ih =>
    unfold trace at h
    split at h
    · cases h
    · rename_i s₁ hstep
      obtain ⟨⟨tr', s''⟩, hrest, heq⟩ := Option.map_eq_some_iff.mp h
      cases heq
      have hone : T.Run s [(s, l)] s₁ := Run.nil.snoc hstep
      exact hone.trans (ih hrest)

/-- An invariant of the steps that meet `ok` holds at the end of every run
whose steps meet `ok`. -/
theorem Run.invariant {Inv : σ → Prop} (hrun : T.Run s₀ tr s) (h₀ : Inv s₀)
    (hstep : ∀ s l s', Inv s → ok s l → T.step s l = some s' → Inv s') (hok : Meets ok tr) :
    Inv s := by
  induction hrun with
  | nil => exact h₀
  | snoc _ hs ih =>
    rw [meets_snoc] at hok
    exact hstep _ _ _ (ih hok.1) hok.2 hs

/-- An invariant of all steps holds in every reachable state. -/
theorem Reachable.invariant (h : T.Reachable s) (Inv : σ → Prop) (h₀ : ∀ s, T.init s → Inv s)
    (hstep : ∀ s l s', Inv s → T.step s l = some s' → Inv s') : Inv s := by
  obtain ⟨s₀, tr, hinit, hrun⟩ := h
  induction hrun with
  | nil => exact h₀ s₀ hinit
  | snoc _ hs ih => exact hstep _ _ _ ih hs

/-- A visited state is the end of a run over a part of the trace. -/
theorem Run.visited (hrun : T.Run s₀ tr s) : ∀ p ∈ tr, ∃ tr', T.Run s₀ tr' p.1 ∧ tr' <+: tr := by
  induction hrun with
  | nil => simp
  | @snoc tr s l s' h hs ih =>
    intro p hp
    rcases List.mem_append.mp hp with hp | hp
    · obtain ⟨tr', hr, hpre⟩ := ih p hp
      exact ⟨tr', hr, hpre.trans (List.prefix_append _ _)⟩
    · rw [List.mem_singleton.mp hp]
      exact ⟨tr, h, List.prefix_append _ _⟩

/-- A run takes no step, or its first one out of where it begins. -/
theorem Run.first (hrun : T.Run s₀ tr s) : s = s₀ ∨ ∃ l, (s₀, l) ∈ tr := by
  induction hrun with
  | nil => exact .inl rfl
  | @snoc tr s l s' _ _ ih =>
    right
    rcases ih with rfl | ⟨l', hmem⟩
    · exact ⟨l, List.mem_append_right _ List.mem_cons_self⟩
    · exact ⟨l', List.mem_append_left _ hmem⟩

/-- Every step of a run is taken. -/
theorem Run.enabled (hrun : T.Run s₀ tr s) : ∀ p ∈ tr, ∃ s', T.step p.1 p.2 = some s' := by
  induction hrun with
  | nil => simp
  | @snoc tr s l s' h hs ih =>
    intro p hp
    rcases List.mem_append.mp hp with hp | hp
    · exact ih p hp
    · rw [List.mem_singleton.mp hp]
      exact ⟨s', hs⟩

/-- What holds at the end of every run whose steps meet `ok` holds throughout
such a run. -/
theorem Run.throughout (hrun : T.Run s₀ tr s) (hok : Meets ok tr)
    (hend : ∀ tr s, T.Run s₀ tr s → Meets ok tr → P s) : Throughout P tr s := by
  refine ⟨hend tr s hrun hok, fun p hp => ?_⟩
  obtain ⟨tr', hr, hpre⟩ := hrun.visited p hp
  exact hend tr' p.1 hr fun q hq => hok q (hpre.subset hq)

/-- If runs are bounded and every run that has not reached `P` goes on, every run
can be continued to `P`. -/
theorem Run.completes {bound : Nat} (hbound : ∀ tr s, T.Run s₀ tr s → tr.length ≤ bound)
    (hgo : ∀ tr s, T.Run s₀ tr s → P s ∨ ∃ l s', T.step s l = some s') :
    ∀ {tr : List (σ × ℓ)} {s : σ}, T.Run s₀ tr s → ∃ tr' s', T.Run s₀ tr' s' ∧ P s' ∧
      tr <+: tr' := by
  intro tr s hrun
  -- on the steps that are left
  induction hn : bound - tr.length generalizing tr s with
  | zero =>
    rcases hgo tr s hrun with hP | ⟨l, s', hstep⟩
    · exact ⟨tr, s, hrun, hP, List.prefix_refl _⟩
    · have hlen := hbound _ _ (hrun.snoc hstep)
      rw [List.length_append, List.length_singleton] at hlen
      omega
  | succ n ih =>
    rcases hgo tr s hrun with hP | ⟨l, s', hstep⟩
    · exact ⟨tr, s, hrun, hP, List.prefix_refl _⟩
    · have hleft : bound - (tr ++ [(s, l)]).length = n := by
        rw [List.length_append, List.length_singleton]
        omega
      obtain ⟨tr', s'', hrun', hP, hpre⟩ := ih (hrun.snoc hstep) hleft
      exact ⟨tr', s'', hrun', hP, (List.prefix_append _ _).trans hpre⟩

/-- If the steps that meet `ok` keep `Inv` and make `μ` smaller, and one of them is possible
wherever `P` does not hold yet, then `P` can be reached by such steps. -/
theorem reaches {Inv : σ → Prop} (μ : σ → Nat)
    (hstep : ∀ s l s', Inv s → ok s l → T.step s l = some s' → Inv s' ∧ μ s' < μ s)
    (hgo : ∀ s, Inv s → ¬ P s → ∃ l s', ok s l ∧ T.step s l = some s') (hs : Inv s) :
    ∃ tr s', T.Run s tr s' ∧ Meets ok tr ∧ Inv s' ∧ P s' := by
  induction hn : μ s using Nat.strongRecOn generalizing s with
  | ind n ih =>
    by_cases hP : P s
    · exact ⟨[], s, .nil, .nil, hs, hP⟩
    · obtain ⟨l, s₁, hok, hl⟩ := hgo s hs hP
      obtain ⟨hs₁, hμ⟩ := hstep s l s₁ hs hok hl
      obtain ⟨tr, s', hrun, hmeets, hs', hP'⟩ := ih (μ s₁) (hn ▸ hμ) hs₁ rfl
      have hone : T.Run s [(s, l)] s₁ := Run.nil.snoc hl
      refine ⟨[(s, l)] ++ tr, s', hone.trans hrun, ?_, hs', hP'⟩
      rw [meets_append]
      refine ⟨?_, hmeets⟩
      intro p hp
      rw [List.mem_singleton.mp hp]
      exact hok

/-- If each item that is `ok` can be observed next, in a run that keeps `Inv` of the items
observed so far, then every list of such items can be observed. -/
theorem each {α : Type} {obs : ℓ → List α} {ok : α → Prop} {Inv : List α → σ → Prop}
    (hnext : ∀ xs x s, ok x → Inv xs s → ∃ tr s', T.Run s tr s' ∧
      (tr.flatMap fun p => obs p.2) = [x] ∧ Inv (xs ++ [x]) s')
    (ys : List α) : ∀ {xs s}, (∀ y ∈ ys, ok y) → Inv xs s → ∃ tr s', T.Run s tr s' ∧
      (tr.flatMap fun p => obs p.2) = ys ∧ Inv (xs ++ ys) s' := by
  induction ys with
  | nil =>
    intro xs s _ h
    exact ⟨[], s, .nil, rfl, by rwa [List.append_nil]⟩
  | cons y ys ih =>
    intro xs s hok h
    obtain ⟨tr, s₁, hrun, hobs, h₁⟩ := hnext xs y s (hok y List.mem_cons_self) h
    obtain ⟨tr', s', hrun', hobs', h'⟩ := ih (fun x hx => hok x (List.mem_cons_of_mem y hx)) h₁
    refine ⟨tr ++ tr', s', hrun.trans hrun', ?_, ?_⟩
    · rw [List.flatMap_append, hobs, hobs']
      rfl
    · rwa [List.append_assoc] at h'

/-- The exact rule. `B` is a background invariant of the steps that meet `ok`;
if out of a state with `P` a step keeps `P` and meets `Q` exactly when it meets
`C`, then `P` holds throughout a run whose steps all meet `Q` exactly when every
step of the run meets `C`. -/
theorem Run.all_steps_iff {C Q : σ → ℓ → Prop} {B : σ → Prop} (hrun : T.Run s₀ tr s)
    (ok : σ → ℓ → Prop) (hB₀ : B s₀) (hP₀ : P s₀)
    (hB : ∀ s l s', B s → ok s l → T.step s l = some s' → B s')
    (hex : ∀ s l s', B s → P s → ok s l → T.step s l = some s' → (P s' ∧ Q s l ↔ C s l))
    (hok : Meets ok tr) : Throughout P tr s ∧ Meets Q tr ↔ Meets C tr := by
  induction hrun with
  | nil => exact ⟨fun _ => .nil, fun _ => ⟨⟨hP₀, by simp⟩, .nil⟩⟩
  | @snoc tr s l s' hr hs ih =>
    rw [meets_snoc] at hok
    rw [meets_snoc, meets_snoc]
    have hBs : B s := hr.invariant hB₀ hB hok.1
    have ih := ih hok.1
    constructor
    · rintro ⟨⟨hP', hall⟩, hQ, hQl⟩
      have hPs : P s := hall (s, l) (by simp)
      refine ⟨ih.mp ⟨⟨hPs, fun p hp => hall p (by simp [hp])⟩, hQ⟩, ?_⟩
      exact (hex s l s' hBs hPs hok.2 hs).mp ⟨hP', hQl⟩
    · rintro ⟨hC, hCl⟩
      obtain ⟨⟨hPs, hall⟩, hQ⟩ := ih.mpr hC
      obtain ⟨hP', hQl⟩ := (hex s l s' hBs hPs hok.2 hs).mpr hCl
      refine ⟨⟨hP', fun p hp => ?_⟩, hQ, hQl⟩
      rcases List.mem_append.mp hp with hp | hp
      · exact hall p hp
      · rw [List.mem_singleton.mp hp]
        exact hPs

/-- The exact rule for a property of states only. -/
theorem Run.all_iff {C : σ → ℓ → Prop} {B : σ → Prop} (hrun : T.Run s₀ tr s) (ok : σ → ℓ → Prop)
    (hB₀ : B s₀) (hP₀ : P s₀) (hB : ∀ s l s', B s → ok s l → T.step s l = some s' → B s')
    (hex : ∀ s l s', B s → P s → ok s l → T.step s l = some s' → (P s' ↔ C s l))
    (hok : Meets ok tr) : Throughout P tr s ↔ Meets C tr := by
  have hQ : Meets (fun (_ : σ) (_ : ℓ) => True) tr := fun _ _ => trivial
  have hall := hrun.all_steps_iff ok hB₀ hP₀ hB
    (fun s l s' hBs hPs hl hs => (and_iff_left trivial).trans (hex s l s' hBs hPs hl hs)) hok
  exact (and_iff_left hQ).symm.trans hall

end TSys

end Lib
