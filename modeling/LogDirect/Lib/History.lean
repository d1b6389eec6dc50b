import Mathlib.Data.Option.Basic

/-!
# Histories of calls

A machine answers a call and goes on, or faults. `history` makes a list of calls, one
after the other. Two machines are compared through a specification that answers every
call: the first machine always does as the specification, the second one does so
exactly for the calls that meet a condition. Then the two give the same answers to a
list of calls exactly if every call meets the condition in the state it is made in
(`answers_eq_iff`). `history_of_spec` and `simulates_iff` are the rules for one machine and
a relation to the specification that holds, or has to hold, in every state.
-/

namespace Lib

variable {σ τ μ α β : Type}

/-- The answers to a list of calls and the last state; `none` is a fault. -/
def history (exec : σ → α → Option (β × σ)) : List α → σ → Option (List β × σ)
  | [], s => some ([], s)
  | a :: as, s => (exec s a).bind fun x => (history exec as x.2).map fun y => (x.1 :: y.1, y.2)

/-- The same for a specification, which answers every call. -/
def ideal (spec : μ → α → β × μ) : List α → μ → List β × μ
  | [], m => ([], m)
  | a :: as, m => ((spec m a).1 :: (ideal spec as (spec m a).2).1, (ideal spec as (spec m a).2).2)

/-- The answers alone. -/
def answers (exec : σ → α → Option (β × σ)) (as : List α) (s : σ) : Option (List β) :=
  (history exec as s).map Prod.fst

variable {exec : σ → α → Option (β × σ)} {a : α} {as : List α} {s : σ} {R : μ → σ → Prop}
  {next : μ → α → μ} {out : μ → α → β}

/-- The first call of a list and the others. -/
theorem history_cons {s' : σ} {bs : List β} : history exec (a :: as) s = some (bs, s') ↔
      ∃ b s₁ bs₁, exec s a = some (b, s₁) ∧ history exec as s₁ = some (bs₁, s') ∧
        bs = b :: bs₁ := by
  simp only [history, Option.bind_eq_some_iff, Option.map_eq_some_iff, Prod.mk.injEq]
  constructor
  · rintro ⟨⟨b, s₁⟩, hstep, ⟨bs₁, s₂⟩, hrest, rfl, rfl⟩
    exact ⟨b, s₁, bs₁, hstep, hrest, rfl⟩
  · rintro ⟨b, s₁, bs₁, hstep, hrest, rfl⟩
    exact ⟨(b, s₁), hstep, (bs₁, s'), hrest, rfl, rfl⟩

/-- A machine that does as the specification in every call does so in a list of calls. -/
theorem history_of_spec {spec : μ → α → β × μ}
    (hstep : ∀ m s a, R m s → ∃ s', exec s a = some ((spec m a).1, s') ∧ R (spec m a).2 s')
    (as : List α) :
    ∀ {m s}, R m s →
      ∃ s', history exec as s = some ((ideal spec as m).1, s') ∧ R (ideal spec as m).2 s' := by
  induction as with
  | nil =>
    intro m s hR
    exact ⟨s, rfl, hR⟩
  | cons a as ih =>
    intro m s hR
    obtain ⟨s₁, hexec, hR₁⟩ := hstep m s a hR
    obtain ⟨s₂, hrest, hR₂⟩ := ih hR₁
    exact ⟨s₂, history_cons.mpr ⟨_, s₁, _, hexec, hrest, rfl⟩, hR₂⟩

/-- Every call of a list meets the condition in the state the calls before it lead to. -/
def Along (next : μ → α → μ) (C : μ → α → Prop) : μ → List α → Prop
  | _, [] => True
  | m, a :: as => C m a ∧ Along next C (next m a) as

/-- A machine gives the answers of a specification to a list of calls, and stays in relation
to it from the first state to the last. -/
def Simulates (exec : σ → α → Option (β × σ)) (R : μ → σ → Prop) (next : μ → α → μ)
    (out : μ → α → β) : μ → σ → List α → Prop
  | m, s, [] => R m s
  | m, s, a :: as =>
      R m s ∧ ∃ s', exec s a = some (out m a, s') ∧ Simulates exec R next out (next m a) s' as

theorem Simulates.start {m : μ} (h : Simulates exec R next out m s as) : R m s := by
  cases as with
  | nil => exact h
  | cons a as => exact h.1

/-- If a call keeps to the specification exactly when it meets the condition, a list of calls
does exactly when each of them meets the condition in the state it is made in. -/
theorem simulates_iff {C : μ → α → Prop}
    (hstep : ∀ m s a, R m s → ((∃ s', exec s a = some (out m a, s') ∧ R (next m a) s') ↔ C m a))
    (as : List α) : ∀ {m s}, R m s → (Simulates exec R next out m s as ↔ Along next C m as) := by
  induction as with
  | nil => exact fun hR => iff_of_true hR trivial
  | cons a as ih =>
    intro m s hR
    constructor
    · rintro ⟨-, s', hexec, hrest⟩
      have hC := (hstep m s a hR).mp ⟨s', hexec, hrest.start⟩
      exact ⟨hC, (ih hrest.start).mp hrest⟩
    · rintro ⟨hC, hrest⟩
      obtain ⟨s', hexec, hR'⟩ := (hstep m s a hR).mpr hC
      exact ⟨hR, s', hexec, (ih hR').mpr hrest⟩

theorem answers_cons {s' : σ} {b : β} (h : exec s a = some (b, s')) :
    answers exec (a :: as) s = (answers exec as s').map (b :: ·) := by
  simp only [answers, history, h, Option.bind_some, Option.map_map]
  rfl

/-- The first answer of a machine that gives any. -/
theorem answers_head {b : β} {bs : List β} (h : answers exec (a :: as) s = some (b :: bs)) :
    ∃ s', exec s a = some (b, s') := by
  obtain ⟨⟨bs', s'⟩, hhist, heq⟩ := Option.map_eq_some_iff.mp h
  obtain ⟨b', s₁, bs₁, hstep, -, rfl⟩ := history_cons.mp hhist
  cases heq
  exact ⟨s₁, hstep⟩

/-- A machine that does as the specification gives its answers. -/
theorem answers_of_spec {f : σ → α → Option (β × σ)}
    (hf : ∀ m s a, R m s → ∃ s', f s a = some (out m a, s') ∧ R (next m a) s') (as : List α) {m : μ}
    (hR : R m s) : ∃ bs, answers f as s = some bs := by
  have hspec : ∀ m s a, R m s →
      ∃ s', f s a = some ((out m a, next m a).1, s') ∧ R (out m a, next m a).2 s' := hf
  obtain ⟨s', hhist, -⟩ := history_of_spec hspec as hR
  rw [answers, hhist]
  exact ⟨_, rfl⟩

/-- Two machines give the same answers exactly if every call meets the condition under
which the second one does as the first. -/
theorem answers_eq_iff {f : σ → α → Option (β × σ)} {g : τ → α → Option (β × τ)} {S : μ → τ → Prop}
    {C : μ → α → Prop} (hf : ∀ m s a, R m s → ∃ s', f s a = some (out m a, s') ∧ R (next m a) s')
    (hg : ∀ m t a, S m t → C m a → ∃ t', g t a = some (out m a, t') ∧ S (next m a) t')
    (hbad : ∀ m t a, S m t → ¬ C m a → ∀ t', g t a ≠ some (out m a, t')) (as : List α) :
    ∀ {m s t}, R m s → S m t → (answers f as s = answers g as t ↔ Along next C m as) := by
  induction as with
  | nil => exact fun _ _ => iff_of_true rfl trivial
  | cons a as ih =>
    intro m s t hR hS
    obtain ⟨s', hfs, hR'⟩ := hf m s a hR
    by_cases hC : C m a
    · obtain ⟨t', hgt, hS'⟩ := hg m t a hS hC
      rw [answers_cons hfs, answers_cons hgt, Along, ← ih hR' hS']
      have hinj : Function.Injective (Option.map (out m a :: ·)) :=
        Option.map_injective fun _ _ h => (List.cons.inj h).2
      exact ⟨fun h => ⟨hC, hinj h⟩, fun h => congrArg _ h.2⟩
    · refine iff_of_false ?_ fun h => hC h.1
      intro heq
      obtain ⟨bs, hbs⟩ := answers_of_spec hf as hR'
      rw [answers_cons hfs, hbs] at heq
      obtain ⟨t', hgt⟩ := answers_head heq.symm
      exact hbad m t a hS hC t' hgt

end Lib
