import LogDirect.Lib.TSys
import Mathlib.Logic.Function.Basic

/-!
# Atomic objects

Clients call an object. Of a client one sees that it makes a call and that it gets an
answer; in between the call takes effect, all at once and unseen, and the answer is
settled then. `Steps eff a es b` are the sequences of such steps, with what is seen of
them. A system whose runs can be followed in this way (`follows`, and `Object.Linear` for an
object that is to be a part of something else) is as good as the atomic object to its clients:
the order in which the calls take effect is an order of all of them that explains every answer,
and each call has its place between its start and its end.
-/

namespace Lib.Atomic

variable {τ ι ρ μ : Type}

/-- How far a client is with its call. -/
inductive Phase (ι ρ : Type)
  | idle
  | called (c : ι)
  | answered (r : ρ)

/-- What is seen of a client. -/
inductive Event (τ ι ρ : Type)
  | invoke (t : τ) (c : ι)
  | respond (t : τ) (r : ρ)

/-- The object and its clients. -/
structure State (τ ι ρ μ : Type) where
  obj : μ
  phase : τ → Phase ι ρ

/-- No client has called yet. -/
def State.start (m : μ) : State τ ι ρ μ := ⟨m, fun _ => .idle⟩

variable [DecidableEq τ]

/-- One step, or none. `eff c m r m'` says that the call `c` may be answered by `r` and turn
the object from `m` into `m'`. -/
inductive Step (eff : ι → μ → ρ → μ → Prop) :
    State τ ι ρ μ → List (Event τ ι ρ) → State τ ι ρ μ → Prop
  | stay (a) : Step eff a [] a
  | invoke {a : State τ ι ρ μ} {t : τ} (c : ι) : a.phase t = .idle →
      Step eff a [.invoke t c] ⟨a.obj, Function.update a.phase t (.called c)⟩
  | effect {a : State τ ι ρ μ} {t : τ} {c : ι} {r : ρ} {m' : μ} : a.phase t = .called c →
      eff c a.obj r m' → Step eff a [] ⟨m', Function.update a.phase t (.answered r)⟩
  | respond {a : State τ ι ρ μ} {t : τ} {r : ρ} : a.phase t = .answered r →
      Step eff a [.respond t r] ⟨a.obj, Function.update a.phase t .idle⟩

/-- A sequence of steps, with all that is seen of them. -/
inductive Steps (eff : ι → μ → ρ → μ → Prop) (a : State τ ι ρ μ) :
    List (Event τ ι ρ) → State τ ι ρ μ → Prop
  | nil : Steps eff a [] a
  | snoc {es es' b b'} : Steps eff a es b → Step eff b es' b' → Steps eff a (es ++ es') b'

theorem Step.mono {eff eff' : ι → μ → ρ → μ → Prop} (hle : ∀ c m r m', eff c m r m' → eff' c m r m')
    {a b : State τ ι ρ μ} {es : List (Event τ ι ρ)} (h : Step eff a es b) : Step eff' a es b := by
  cases h with
  | stay => exact .stay a
  | invoke c hidle => exact .invoke c hidle
  | effect hcalled heff => exact .effect hcalled (hle _ _ _ _ heff)
  | respond hanswered => exact .respond hanswered

theorem Steps.mono {eff eff' : ι → μ → ρ → μ → Prop}
    (hle : ∀ c m r m', eff c m r m' → eff' c m r m') {a b : State τ ι ρ μ}
    {es : List (Event τ ι ρ)} (h : Steps eff a es b) : Steps eff' a es b := by
  induction h with
  | nil => exact .nil
  | snoc _ hone ih => exact ih.snoc (hone.mono hle)

/-! ## Systems that can be followed -/

/-- What is seen of a run. -/
def seenOf {σ ℓ : Type} (seen : σ → ℓ → List (Event τ ι ρ)) (tr : List (σ × ℓ)) :
    List (Event τ ι ρ) :=
  tr.flatMap fun p => seen p.1 p.2

omit [DecidableEq τ] in
theorem seenOf_append {σ ℓ : Type} (seen : σ → ℓ → List (Event τ ι ρ)) (tr tr' : List (σ × ℓ)) :
    seenOf seen (tr ++ tr') = seenOf seen tr ++ seenOf seen tr' :=
  List.flatMap_append

/-- If each step of a system that meets `ok` is one of the atomic object, or none, and the
same is seen of it, then every run of such steps can be followed. -/
theorem follows {σ ℓ : Type} {T : TSys σ ℓ} {seen : σ → ℓ → List (Event τ ι ρ)}
    {eff : ι → μ → ρ → μ → Prop} {R : σ → State τ ι ρ μ → Prop} (ok : σ → ℓ → Prop)
    (hstep : ∀ s l s' a, R s a → ok s l → T.step s l = some s' →
      ∃ a', Step eff a (seen s l) a' ∧ R s' a')
    {s₀ s : σ} {tr : List (σ × ℓ)} (hrun : T.Run s₀ tr s) (hok : TSys.Meets ok tr)
    {a₀ : State τ ι ρ μ} (h₀ : R s₀ a₀) :
    ∃ a, Steps eff a₀ (seenOf seen tr) a ∧ R s a := by
  induction hrun with
  | nil => exact ⟨a₀, .nil, h₀⟩
  | @snoc tr s l s' _ hl ih =>
    obtain ⟨hok, hlast⟩ := TSys.meets_snoc.mp hok
    obtain ⟨a, hsteps, hR⟩ := ih hok
    obtain ⟨a', hone, hR'⟩ := hstep s l s' a hR hlast hl
    refine ⟨a', ?_, hR'⟩
    rw [seenOf, List.flatMap_append, List.flatMap_singleton]
    exact hsteps.snoc hone

/-- An object that threads call: its steps, what is seen of them, and the step of a call. -/
structure Object (ω ℓ ι ρ : Type) where
  step : ω → ℓ → Option ω
  seen : ω → ℓ → List (Event Nat ι ρ)
  invoke : Nat → ι → ℓ

/-- The object can be followed by the atomic one, as long as only calls that meet `ok` are
made. -/
structure Object.Linear {ω ℓ : Type} (O : Object ω ℓ ι ρ) (ok : ι → Prop)
    (eff : ι → μ → ρ → μ → Prop) (R : ω → State Nat ι ρ μ → Prop) : Prop where
  invoke : ∀ w i c, O.seen w (O.invoke i c) = [.invoke i c]
  step : ∀ w l w' a, R w a → (∀ i c, O.seen w l = [.invoke i c] → ok c) → O.step w l = some w' →
    ∃ a', Step eff a (O.seen w l) a' ∧ R w' a'

/-! ## The atomic object itself -/

/-- A step of the atomic object. -/
inductive Tick (ι : Type)
  | invoke (t : Nat) (c : ι)
  | effect (t : Nat)
  | respond (t : Nat)

/-- The atomic object whose calls do what `exec` says. -/
def atomic (exec : μ → ι → ρ × μ) : Object (State Nat ι ρ μ) (Tick ι) ι ρ where
  step a
    | .invoke t c =>
        match a.phase t with
        | .idle => some ⟨a.obj, Function.update a.phase t (.called c)⟩
        | _ => none
    | .effect t =>
        match a.phase t with
        | .called c =>
            some ⟨(exec a.obj c).2, Function.update a.phase t (.answered (exec a.obj c).1)⟩
        | _ => none
    | .respond t =>
        match a.phase t with
        | .answered _ => some ⟨a.obj, Function.update a.phase t .idle⟩
        | _ => none
  seen a
    | .invoke t c => [.invoke t c]
    | .effect _ => []
    | .respond t =>
        match a.phase t with
        | .answered r => [.respond t r]
        | _ => []
  invoke := .invoke

theorem atomic_linear (exec : μ → ι → ρ × μ) :
    (atomic exec).Linear (fun _ => True) (fun c m r m' => (r, m') = exec m c) Eq := by
  refine ⟨fun _ _ _ => rfl, ?_⟩
  rintro a l a' _ rfl - hstep
  refine ⟨a', ?_, rfl⟩
  cases l with
  | invoke t c =>
    cases hphase : a.phase t with
    | idle =>
      simp only [atomic, hphase, Option.some.injEq] at hstep ⊢
      rw [← hstep]
      exact .invoke c hphase
    | _ => simp [atomic, hphase] at hstep
  | effect t =>
    cases hphase : a.phase t with
    | called c =>
      simp only [atomic, hphase, Option.some.injEq] at hstep ⊢
      rw [← hstep]
      exact .effect hphase rfl
    | _ => simp [atomic, hphase] at hstep
  | respond t =>
    cases hphase : a.phase t with
    | answered r =>
      simp only [atomic, hphase, Option.some.injEq] at hstep ⊢
      rw [← hstep]
      exact .respond hphase
    | _ => simp [atomic, hphase] at hstep

end Lib.Atomic
