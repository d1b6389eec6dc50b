import LogDirect.Lib.Atomic

/-!
# Programs on a shared object

Threads share a memory and one object. A thread makes a step on the memory, or it calls the
object, waits, and goes on with the answer. In `onObject` a call takes as many steps as the
object likes, and the other threads go on in between; in `onAtomic` a call is one step. If
the object can be followed as an atomic one, then every run of the first is a run of the
second (`refines`): what has been shown of the program under the assumption that its calls
are atomic holds on the object as well.

A thread for which an answer has no continuation stays where it is for good.
-/

namespace Lib.Atomic

variable {α γ π ι ρ μ ω ℓ : Type}

/-- What a thread does: how it starts, its steps on the memory, its calls, and how it goes
on with an answer. -/
structure Program (α γ π ι ρ : Type) where
  start : α → π
  step : γ → π → Option (γ × π)
  call : π → Option ι
  answer : π → ρ → Option π

/-- The memory, the threads there are, and the object. -/
structure Joint (γ π ω : Type) where
  memory : γ
  threads : List π
  object : ω

/-- A thread starts, makes a step of its own or calls, or the object makes a step. -/
inductive Move (α ℓ : Type)
  | enter (x : α)
  | go (i : Nat)
  | call (i : Nat)
  | object (l : ℓ)

/-- A thread starts or makes a step. -/
inductive Turn (α : Type)
  | enter (x : α)
  | go (i : Nat)

namespace Joint

/-- A step of the program on an object. -/
def move (P : Program α γ π ι ρ) (O : Object ω ℓ ι ρ) (s : Joint γ π ω) :
    Move α ℓ → Option (Joint γ π ω)
  | .enter x => some ⟨s.memory, s.threads ++ [P.start x], s.object⟩
  | .go i =>
      s.threads[i]?.bind fun p =>
        match P.call p with
        | some _ => none
        | none => (P.step s.memory p).map fun q => ⟨q.1, s.threads.set i q.2, s.object⟩
  | .call i =>
      (s.threads[i]?.bind P.call).bind fun c =>
        (O.step s.object (O.invoke i c)).map fun o => ⟨s.memory, s.threads, o⟩
  | .object l =>
      match O.seen s.object l with
      | [] => (O.step s.object l).map fun o => ⟨s.memory, s.threads, o⟩
      | [.respond i r] =>
          (s.threads[i]?.bind (P.answer · r)).bind fun p =>
            (O.step s.object l).map fun o => ⟨s.memory, s.threads.set i p, o⟩
      | _ => none

/-- A step of the program whose calls are atomic. -/
def turn (P : Program α γ π ι ρ) (exec : μ → ι → ρ × μ) (s : Joint γ π μ) :
    Turn α → Option (Joint γ π μ)
  | .enter x => some ⟨s.memory, s.threads ++ [P.start x], s.object⟩
  | .go i =>
      s.threads[i]?.bind fun p =>
        match P.call p with
        | some c =>
            (P.answer p (exec s.object c).1).map fun p =>
              ⟨s.memory, s.threads.set i p, (exec s.object c).2⟩
        | none => (P.step s.memory p).map fun q => ⟨q.1, s.threads.set i q.2, s.object⟩

end Joint

/-- The program on an object. -/
def onObject (P : Program α γ π ι ρ) (O : Object ω ℓ ι ρ) (s₀ : Joint γ π ω) :
    TSys (Joint γ π ω) (Move α ℓ) where
  init := fun s => s = s₀
  step := Joint.move P O

/-- The program with atomic calls. -/
def onAtomic (P : Program α γ π ι ρ) (exec : μ → ι → ρ × μ) (s₀ : Joint γ π μ) :
    TSys (Joint γ π μ) (Turn α) where
  init := fun s => s = s₀
  step := Joint.turn P exec

/-! ## The two programs side by side -/

/-- One thread in both programs: a call that has taken effect has been answered already in
the atomic one. -/
def Shows (P : Program α γ π ι ρ) : Phase ι ρ → Option π → Option π → Prop
  | .idle, p, q => q = p
  | .called c, p, q => q = p ∧ p.bind P.call = some c
  | .answered r, p, q => (p.bind P.call).isSome ∧ q = p.map fun p => (P.answer p r).getD p

/-- All of the state. -/
structure Matches (P : Program α γ π ι ρ) (s : Joint γ π ω) (t : Joint γ π μ)
    (a : State Nat ι ρ μ) : Prop where
  memory : t.memory = s.memory
  object : t.object = a.obj
  length : t.threads.length = s.threads.length
  threads : ∀ i, Shows P (a.phase i) s.threads[i]? t.threads[i]?

/-- The program on the object, followed by the one with atomic calls. -/
def Sim (P : Program α γ π ι ρ) (R : ω → State Nat ι ρ μ → Prop) (s : Joint γ π ω)
    (t : Joint γ π μ) : Prop :=
  ∃ a, R s.object a ∧ Matches P s t a

variable {P : Program α γ π ι ρ} {O : Object ω ℓ ι ρ} {exec : μ → ι → ρ × μ}
  {R : ω → State Nat ι ρ μ → Prop} {eff : ι → μ → ρ → μ → Prop}
  {s s' : Joint γ π ω} {t : Joint γ π μ} {a : State Nat ι ρ μ}

/-- A thread that is not there does not call. -/
theorem Shows.absent {ph : Phase ι ρ} {q : Option π} (h : Shows P ph none q) :
    ph = .idle ∧ q = none := by
  cases ph with
  | idle => exact ⟨rfl, h⟩
  | called c => cases h.2
  | answered r => cases h.1

/-- A thread that is not about to call is the same in both. -/
theorem Shows.busy {ph : Phase ι ρ} {p : π} {q : Option π} (h : Shows P ph (some p) q)
    (hcall : P.call p = none) : ph = .idle ∧ q = some p := by
  cases ph with
  | idle => exact ⟨rfl, h⟩
  | called c =>
    rw [Shows, Option.bind_some, hcall] at h
    cases h.2
  | answered r =>
    rw [Shows, Option.bind_some, hcall] at h
    cases h.1

/-- One thread changes, in either program or in both. -/
theorem Matches.set (h : Matches P s t a) (i : Nat) {p p' q q' : π} {ph : Phase ι ρ} (g : γ)
    (o : ω) (m : μ) (hp : s.threads[i]? = some p) (hq : t.threads[i]? = some q)
    (hshows : Shows P ph (some p') (some q')) :
    Matches P ⟨g, s.threads.set i p', o⟩ ⟨g, t.threads.set i q', m⟩
      ⟨m, Function.update a.phase i ph⟩ := by
  refine ⟨rfl, rfl, ?_, fun j => ?_⟩
  · rw [List.length_set, List.length_set]
    exact h.length
  · dsimp only
    by_cases hj : j = i
    · subst hj
      rw [Function.update_self, List.getElem?_set_self (List.getElem?_eq_some_iff.mp hp).1,
        List.getElem?_set_self (List.getElem?_eq_some_iff.mp hq).1]
      exact hshows
    · rw [Function.update_of_ne hj, List.getElem?_set_ne (Ne.symm hj),
        List.getElem?_set_ne (Ne.symm hj)]
      exact h.threads j

/-- Setting a thread to what it is. -/
theorem set_eq_self {l : List π} {i : Nat} {p : π} (h : l[i]? = some p) : l.set i p = l := by
  refine List.ext_getElem? fun j => ?_
  by_cases hj : i = j
  · subst hj
    rw [List.getElem?_set_self (List.getElem?_eq_some_iff.mp h).1, h]
  · rw [List.getElem?_set_ne hj]

/-! ## Steps -/

theorem Matches.enter (h : Matches P s t a) (x : α) :
    Matches P ⟨s.memory, s.threads ++ [P.start x], s.object⟩
      ⟨t.memory, t.threads ++ [P.start x], t.object⟩ a := by
  refine ⟨h.memory, h.object, ?_, fun i => ?_⟩
  · rw [List.length_append, List.length_append, h.length]
  · dsimp only
    have hi := h.threads i
    rcases Nat.lt_trichotomy i s.threads.length with hlt | heq | hgt
    · rwa [List.getElem?_append_left hlt, List.getElem?_append_left (h.length ▸ hlt)]
    · -- the index of the new thread was free
      rw [List.getElem?_eq_none (Nat.le_of_eq heq.symm)] at hi
      subst heq
      rw [hi.absent.1, List.getElem?_concat_length, ← h.length, List.getElem?_concat_length]
      rfl
    · rw [List.getElem?_eq_none (Nat.le_of_lt hgt)] at hi
      rw [hi.absent.1, List.getElem?_eq_none, List.getElem?_eq_none]
      · rfl
      · rw [List.length_append, h.length]
        exact hgt
      · rw [List.length_append]
        exact hgt

theorem Sim.go (h : Sim P R s t) {i : Nat} (hstep : Joint.move P O s (.go i) = some s') :
    ∃ t', Joint.turn P exec t (.go i) = some t' ∧ Sim P R s' t' := by
  obtain ⟨a, hR, h⟩ := h
  obtain ⟨p, hp, hstep⟩ := Option.bind_eq_some_iff.mp hstep
  cases hcall : P.call p with
  | some c =>
    rw [hcall] at hstep
    cases hstep
  | none =>
    rw [hcall] at hstep
    obtain ⟨q, hq, rfl⟩ := Option.map_eq_some_iff.mp hstep
    have hi := h.threads i
    rw [hp] at hi
    obtain ⟨hidle, ht⟩ := hi.busy hcall
    refine ⟨⟨q.1, t.threads.set i q.2, t.object⟩, ?_, a, hR, ?_⟩
    · rw [Joint.turn, ht, Option.bind_some, hcall, h.memory]
      dsimp only
      rw [hq]
      rfl
    · have hset := h.set i q.1 s.object t.object hp ht
        (show Shows P .idle (some q.2) (some q.2) from rfl)
      rw [← hidle, Function.update_eq_self, h.object] at hset
      rw [h.object]
      exact hset

/-- The object has done nothing that the atomic one has not done, but for one call. -/
theorem Matches.object_change (h : Matches P s t a) {o : ω} {a' : State Nat ι ρ μ}
    (hobj : a'.obj = a.obj) (hphase : ∀ i, Shows P (a'.phase i) s.threads[i]? t.threads[i]?) :
    Matches P ⟨s.memory, s.threads, o⟩ t a' :=
  ⟨h.memory, h.object.trans hobj.symm, h.length, hphase⟩

theorem Sim.call (hlinear : O.Linear (fun _ => True) eff R) (h : Sim P R s t) {i : Nat}
    (hstep : Joint.move P O s (.call i) = some s') : Sim P R s' t := by
  obtain ⟨a, hR, h⟩ := h
  obtain ⟨c, hc, hstep⟩ := Option.bind_eq_some_iff.mp hstep
  obtain ⟨o, ho, rfl⟩ := Option.map_eq_some_iff.mp hstep
  obtain ⟨a', hone, hR'⟩ := hlinear.step _ _ _ _ hR (fun _ _ _ => trivial) ho
  rw [hlinear.invoke] at hone
  cases hone with
  | invoke _ hidle =>
    refine ⟨_, hR', h.object_change rfl fun j => ?_⟩
    dsimp only
    have hj := h.threads j
    by_cases hji : j = i
    · subst hji
      rw [hidle] at hj
      rw [Function.update_self]
      exact ⟨hj, hc⟩
    · rw [Function.update_of_ne hji]
      exact hj

/-- A step of the object is one of the atomic program in which a call takes effect, or none. -/
theorem Sim.object (hlinear : O.Linear (fun _ => True) eff R)
    (heff : ∀ p c m r m', P.call p = some c → eff c m r m' →
      ((P.answer p r).isSome ∧ (r, m') = exec m c) ∨ (P.answer p r = none ∧ m' = m))
    (h : Sim P R s t) {l : ℓ} (hstep : Joint.move P O s (.object l) = some s') :
    Sim P R s' t ∨ ∃ i t', Joint.turn P exec t (.go i) = some t' ∧ Sim P R s' t' := by
  obtain ⟨a, hR, h⟩ := h
  unfold Joint.move at hstep
  dsimp only at hstep
  split at hstep
  · -- unseen: nothing, or a call takes effect
    rename_i hseen
    obtain ⟨o, ho, rfl⟩ := Option.map_eq_some_iff.mp hstep
    obtain ⟨a', hone, hR'⟩ := hlinear.step _ _ _ _ hR (fun _ _ _ => trivial) ho
    rw [hseen] at hone
    cases hone with
    | stay => exact .inl ⟨a, hR', h.object_change rfl h.threads⟩
    | @effect i c r m' hcalled heffect =>
      have hi := h.threads i
      rw [hcalled] at hi
      obtain ⟨hq, hc⟩ := hi
      obtain ⟨p, hp, hc⟩ := Option.bind_eq_some_iff.mp hc
      rw [hp] at hq
      have hshows : ∀ q, (P.answer p r).getD p = q → Shows P (.answered r) (some p) (some q) := by
        rintro q rfl
        refine ⟨?_, rfl⟩
        rw [Option.bind_some, hc]
        rfl
      rcases heff p c a.obj r m' hc heffect with ⟨hsome, hexec⟩ | ⟨hnone, rfl⟩
      · obtain ⟨p', hp'⟩ := Option.isSome_iff_exists.mp hsome
        refine .inr ⟨i, ⟨t.memory, t.threads.set i p', m'⟩, ?_, _, hR', ?_⟩
        · rw [Joint.turn, hq, Option.bind_some, hc]
          dsimp only
          rw [h.object, ← hexec, hp']
          rfl
        · have hset := h.set i s.memory o m' hp hq (hshows p' (by rw [hp']; rfl))
          rw [set_eq_self hp] at hset
          rw [h.memory]
          exact hset
      · refine .inl ⟨_, hR', ?_⟩
        have hset := h.set i s.memory o a.obj hp hq (hshows p (by rw [hnone]; rfl))
        rw [set_eq_self hp, set_eq_self hq] at hset
        exact ⟨h.memory, h.object, hset.length, hset.threads⟩
  · -- a thread is answered
    rename_i i r hseen
    obtain ⟨p', hp', hstep⟩ := Option.bind_eq_some_iff.mp hstep
    obtain ⟨p, hp, hanswer⟩ := Option.bind_eq_some_iff.mp hp'
    obtain ⟨o, ho, rfl⟩ := Option.map_eq_some_iff.mp hstep
    obtain ⟨a', hone, hR'⟩ := hlinear.step _ _ _ _ hR (fun _ _ _ => trivial) ho
    rw [hseen] at hone
    cases hone with
    | respond hanswered =>
      have hi := h.threads i
      rw [hanswered, hp] at hi
      have hq : t.threads[i]? = some p' := by
        rw [hi.2, Option.map_some, hanswer]
        rfl
      have hset := h.set i s.memory o a.obj hp hq (show Shows P .idle (some p') (some p') from rfl)
      rw [set_eq_self hq] at hset
      exact .inl ⟨_, hR', h.memory, h.object, hset.length, hset.threads⟩
  · cases hstep

/-- **Refinement.** Every run on an object that can be followed as an atomic one is a run of
the program with atomic calls. -/
theorem refines (hlinear : O.Linear (fun _ => True) eff R)
    (heff : ∀ p c m r m', P.call p = some c → eff c m r m' →
      ((P.answer p r).isSome ∧ (r, m') = exec m c) ∨ (P.answer p r = none ∧ m' = m))
    {s₀ : Joint γ π ω} {t₀ : Joint γ π μ} {tr : List (Joint γ π ω × Move α ℓ)}
    (h₀ : Sim P R s₀ t₀) (hrun : (onObject P O s₀).Run s₀ tr s) :
    ∃ tr' t, (onAtomic P exec t₀).Run t₀ tr' t ∧ Sim P R s t := by
  induction hrun with
  | nil => exact ⟨[], t₀, .nil, h₀⟩
  | @snoc tr s l s' _ hstep ih =>
    obtain ⟨tr', t, hrun, h⟩ := ih
    have hstep : Joint.move P O s l = some s' := hstep
    have hturn : ∀ {i t'}, (onAtomic P exec t₀).step t (.go i) = some t' → Sim P R s' t' →
        ∃ tr' t, (onAtomic P exec t₀).Run t₀ tr' t ∧ Sim P R s' t :=
      fun hstep h => ⟨_, _, hrun.snoc hstep, h⟩
    cases l with
    | enter x =>
      cases hstep
      obtain ⟨a, hR, h⟩ := h
      exact ⟨_, ⟨t.memory, t.threads ++ [P.start x], t.object⟩,
        hrun.snoc (l := .enter x) rfl, a, hR, h.enter x⟩
    | go i =>
      obtain ⟨t', hstep', h'⟩ := h.go hstep
      exact hturn hstep' h'
    | call i => exact ⟨tr', t, hrun, h.call hlinear hstep⟩
    | object l =>
      rcases h.object hlinear heff hstep with h' | ⟨i, t', hstep', h'⟩
      · exact ⟨tr', t, hrun, h'⟩
      · exact hturn hstep' h'

end Lib.Atomic
