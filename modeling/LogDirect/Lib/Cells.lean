import Mathlib.Data.Set.Card

/-!
# Keyed cells

Entries lie in cells, each of them has a key and a value, and no key lies in two cells.
`Keeps c m n` says that the cells `c` are such a table for the map `m`, with `n` entries.
The rules are about single cells: a new entry is put into an empty cell, a value is
changed in its place, an entry is taken out, an entry goes from one cell to another.
-/

namespace Lib.Cells

variable {P E K V : Type}

/-- The cells that hold an entry. -/
def occ (c : P → Option E) : Set P := {p | (c p).isSome}

/-- The cells keep the map, in `n` entries. -/
structure Keeps (key : E → K) (val : E → V) (c : P → Option E) (m : K → Option V) (n : Nat) :
    Prop where
  shows : ∀ p e, c p = some e → m (key e) = some (val e)
  kept : ∀ k v, m k = some v → ∃ p e, c p = some e ∧ key e = k
  apart : ∀ p q e e', c p = some e → c q = some e' → key e = key e' → p = q
  finite : (occ c).Finite
  count : (occ c).ncard = n

variable {key : E → K} {val : E → V} {c : P → Option E} {m : K → Option V} {n : Nat}

theorem mem_occ {p : P} {e : E} (h : c p = some e) : p ∈ occ c := by
  rw [occ, Set.mem_ofPred_eq, h]
  rfl

theorem not_mem_occ {p : P} (h : c p = none) : p ∉ occ c := by
  rw [occ, Set.mem_ofPred_eq, h]
  exact Bool.false_ne_true

/-- Empty cells keep the empty map. -/
theorem Keeps.empty : Keeps key val (fun _ : P => none) (fun _ => none) 0 where
  shows p e h := by cases h
  kept k v h := by cases h
  apart p q e e' h := by cases h
  finite := by simp [occ]
  count := by simp [occ]

/-- A key that is in no cell is not in the map. -/
theorem Keeps.absent (h : Keeps key val c m n) {k : K} (hk : ∀ p e, c p = some e → key e ≠ k) :
    m k = none := by
  cases hm : m k with
  | none => rfl
  | some v =>
    obtain ⟨p, e, hp, he⟩ := h.kept k v hm
    exact absurd he (hk p e hp)

theorem Keeps.count_pos (h : Keeps key val c m n) {p : P} {e : E} (hp : c p = some e) : 0 < n := by
  rw [← h.count, Set.ncard_pos h.finite]
  exact ⟨p, mem_occ hp⟩

/-- The keys of a map. -/
def keys (m : K → Option V) : Set K := {k | (m k).isSome}

theorem mem_keys {k : K} {v : V} (h : m k = some v) : k ∈ keys m := by
  rw [keys, Set.mem_ofPred_eq, h]
  rfl

/-- There are as many keys as entries. -/
theorem Keeps.keys_ncard (h : Keeps key val c m n) : (keys m).Finite ∧ (keys m).ncard = n := by
  have hkey : ∀ p ∈ occ c, ∃ e, c p = some e ∧ (c p).map key = some (key e) := by
    intro p hp
    obtain ⟨e, he⟩ := Option.isSome_iff_exists.mp hp
    exact ⟨e, he, by rw [he, Option.map_some]⟩
  have heq : some '' keys m = (fun p => (c p).map key) '' occ c := by
    ext o
    constructor
    · rintro ⟨k, hk, rfl⟩
      obtain ⟨v, hm⟩ := Option.isSome_iff_exists.mp hk
      obtain ⟨p, e, hp, rfl⟩ := h.kept k v hm
      exact ⟨p, mem_occ hp, congrArg (Option.map key) hp⟩
    · rintro ⟨p, hp, rfl⟩
      obtain ⟨e, he, hmap⟩ := hkey p hp
      exact ⟨key e, mem_keys (h.shows p e he), hmap.symm⟩
  have hinj : Set.InjOn (fun p => (c p).map key) (occ c) := by
    intro p hp q hq hpq
    obtain ⟨e, he, hmap⟩ := hkey p hp
    obtain ⟨e', he', hmap'⟩ := hkey q hq
    exact h.apart p q e e' he he' (Option.some.inj (hmap.symm.trans (hpq.trans hmap')))
  have hsome : Set.InjOn some (keys m) := (Option.some_injective K).injOn
  constructor
  · refine Set.Finite.of_finite_image ?_ hsome
    rw [heq]
    exact h.finite.image _
  · rw [← hsome.ncard_image, heq, hinj.ncard_image, h.count]

/-- The cells may be renamed. -/
theorem Keeps.rename {Q : Type} (h : Keeps key val c m n) (f : Q ≃ P) :
    Keeps key val (c ∘ f) m n := by
  have hocc : occ (c ∘ f) = f.symm '' occ c := by
    rw [Equiv.image_symm_eq_preimage]
    rfl
  constructor
  · exact fun q e hq => h.shows (f q) e hq
  · intro k v hm
    obtain ⟨p, e, hp, hk⟩ := h.kept k v hm
    exact ⟨f.symm p, e, by rw [Function.comp_apply, Equiv.apply_symm_apply, hp], hk⟩
  · exact fun q r e e' hq hr hk => f.injective (h.apart (f q) (f r) e e' hq hr hk)
  · rw [hocc]
    exact h.finite.image _
  · rw [hocc, Set.ncard_image_of_injective _ f.symm.injective, h.count]

variable [DecidableEq P]

theorem occ_update_some (c : P → Option E) (p : P) (e : E) :
    occ (Function.update c p (some e)) = insert p (occ c) := by
  ext q
  by_cases hq : q = p
  · subst hq
    simp [occ]
  · simp [occ, hq]

theorem occ_update_none (c : P → Option E) (p : P) :
    occ (Function.update c p none) = occ c \ {p} := by
  ext q
  by_cases hq : q = p
  · subst hq
    simp [occ]
  · simp [occ, hq]

variable [DecidableEq K]

/-- A new entry goes into an empty cell. -/
theorem Keeps.put (h : Keeps key val c m n) {p : P} {e : E} (hp : c p = none)
    (hk : m (key e) = none) :
    Keeps key val (Function.update c p (some e)) (Function.update m (key e) (some (val e)))
      (n + 1) := by
  have hother : ∀ q e', c q = some e' → key e' ≠ key e := by
    intro q e' hq heq
    have := h.shows q e' hq
    rw [heq, hk] at this
    cases this
  constructor
  · intro q e' hq
    by_cases hqp : q = p
    · subst hqp
      rw [Function.update_self] at hq
      cases hq
      exact Function.update_self ..
    · rw [Function.update_of_ne hqp] at hq
      rw [Function.update_of_ne (hother q e' hq)]
      exact h.shows q e' hq
  · intro k v hm
    by_cases hke : k = key e
    · subst hke
      exact ⟨p, e, Function.update_self .., rfl⟩
    · rw [Function.update_of_ne hke] at hm
      obtain ⟨q, e', hq, hk'⟩ := h.kept k v hm
      have hqp : q ≠ p := by
        rintro rfl
        rw [hp] at hq
        cases hq
      exact ⟨q, e', by rw [Function.update_of_ne hqp, hq], hk'⟩
  · intro q r e₁ e₂ hq hr heq
    by_cases hqp : q = p <;> by_cases hrp : r = p
    · rw [hqp, hrp]
    · subst hqp
      rw [Function.update_self] at hq
      rw [Function.update_of_ne hrp] at hr
      cases hq
      exact absurd heq.symm (hother r e₂ hr)
    · subst hrp
      rw [Function.update_self] at hr
      rw [Function.update_of_ne hqp] at hq
      cases hr
      exact absurd heq (hother q e₁ hq)
    · rw [Function.update_of_ne hqp] at hq
      rw [Function.update_of_ne hrp] at hr
      exact h.apart q r e₁ e₂ hq hr heq
  · rw [occ_update_some]
    exact h.finite.insert p
  · rw [occ_update_some, Set.ncard_insert_of_notMem (not_mem_occ hp) h.finite, h.count]

/-- An entry is taken out. -/
theorem Keeps.erase (h : Keeps key val c m n) {p : P} {e : E} (hp : c p = some e) :
    Keeps key val (Function.update c p none) (Function.update m (key e) none) (n - 1) := by
  have hfrom : ∀ q e₁, Function.update c p none q = some e₁ → q ≠ p ∧ c q = some e₁ := by
    intro q e₁ hq
    by_cases hqp : q = p
    · subst hqp
      rw [Function.update_self] at hq
      cases hq
    · rw [Function.update_of_ne hqp] at hq
      exact ⟨hqp, hq⟩
  constructor
  · intro q e₁ hq
    obtain ⟨hqp, hq⟩ := hfrom q e₁ hq
    have hne : key e₁ ≠ key e := fun heq => hqp (h.apart q p e₁ e hq hp heq)
    rw [Function.update_of_ne hne]
    exact h.shows q e₁ hq
  · intro k v hm
    have hke : k ≠ key e := by
      rintro rfl
      rw [Function.update_self] at hm
      cases hm
    rw [Function.update_of_ne hke] at hm
    obtain ⟨q, e₁, hq, hk'⟩ := h.kept k v hm
    have hqp : q ≠ p := by
      rintro rfl
      rw [hp] at hq
      cases hq
      exact hke hk'.symm
    exact ⟨q, e₁, by rw [Function.update_of_ne hqp, hq], hk'⟩
  · intro q r e₁ e₂ hq hr heq
    exact h.apart q r e₁ e₂ (hfrom q e₁ hq).2 (hfrom r e₂ hr).2 heq
  · rw [occ_update_none]
    exact h.finite.sdiff
  · rw [occ_update_none, Set.ncard_sdiff_singleton_of_mem (mem_occ hp), h.count]

/-- The value of an entry is changed in its place. -/
theorem Keeps.modify (h : Keeps key val c m n) {p : P} {e e' : E} (hp : c p = some e)
    (hk : key e' = key e) :
    Keeps key val (Function.update c p (some e')) (Function.update m (key e) (some (val e')))
      n := by
  -- the old entry is taken out, and the new one put into its place
  have hput := (h.erase hp).put (p := p) (e := e') (Function.update_self ..)
    (by rw [hk, Function.update_self])
  rwa [Function.update_idem, hk, Function.update_idem, Nat.sub_add_cancel (h.count_pos hp)] at hput

/-- An entry goes to an empty cell. -/
theorem Keeps.move (h : Keeps key val c m n) {p q : P} {e : E} (hp : c p = some e)
    (hq : c q = none) :
    Keeps key val (Function.update (Function.update c q (some e)) p none) m n := by
  have hpq : p ≠ q := by
    rintro rfl
    rw [hp] at hq
    cases hq
  -- taken out of the one cell, and put into the other
  have hout := h.erase hp
  have hin := hout.put (p := q) (e := e) (by rw [Function.update_of_ne hpq.symm, hq])
    (Function.update_self ..)
  have hm : Function.update (Function.update m (key e) none) (key e) (some (val e)) = m := by
    rw [Function.update_idem, ← h.shows p e hp, Function.update_eq_self]
  rw [hm, Nat.sub_add_cancel (h.count_pos hp)] at hin
  rwa [Function.update_comm hpq.symm]

end Lib.Cells
