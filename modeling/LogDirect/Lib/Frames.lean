import Mathlib.Data.List.Induction

/-!
# Concatenated records

A stream that is cut into records. `flatten_eq_iff` says when a stream of the right
length is the concatenation of given records: when each record is found where
the records before it end. `map_eq_of_flatMap_eq` says when the records can be read off
a stream: when each one tells where it ends to a reader who knows its form.
-/

namespace Lib

variable {α : Type}

/-- The elements of a stream from an offset on, as many as a record has, are the record. -/
def FoundAt (bs : List α) (off : Nat) (r : List α) : Prop := (bs.drop off).take r.length = r

variable {pre bs r : List α} {off : Nat}

theorem foundAt_append_left : FoundAt (pre ++ bs) (pre.length + off) r ↔ FoundAt bs off r := by
  unfold FoundAt
  rw [← List.drop_drop, List.drop_left' rfl]

/-- The record at the offset where it was put. -/
theorem foundAt_mid (pre r post : List α) : FoundAt (pre ++ r ++ post) pre.length r := by
  unfold FoundAt
  rw [List.append_assoc, List.drop_left' rfl, List.take_left' rfl]

/-- What is found in a stream is found in every longer one. -/
theorem FoundAt.mono {bs' : List α} (h : FoundAt bs off r) (hbs : bs <+: bs') :
    FoundAt bs' off r := by
  obtain ⟨rest, rfl⟩ := hbs
  unfold FoundAt at *
  by_cases hoff : off ≤ bs.length
  · rw [List.drop_append_of_le_length hoff]
    have hlen : r.length ≤ (bs.drop off).length := by
      have := congrArg List.length h
      rw [List.length_take] at this
      omega
    rwa [List.take_append_of_le_length hlen]
  · rw [List.drop_eq_nil_of_le (by omega), List.take_nil] at h
    rw [← h]
    rfl

/-- A part of what is found. -/
theorem FoundAt.mid {post : List α} (h : FoundAt bs off (pre ++ r ++ post)) :
    FoundAt bs (off + pre.length) r := by
  unfold FoundAt at *
  have hpart := congrArg (fun l => (l.drop pre.length).take r.length) h
  simp only [List.append_assoc, List.drop_left' rfl, List.take_left' rfl] at hpart
  rw [← List.drop_drop]
  rw [List.drop_take, List.take_take] at hpart
  rwa [Nat.min_eq_left (by simp only [List.length_append]; omega)] at hpart

/-- A stream that begins with `pre` and has the record behind it begins with both. -/
theorem FoundAt.prefix_append (hpre : pre <+: bs) (h : FoundAt bs pre.length r) :
    pre ++ r <+: bs := by
  obtain ⟨rest, rfl⟩ := hpre
  rw [FoundAt, List.drop_left' rfl] at h
  rw [List.prefix_append_right_inj]
  have hsplit := List.take_append_drop r.length rest
  rw [h] at hsplit
  exact ⟨_, hsplit⟩

/-- A stream is the concatenation of the records exactly if each is found behind the
ones before it. -/
theorem flatten_eq_iff {rs : List (List α)} (hlen : bs.length = rs.flatten.length) :
    (∀ pre r post, rs = pre ++ r :: post → FoundAt bs pre.flatten.length r) ↔ bs = rs.flatten := by
  constructor
  · intro h
    -- the records found so far, from the front
    have hbegin : ∀ pre post, rs = pre ++ post → pre.flatten <+: bs := by
      intro pre
      induction pre using List.reverseRecOn with
      | nil =>
        intro post _
        exact List.nil_prefix
      | append_singleton pre r ih =>
        intro post hrs
        rw [List.append_assoc, List.singleton_append] at hrs
        rw [List.flatten_append, List.flatten_singleton]
        exact (h pre r post hrs).prefix_append (ih _ hrs)
    exact ((hbegin rs [] (by simp)).eq_of_length hlen.symm).symm
  · rintro rfl pre r post rfl
    rw [List.flatten_append, List.flatten_cons, ← List.append_assoc]
    exact foundAt_mid _ _ _

/-- One of two lists begins with the other. -/
def Comparable (l l' : List α) : Prop := l <+: l' ∨ l' <+: l

theorem comparable_cons {a b : α} {l l' : List α} :
    Comparable (a :: l) (b :: l') ↔ a = b ∧ Comparable l l' := by
  unfold Comparable
  rw [List.cons_prefix_cons, List.cons_prefix_cons]
  constructor
  · rintro (⟨rfl, h⟩ | ⟨rfl, h⟩)
    · exact ⟨rfl, .inl h⟩
    · exact ⟨rfl, .inr h⟩
  · rintro ⟨rfl, h | h⟩
    · exact .inl ⟨rfl, h⟩
    · exact .inr ⟨rfl, h⟩

theorem comparable_unit (l l' : List Unit) : Comparable l l' := by
  induction l generalizing l' with
  | nil => exact .inl List.nil_prefix
  | cons _ l ih =>
    cases l' with
    | nil => exact .inr List.nil_prefix
    | cons _ l' => exact comparable_cons.mpr ⟨rfl, ih l'⟩

/-- Two lists of records with the same bytes are the same, up to `dec`, if their forms agree
as far as both go and records of one form tell where they end. -/
theorem map_eq_of_flatMap_eq {ρ φ γ : Type} {enc : ρ → List α} {dec : ρ → γ} {ok : ρ → Prop}
    (form : ρ → φ) (hne : ∀ r, ok r → enc r ≠ [])
    (hinj : ∀ r r' x y, ok r → ok r' → form r = form r' → enc r ++ x = enc r' ++ y →
      dec r = dec r' ∧ x = y) (rs : List ρ) :
    ∀ rs' : List ρ, (∀ r ∈ rs, ok r) → (∀ r ∈ rs', ok r) → Comparable (rs.map form) (rs'.map form) →
      rs.flatMap enc = rs'.flatMap enc → rs.map dec = rs'.map dec := by
  have hcons : ∀ (r : ρ) (rs : List ρ), ok r → (r :: rs).flatMap enc ≠ [] := by
    intro r rs hr hnil
    exact hne r hr (List.append_eq_nil_iff.mp hnil).1
  induction rs with
  | nil =>
    intro rs' _ hok' _ heq
    cases rs' with
    | nil => rfl
    | cons r' rs' => exact absurd heq.symm (hcons r' rs' (hok' r' List.mem_cons_self))
  | cons r rs ih =>
    intro rs' hok hok' hform heq
    cases rs' with
    | nil => exact absurd heq (hcons r rs (hok r List.mem_cons_self))
    | cons r' rs' =>
      obtain ⟨hhead, hforms⟩ := comparable_cons.mp hform
      obtain ⟨hr, hrest⟩ := hinj r r' _ _ (hok r List.mem_cons_self) (hok' r' List.mem_cons_self)
        hhead heq
      rw [List.map_cons, List.map_cons, hr, ih rs' (fun x hx => hok x (List.mem_cons_of_mem _ hx))
        (fun x hx => hok' x (List.mem_cons_of_mem _ hx)) hforms hrest]

end Lib
