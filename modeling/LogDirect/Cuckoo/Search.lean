import LogDirect.Cuckoo.Threads
import Mathlib.Algebra.BigOperators.Group.List.Basic
import Mathlib.Algebra.Order.BigOperators.Group.List
import Mathlib.Tactic.Linarith

/-!
# libcuckoo: the search for an empty slot

What a thread knows of its own search: the queue of `slot_search` never overflows and its
path codes fit into 16 bits, a path code gives back the slots it was made of, and the
records of a path lead from one of the two buckets of the key each to the alternate bucket
of the element read there. None of this speaks of the table, so no other thread can undo
it.
-/

namespace LogDirect.Cuckoo

variable {K V : Type}

/-! ## The queue -/

/-- How many records can come after one, with so many levels below it. -/
def descendants : Nat → Nat
  | 0 => 0
  | n + 1 => slotPerBucket * (descendants n + 1)

/-- The levels below a record. -/
def BSlot.below (x : BSlot) : Nat := descendants (maxBfsPathLen - 1 - x.depth)

/-- A record of the search in a table of hashpower `hp`. -/
structure BSlot.Ok (hp : Nat) (x : BSlot) : Prop where
  bucket : x.bucket < hashsize hp
  depth : x.depth < maxBfsPathLen
  pathcode : x.pathcode < 2 * slotPerBucket ^ x.depth

/-- The queue has room for all that can still come. -/
structure BQueue.Ok (hp : Nat) (q : BQueue) : Prop where
  items : ∀ x ∈ q.slots, x.Ok hp
  room : q.last + (q.slots.map BSlot.below).sum ≤ maxCuckooCount

theorem BQueue.ok_start {hp i1 i2 : Nat} (h1 : i1 < hashsize hp) (h2 : i2 < hashsize hp) :
    (BQueue.start i1 i2).Ok hp where
  items x hx := by
    rcases List.mem_pair.mp hx with rfl | rfl
    · exact ⟨h1, (by decide : 0 < maxBfsPathLen), (by decide : 0 < 2 * slotPerBucket ^ 0)⟩
    · exact ⟨h2, (by decide : 0 < maxBfsPathLen), (by decide : 1 < 2 * slotPerBucket ^ 0)⟩
  room := by
    change 2 + (descendants 4 + (descendants 4 + 0)) ≤ maxCuckooCount
    decide

/-- A path code with one more slot still fits. -/
theorem BSlot.Ok.extend {hp slot : Nat} {x : BSlot} (h : x.Ok hp) (hslot : slot < slotPerBucket) :
    x.extend slot = x.pathcode * slotPerBucket + slot ∧
      x.extend slot < 2 * slotPerBucket ^ (x.depth + 1) := by
  have hlt : x.pathcode * slotPerBucket + slot < 2 * slotPerBucket ^ (x.depth + 1) := by
    have := h.pathcode
    rw [Nat.pow_succ, ← Nat.mul_assoc]
    calc x.pathcode * slotPerBucket + slot < x.pathcode * slotPerBucket + slotPerBucket := by omega
      _ = (x.pathcode + 1) * slotPerBucket := (Nat.succ_mul _ _).symm
      _ ≤ 2 * slotPerBucket ^ x.depth * slotPerBucket := Nat.mul_le_mul_right _ this
  have hpow : 2 * slotPerBucket ^ (x.depth + 1) ≤ 2 * slotPerBucket ^ maxBfsPathLen :=
    Nat.mul_le_mul_left 2 (Nat.pow_le_pow_right (by decide) h.depth)
  have hmax : 2 * slotPerBucket ^ maxBfsPathLen < 2 ^ 16 := by decide
  have heq : x.extend slot = x.pathcode * slotPerBucket + slot :=
    Nat.mod_eq_of_lt (Nat.lt_trans (Nat.lt_of_lt_of_le hlt hpow) hmax)
  exact ⟨heq, by rwa [heq]⟩

theorem BSlot.below_child {x : BSlot} (h : x.depth < maxBfsPathLen - 1) :
    x.below = slotPerBucket * (descendants (maxBfsPathLen - 1 - (x.depth + 1)) + 1) := by
  rw [below]
  obtain ⟨k, hk⟩ : ∃ k, maxBfsPathLen - 1 - x.depth = k + 1 :=
    ⟨maxBfsPathLen - 2 - x.depth, by omega⟩
  rw [hk, descendants, show maxBfsPathLen - 1 - (x.depth + 1) = k by omega]

/-- What one bucket gives: an empty slot, or its elements in the queue. -/
def ScanOk (hp : Nat) (b : Bucket K V) (x : BSlot) : BSlot ⊕ BQueue → Prop
  | .inl y => ∃ slot, slot < slotPerBucket ∧ b slot = none ∧ y = ⟨x.bucket, x.extend slot, x.depth⟩
  | .inr q => q.Ok hp

theorem scanSlots_spec {hp cost : Nat} {b : Bucket K V} {x : BSlot} (hx : x.Ok hp)
    (hcost : x.depth < maxBfsPathLen - 1 →
      descendants (maxBfsPathLen - 1 - (x.depth + 1)) + 1 ≤ cost) (is : List Nat) :
    ∀ {q : BQueue}, (∀ y ∈ q.slots, y.Ok hp) →
      q.last + (q.slots.map BSlot.below).sum + is.length * cost ≤ maxCuckooCount →
      ∃ r, scanSlots hp b x is q = some r ∧ ScanOk hp b x r := by
  -- on the slots that are left, with room for each of them and all that may follow it
  induction is with
  | nil =>
    intro q hitems hroom
    exact ⟨.inr q, rfl, hitems, by simpa using hroom⟩
  | cons i is ih =>
    intro q hitems hroom
    rw [List.length_cons, Nat.succ_mul] at hroom
    have hslot : (x.pathcode % slotPerBucket + i) % slotPerBucket < slotPerBucket :=
      Nat.mod_lt _ (by decide)
    rw [scanSlots]
    generalize (x.pathcode % slotPerBucket + i) % slotPerBucket = slot at hslot
    cases hcell : b slot with
    | none => exact ⟨_, rfl, slot, hslot, hcell, rfl⟩
    | some e =>
      by_cases hdepth : x.depth < maxBfsPathLen - 1
      · have hcost := hcost hdepth
        have hroom' : ¬ q.last = maxCuckooCount := by omega
        simp only [if_pos hdepth, BQueue.enqueue, if_neg hroom', Option.bind_some]
        refine ih ?_ ?_
        · intro y hy
          rcases List.mem_append.mp hy with hy | hy
          · exact hitems y hy
          · rw [List.mem_singleton.mp hy]
            exact ⟨altIndex_lt hp _ _, Nat.add_lt_of_lt_sub hdepth, (hx.extend hslot).2⟩
        · rw [List.map_append, List.sum_append, List.map_singleton, List.sum_singleton]
          dsimp only [BSlot.below]
          omega
      · simp only [if_neg hdepth]
        exact ih hitems (by omega)

/-- One turn of `slot_search` succeeds. -/
theorem scan_spec {hp last : Nat} {b : Bucket K V} {x : BSlot} {rest : List BSlot}
    (h : BQueue.Ok hp ⟨x :: rest, last⟩) :
    ∃ r, scanSlots hp b x (List.range slotPerBucket) ⟨rest, last⟩ = some r ∧ ScanOk hp b x r := by
  have hx := h.items x List.mem_cons_self
  have hitems : ∀ y ∈ rest, y.Ok hp := fun y hy => h.items y (List.mem_cons_of_mem x hy)
  have hroom := h.room
  rw [List.map_cons, List.sum_cons] at hroom
  by_cases hdepth : x.depth < maxBfsPathLen - 1
  · refine scanSlots_spec hx (fun _ => Nat.le_refl _) _ hitems ?_
    rw [List.length_range, ← x.below_child hdepth]
    dsimp only at hroom ⊢
    omega
  · have hcost : x.depth < maxBfsPathLen - 1 →
        descendants (maxBfsPathLen - 1 - (x.depth + 1)) + 1 ≤ 0 := fun h => absurd h hdepth
    refine scanSlots_spec hx hcost _ hitems ?_
    dsimp only at hroom ⊢
    omega

/-! ## Path codes -/

/-- The slots of a path code, and the bucket it starts in. -/
theorem pathSlots_spec (n : Nat) : ∀ (code : Nat) (slots : List Nat),
    (∀ s ∈ slots, s < slotPerBucket) →
    (pathSlots n code slots).2 = code / slotPerBucket ^ n ∧
      (pathSlots n code slots).1.length = n + slots.length ∧
      ∀ s ∈ (pathSlots n code slots).1, s < slotPerBucket := by
  induction n with
  | zero =>
    intro code slots h
    exact ⟨(Nat.div_one code).symm, (Nat.zero_add _).symm, h⟩
  | succ n ih =>
    intro code slots h
    have hmod : code % slotPerBucket < slotPerBucket := Nat.mod_lt _ (by decide)
    obtain ⟨hrest, hlen, hlt⟩ := ih (code / slotPerBucket) (code % slotPerBucket :: slots) (by
      intro s hs
      rcases List.mem_cons.mp hs with rfl | hs
      · exact hmod
      · exact h s hs)
    refine ⟨?_, ?_, hlt⟩
    · rw [pathSlots, hrest, Nat.div_div_eq_div_mul, Nat.pow_succ, Nat.mul_comm]
    · rw [pathSlots, hlen, List.length_cons]
      omega

/-! ## Paths -/

/-- A record of the path leads to a bucket. -/
structure CuckooRecord.Leads (hp : Nat) (r : CuckooRecord) (bucket : Nat) : Prop where
  next : bucket = altIndex hp r.hv.partialKey r.bucket
  hash : r.hv.partialKey = partialKey r.hv.hash

/-- The records of a path. -/
structure PathOk (cfg : Config K) (key : K) (hp : Nat) (path : List CuckooRecord) : Prop where
  first : ∀ r, path[0]? = some r → Home hp (cfg.hashedKey key) r.bucket
  inRange : ∀ r ∈ path, r.bucket < hashsize hp ∧ r.slot < slotPerBucket
  link : ∀ j r r', path[j]? = some r → path[j + 1]? = some r' → r.Leads hp r'.bucket

/-- A bucket that may come next on a path. -/
def PathNext (cfg : Config K) (key : K) (hp : Nat) (path : List CuckooRecord) (bucket : Nat) :
    Prop :=
  (path = [] → Home hp (cfg.hashedKey key) bucket) ∧
    ∀ r, path[path.length - 1]? = some r → r.Leads hp bucket

theorem PathOk.nil {cfg : Config K} {key : K} {hp : Nat} : PathOk cfg key hp [] where
  first r h := by cases h
  inRange r h := by cases h
  link j r r' h := by cases h

theorem PathOk.snoc {cfg : Config K} {key : K} {hp : Nat} {path : List CuckooRecord}
    (h : PathOk cfg key hp path) {r : CuckooRecord} (hnext : PathNext cfg key hp path r.bucket)
    (hr : r.bucket < hashsize hp ∧ r.slot < slotPerBucket) : PathOk cfg key hp (path ++ [r]) := by
  refine ⟨?_, ?_, ?_⟩
  · intro r₀ h₀
    cases path with
    | nil =>
      cases h₀
      exact hnext.1 rfl
    | cons a path => exact h.first r₀ h₀
  · intro r' hr'
    rcases List.mem_append.mp hr' with hr' | hr'
    · exact h.inRange r' hr'
    · rw [List.mem_singleton.mp hr']
      exact hr
  · intro j r₁ r₂ h₁ h₂
    rcases Nat.lt_trichotomy (j + 1) path.length with hlt | heq | hgt
    · rw [List.getElem?_append_left (by omega)] at h₁
      rw [List.getElem?_append_left hlt] at h₂
      exact h.link j r₁ r₂ h₁ h₂
    · -- the new record comes after the last one
      rw [List.getElem?_append_left (by omega)] at h₁
      rw [heq, List.getElem?_append_right (Nat.le_refl _), Nat.sub_self] at h₂
      cases h₂
      refine hnext.2 r₁ ?_
      rwa [show path.length - 1 = j by omega]
    · rw [List.getElem?_eq_none (by rw [List.length_append, List.length_singleton]; omega)] at h₂
      cases h₂

end LogDirect.Cuckoo
