import LogDirect.Cuckoo.Invariant
import LogDirect.Cuckoo.Threads

/-!
# libcuckoo: what is done under the locks

With the locks of the two buckets of a key taken, those buckets are all there is to look
at: a key that is in neither is in no bucket, old or new (`Core.inBuckets`). So
`cuckoo_find` and the first half of `cuckoo_insert` decide whether the map has the key,
and each change of a slot is one of the map.
-/

namespace LogDirect.Cuckoo

open Lib Lib.Cells

variable {K V : Type} {cfg : Config K} {m : K → Option V}

namespace Table

variable {t : Table K V}

theorem home_i1 (cfg : Config K) (hp : Nat) (key : K) :
    Home hp (cfg.hashedKey key) (i1 cfg hp key) := .inl rfl

theorem home_i2 (cfg : Config K) (hp : Nat) (key : K) :
    Home hp (cfg.hashedKey key) (i2 cfg hp key) := .inr rfl

/-- The locks of the two buckets of a key are migrated. -/
structure Locked (cfg : Config K) (t : Table K V) (key : K) : Prop where
  first : t.isMigrated (lockInd (i1 cfg t.hashpower key)) = true
  second : t.isMigrated (lockInd (i2 cfg t.hashpower key)) = true

variable {key : K}

theorem Locked.home (h : Locked cfg t key) {i : Nat} (hi : Home t.hashpower (cfg.hashedKey key) i) :
    t.isMigrated (lockInd i) = true := by
  rcases hi with rfl | rfl
  · exact h.first
  · exact h.second

/-- No old bucket that still counts has the key. -/
theorem Core.not_old (h : Core cfg t m) (hlocked : Locked cfg t key) {p : Nat × Nat} {e : Entry K V}
    (he : t.oldCells p = some e) : e.key ≠ key := by
  rintro rfl
  rw [oldCells] at he
  split at he
  · cases he
  · rename_i hmig
    rw [Bool.not_eq_true] at hmig
    obtain ⟨-, old, hold, hhp, hbig⟩ := h.pending _ hmig
    rw [hold, Option.bind_some] at he
    have hhome := (h.oldPlaced old hold p.1 p.2 e he).2.2
    -- the bucket in the old table has the lock of a bucket in the new one
    have hlock : t.isMigrated (lockInd p.1) = true := by
      rcases hhome with h1 | h2
      · rw [h1, ← indexHash_mod, lockInd_mod hbig, hhp]
        exact hlocked.first
      · rw [h2, ← indexHash_mod, ← altIndex_mod, lockInd_mod hbig, hhp]
        exact hlocked.second
    rw [hlock] at hmig
    cases hmig

/-- The key is in one of its two buckets or not in the map. -/
theorem Core.inBuckets (h : Core cfg t m) (hlocked : Locked cfg t key)
    (hno : ∀ i s e, (i = i1 cfg t.hashpower key ∨ i = i2 cfg t.hashpower key) →
      t.buckets.cells (i, s) = some e → e.key ≠ key) : m key = none := by
  refine h.both.absent fun p e hp => ?_
  cases p with
  | inl p => exact h.not_old hlocked hp
  | inr p =>
    rintro rfl
    exact hno p.1 p.2 e (h.placed p.1 p.2 e hp).2.2 hp rfl

theorem get_eq {i : Nat} (hi : i < hashsize t.hashpower) :
    t.buckets.get i = some fun slot => t.buckets.cells (i, slot) :=
  if_pos hi

section

variable [DecidableEq K]

variable {s i : Nat} {key : K} {e : Entry K V}

omit [DecidableEq K] in
theorem mem_range_slots : s ∈ List.range slotPerBucket ↔ s < slotPerBucket :=
  List.mem_range

/-! ## Looking for a key -/

/-- The comparisons of a slot find the key and nothing else. -/
theorem slotMatches_iff (htag : e.partialKey = (cfg.hashedKey e.key).partialKey) :
    slotMatches cfg (cfg.hashedKey key).partialKey key e = true ↔ e.key = key := by
  rw [slotMatches, Bool.and_eq_true, decide_eq_true_iff]
  refine ⟨And.right, fun hk => ⟨?_, hk⟩⟩
  rw [htag, hk, beq_self_eq_true, Bool.or_true]

theorem tryReadFromBucket_spec (hplaced : Placed cfg t.hashpower t.buckets.cells) (i : Nat)
    (key : K) :
    (∃ s e, tryReadFromBucket cfg (fun slot => t.buckets.cells (i, slot))
        (cfg.hashedKey key).partialKey key = some s ∧ t.buckets.cells (i, s) = some e ∧
          e.key = key) ∨
      (tryReadFromBucket cfg (fun slot => t.buckets.cells (i, slot))
        (cfg.hashedKey key).partialKey key = none ∧
        ∀ s e, t.buckets.cells (i, s) = some e → e.key ≠ key) := by
  rw [tryReadFromBucket]
  cases hfind : (List.range slotPerBucket).find? fun s =>
      (t.buckets.cells (i, s)).any (slotMatches cfg (cfg.hashedKey key).partialKey key) with
  | some s =>
    left
    have hs := List.find?_some hfind
    cases he : t.buckets.cells (i, s) with
    | none =>
      rw [he] at hs
      cases hs
    | some e =>
      rw [he] at hs
      exact ⟨s, e, rfl, he, (slotMatches_iff (hplaced i s e he).2.1).mp hs⟩
  | none =>
    right
    refine ⟨rfl, fun s e he hk => ?_⟩
    obtain ⟨hslot, htag, -⟩ := hplaced i s e he
    refine List.find?_eq_none.mp hfind s (mem_range_slots.mpr hslot) ?_
    rw [he]
    exact (slotMatches_iff htag).mpr hk

/-- What `cuckoo_find` finds. -/
def FindOk (t : Table K V) (m : K → Option V) (key : K) : Option (Nat × Nat) → Prop
  | some p => ∃ e, t.buckets.cells p = some e ∧ e.key = key ∧ m key = some e.mapped
  | none => m key = none

/-- `cuckoo_find` finds the key if the map has it. -/
theorem Core.cuckooFind (h : Core cfg t m) (hlocked : Locked cfg t key) :
    ∃ pos, t.cuckooFind cfg key (cfg.hashedKey key).partialKey (i1 cfg t.hashpower key)
      (i2 cfg t.hashpower key) = some pos ∧ FindOk t m key pos := by
  rw [Table.cuckooFind, get_eq (home_i1 cfg t.hashpower key).lt, Option.bind_some,
    get_eq (home_i2 cfg t.hashpower key).lt]
  refine ⟨_, rfl, ?_⟩
  rcases tryReadFromBucket_spec h.placed (i1 cfg t.hashpower key) key with
    ⟨s, e, hread, he, hk⟩ | ⟨hread, hno1⟩
  · simp only [hread]
    exact ⟨e, he, hk, hk ▸ h.both.shows (.inr _) e he⟩
  · rcases tryReadFromBucket_spec h.placed (i2 cfg t.hashpower key) key with
      ⟨s, e, hread2, he, hk⟩ | ⟨hread2, hno2⟩
    · simp only [hread, hread2]
      exact ⟨e, he, hk, hk ▸ h.both.shows (.inr _) e he⟩
    · simp only [hread, hread2]
      refine h.inBuckets hlocked ?_
      rintro i s e (rfl | rfl) he
      · exact hno1 s e he
      · exact hno2 s e he

/-! ## A place for a key -/

/-- What a slot found by `try_find_insert_bucket` says of the slots looked at. -/
def SlotOk (b : Bucket K V) (key : K) (is : List Nat) : Slot → Prop
  | .duplicated s => ∃ e, b s = some e ∧ e.key = key
  | .empty s => b s = none ∧ s < slotPerBucket ∧ ∀ j ∈ is, ∀ e, b j = some e → e.key ≠ key
  | .full => ∀ j ∈ is, ∀ e, b j = some e → e.key ≠ key

theorem tryFindInsertBucket_spec {b : Bucket K V}
    (htag : ∀ s e, b s = some e → e.partialKey = (cfg.hashedKey e.key).partialKey) (is : List Nat) :
    ∀ {done : List Nat} {slot : Slot}, (∀ s, slot ≠ .duplicated s) → (∀ i ∈ is, i < slotPerBucket) →
      SlotOk b key done slot →
      SlotOk b key (done ++ is)
        (tryFindInsertBucket cfg b (cfg.hashedKey key).partialKey key is slot) := by
  -- on the slots that are left; `done` are the ones before them
  induction is with
  | nil =>
    intro done slot _ _ h
    rw [List.append_nil]
    exact h
  | cons i is ih =>
    intro done slot hslot hlt h
    have hdone : ∀ j ∈ done, ∀ e, b j = some e → e.key ≠ key := by
      cases slot with
      | duplicated s => exact absurd rfl (hslot s)
      | empty s => exact h.2.2
      | full => exact h
    have hlt' : ∀ j ∈ is, j < slotPerBucket := fun j hj => hlt j (List.mem_cons_of_mem i hj)
    have hstep : ∀ slot', (∀ s, slot' ≠ .duplicated s) → SlotOk b key (done ++ [i]) slot' →
        SlotOk b key (done ++ i :: is)
          (tryFindInsertBucket cfg b (cfg.hashedKey key).partialKey key is slot') := by
      intro slot' hslot' hok
      have := ih hslot' hlt' hok
      rwa [List.append_assoc] at this
    have hsnoc : (∀ e, b i = some e → e.key ≠ key) →
        ∀ j ∈ done ++ [i], ∀ e, b j = some e → e.key ≠ key := by
      intro hi j hj
      rcases List.mem_append.mp hj with hj | hj
      · exact hdone j hj
      · rw [List.mem_singleton.mp hj]
        exact hi
    rw [tryFindInsertBucket]
    cases hi : b i with
    | some e =>
      dsimp only
      split
      · rename_i hmatch
        exact ⟨e, hi, (slotMatches_iff (htag i e hi)).mp hmatch⟩
      · rename_i hmatch
        have hne : ∀ e', b i = some e' → e'.key ≠ key := by
          intro e' he' hk
          rw [hi] at he'
          cases he'
          exact hmatch ((slotMatches_iff (htag i e hi)).mpr hk)
        refine hstep slot hslot ?_
        cases slot with
        | duplicated s => exact absurd rfl (hslot s)
        | empty s => exact ⟨h.1, h.2.1, hsnoc hne⟩
        | full => exact hsnoc hne
    | none =>
      refine hstep (.empty i) (fun s hs => by cases hs) ⟨hi, hlt i List.mem_cons_self, hsnoc ?_⟩
      intro e he
      rw [hi] at he
      cases he

/-- A bucket as `try_find_insert_bucket` sees it. -/
theorem findInsert_spec (hplaced : Placed cfg t.hashpower t.buckets.cells) (i : Nat) (key : K) :
    SlotOk (fun slot => t.buckets.cells (i, slot)) key (List.range slotPerBucket)
      (tryFindInsertBucket cfg (fun slot => t.buckets.cells (i, slot))
        (cfg.hashedKey key).partialKey key (List.range slotPerBucket) .full) := by
  have hstart : SlotOk (fun slot => t.buckets.cells (i, slot)) key [] .full := by
    intro j hj
    cases hj
  exact tryFindInsertBucket_spec (fun s e he => (hplaced i s e he).2.1) (List.range slotPerBucket)
    (fun s hs => by cases hs) (fun s hs => mem_range_slots.mp hs) hstart

/-- What `cuckoo_insert` finds. -/
def PlaceOk (cfg : Config K) (t : Table K V) (m : K → Option V) (key : K) : Place → Prop
  | .duplicated i s => ∃ e, t.buckets.cells (i, s) = some e ∧ e.key = key
  | .ok i s => (i = i1 cfg t.hashpower key ∨ i = i2 cfg t.hashpower key) ∧ s < slotPerBucket ∧
      t.buckets.cells (i, s) = none ∧ m key = none
  | .full => True

omit [DecidableEq K] in
/-- The key is in no slot of the two buckets. -/
theorem Core.absent (h : Core cfg t m) (hlocked : Locked cfg t key)
    (hno1 : ∀ j ∈ List.range slotPerBucket, ∀ e,
      t.buckets.cells (i1 cfg t.hashpower key, j) = some e → e.key ≠ key)
    (hno2 : ∀ j ∈ List.range slotPerBucket, ∀ e,
      t.buckets.cells (i2 cfg t.hashpower key, j) = some e → e.key ≠ key) : m key = none := by
  refine h.inBuckets hlocked ?_
  rintro i s e hi he
  have hs := mem_range_slots.mpr (h.placed i s e he).1
  rcases hi with rfl | rfl
  · exact hno1 s hs e he
  · exact hno2 s hs e he

theorem Core.cuckooInsert (h : Core cfg t m) (hlocked : Locked cfg t key) :
    ∃ place, t.cuckooInsert cfg key (cfg.hashedKey key).partialKey (i1 cfg t.hashpower key)
      (i2 cfg t.hashpower key) = some place ∧ PlaceOk cfg t m key place := by
  rw [Table.cuckooInsert, get_eq (home_i1 cfg t.hashpower key).lt, Option.bind_some,
    get_eq (home_i2 cfg t.hashpower key).lt]
  refine ⟨_, rfl, ?_⟩
  dsimp only
  have hone := findInsert_spec h.placed (i1 cfg t.hashpower key) key
  have htwo := findInsert_spec h.placed (i2 cfg t.hashpower key) key
  revert hone htwo
  generalize tryFindInsertBucket cfg (fun slot => t.buckets.cells (i1 cfg t.hashpower key, slot)) _
    key _ _ = res1
  generalize tryFindInsertBucket cfg (fun slot => t.buckets.cells (i2 cfg t.hashpower key, slot)) _
    key _ _ = res2
  intro hone htwo
  cases res1 with
  | duplicated s => exact hone
  | empty s =>
    cases res2 with
    | duplicated s' => exact htwo
    | empty s' => exact ⟨.inl rfl, hone.2.1, hone.1, h.absent hlocked hone.2.2 htwo.2.2⟩
    | full => exact ⟨.inl rfl, hone.2.1, hone.1, h.absent hlocked hone.2.2 htwo⟩
  | full =>
    cases res2 with
    | duplicated s' => exact htwo
    | empty s' => exact ⟨.inr rfl, htwo.2.1, htwo.1, h.absent hlocked hone htwo.2.2⟩
    | full => exact trivial

/-! ## Changing a slot -/

omit [DecidableEq K] in
/-- The sum of the counters, when one of them changes. -/
theorem sum_update (f : Nat → Int) {l n : Nat} (hl : l < n) (x : Int) :
    ((List.range n).map (Function.update f l x)).sum = ((List.range n).map f).sum + (x - f l) := by
  induction n with
  | zero => exact absurd hl (Nat.not_lt_zero l)
  | succ n ih =>
    rw [List.range_succ, List.map_append, List.map_append, List.sum_append, List.sum_append]
    rcases Nat.lt_or_eq_of_le (Nat.le_of_lt_succ hl) with hlt | rfl
    · rw [ih hlt]
      simp [Nat.ne_of_gt hlt]
      omega
    · have hsame : (List.range l).map (Function.update f l x) = (List.range l).map f := by
        refine List.map_congr_left fun j hj => ?_
        rw [Function.update_of_ne (Nat.ne_of_lt (List.mem_range.mp hj))]
      rw [hsame]
      simp

omit [DecidableEq K] in
/-- An occupied bucket is migrated. -/
theorem Core.migrated (h : Core cfg t m) (he : t.buckets.cells (i, s) = some e) :
    t.isMigrated (lockInd i) = true := by
  by_contra hmig
  rw [Bool.not_eq_true] at hmig
  rw [h.fresh i s hmig] at he
  cases he

/-- The table with other cells and counters. -/
def setCells (t : Table K V) (c : Nat × Nat → Option (Entry K V)) (counter : Nat → Int) :
    Table K V :=
  { t with buckets := ⟨t.buckets.hashpower, c⟩, elemCounter := counter }

omit [DecidableEq K] in
/-- A change of the current cells, as far as it has to be looked at. -/
theorem Inv.setCells (h : Inv cfg t m) {m' : K → Option V} {c : Nat × Nat → Option (Entry K V)}
    {counter : Nat → Int} (hboth : Both t.oldCells c m' (t.setCells c counter).size.toNat)
    (hnonneg : 0 ≤ (t.setCells c counter).size) (hplaced : Placed cfg t.hashpower c)
    (hfresh : ∀ i s, t.isMigrated (lockInd i) = false → c (i, s) = none) :
    Inv cfg (t.setCells c counter) m' where
  both := hboth
  nonneg := hnonneg
  placed := hplaced
  oldPlaced := h.oldPlaced
  fresh := hfresh
  locks := h.locks
  pending := h.pending
  remaining := h.remaining

omit [DecidableEq K] in
theorem fresh_update (h : Core cfg t m) (hmig : t.isMigrated (lockInd i) = true)
    (x : Option (Entry K V)) : ∀ j s', t.isMigrated (lockInd j) = false →
      Function.update t.buckets.cells (i, s) x (j, s') = none := by
  intro j s' hj
  have hne : (j, s') ≠ (i, s) := by
    rintro heq
    rw [(Prod.mk.inj heq).1, hmig] at hj
    cases hj
  rw [Function.update_of_ne hne]
  exact h.fresh j s' hj

omit [DecidableEq K] in
theorem Core.size_setCells (h : Core cfg t m) (hi : i < hashsize t.hashpower)
    (c : Nat × Nat → Option (Entry K V)) (x : Int) :
    (t.setCells c (Function.update t.elemCounter (lockInd i) x)).size =
      t.size + (x - t.elemCounter (lockInd i)) :=
  sum_update t.elemCounter (h.lockInd_lt hi) x

/-- `add_to_bucket` of a new key, into an empty slot of one of its buckets. -/
theorem Inv.addToBucket (h : Inv cfg t m) (val : V) (hlocked : Locked cfg t key)
    (hi : Home t.hashpower (cfg.hashedKey key) i) (hs : s < slotPerBucket)
    (hfree : t.buckets.cells (i, s) = none) (hkey : m key = none) :
    ∃ t', t.addToBucket i s ⟨(cfg.hashedKey key).partialKey, key, val⟩ = some t' ∧
      Inv cfg t' (Function.update m key (some val)) ∧ t'.hashpower = t.hashpower ∧
      t'.buckets.cells (i, s) = some ⟨(cfg.hashedKey key).partialKey, key, val⟩ := by
  have hput := Keeps.put h.both (p := .inr (i, s))
    (e := ⟨(cfg.hashedKey key).partialKey, key, val⟩) hfree hkey
  rw [Sum.update_elim_inr] at hput
  have hsize := h.size_setCells hi.lt (Function.update t.buckets.cells (i, s)
    (some ⟨(cfg.hashedKey key).partialKey, key, val⟩)) (t.elemCounter (lockInd i) + 1)
  have hnonneg := h.nonneg
  refine ⟨t.setCells _ _, by rw [Table.addToBucket, t.buckets.setKV_eq _ hi.lt hs hfree]; rfl,
    h.setCells ?_ (by omega) (h.placed.update hs rfl hi)
      (fresh_update h.toCore (hlocked.home hi) _), rfl, Function.update_self ..⟩
  rw [show (t.setCells _ _).size.toNat = t.size.toNat + 1 by omega]
  exact hput

/-- `del_from_bucket` of an element. -/
theorem Inv.delFromBucket (h : Inv cfg t m) (he : t.buckets.cells (i, s) = some e) :
    ∃ t', t.delFromBucket i s = some t' ∧ Inv cfg t' (Function.update m e.key none) ∧
      t'.hashpower = t.hashpower := by
  have hdel := Keeps.erase h.both (p := .inr (i, s)) he
  rw [Sum.update_elim_inr] at hdel
  have hpos := Keeps.count_pos h.both (p := .inr (i, s)) he
  have hsize := h.size_setCells (h.placed i s e he).2.2.lt
    (Function.update t.buckets.cells (i, s) none) (t.elemCounter (lockInd i) - 1)
  have herase : t.buckets.eraseKV i s = some ⟨t.buckets.hashpower, _⟩ := if_pos (by rw [he]; rfl)
  refine ⟨t.setCells _ _, by rw [Table.delFromBucket, herase]; rfl,
    h.setCells ?_ (by omega) (h.placed.erase _) (fresh_update h.toCore (h.migrated he) _), rfl⟩
  rw [show (t.setCells _ _).size.toNat = t.size.toNat - 1 by omega]
  exact hdel

/-- The value of an element is replaced. -/
theorem Inv.setMapped (h : Inv cfg t m) (he : t.buckets.cells (i, s) = some e) (v : V) :
    Inv cfg (t.setMapped i s e v) (Function.update m e.key (some v)) := by
  obtain ⟨hs, htag, hhome⟩ := h.placed i s e he
  have hkey : Entry.key { e with mapped := v } = e.key := rfl
  have hmod := Keeps.modify h.both (p := .inr (i, s)) he hkey
  rw [Sum.update_elim_inr] at hmod
  exact h.setCells hmod h.nonneg (h.placed.update hs htag hhome)
    (fresh_update h.toCore (h.migrated he) _)

/-- What a function of the caller does to the map. -/
def applyFn (m : K → Option V) (key : K) (fn : V → V × Bool) (v : V) : K → Option V :=
  Function.update m key (if (fn v).2 then none else some (fn v).1)

theorem Inv.invoke (h : Inv cfg t m) (he : t.buckets.cells (i, s) = some e) (fn : V → V × Bool) :
    ∃ t', t.invoke i s fn = some t' ∧ Inv cfg t' (applyFn m e.key fn e.mapped) ∧
      t'.hashpower = t.hashpower := by
  have hset := h.setMapped he (fn e.mapped).1
  rw [Table.invoke, he]
  dsimp only
  rw [applyFn]
  cases hdel : (fn e.mapped).2 with
  | false => exact ⟨_, rfl, hset, rfl⟩
  | true =>
    have he' : (t.setMapped i s e (fn e.mapped).1).buckets.cells (i, s) =
        some { e with mapped := (fn e.mapped).1 } := Function.update_self ..
    obtain ⟨t', hdel', hinv, hhp⟩ := hset.delFromBucket he'
    rw [Function.update_idem] at hinv
    exact ⟨t', hdel', hinv, hhp⟩

/-- One element goes from a slot to an empty one of its other bucket. -/
theorem Inv.moveCell (h : Inv cfg t m) {j s' : Nat} (he : t.buckets.cells (i, s) = some e)
    (hfree : t.buckets.cells (j, s') = none) (hj : Home t.hashpower (cfg.hashedKey e.key) j)
    (hs' : s' < slotPerBucket) (hmig : t.isMigrated (lockInd j) = true) :
    Inv cfg (t.setCells
      (Function.update (Function.update t.buckets.cells (j, s') (some e)) (i, s) none)
      t.elemCounter) m := by
  have hmove := Keeps.move h.both (p := .inr (i, s)) (q := .inr (j, s')) he hfree
  rw [Sum.update_elim_inr, Sum.update_elim_inr] at hmove
  refine h.setCells hmove h.nonneg ((h.placed.update hs' (h.placed i s e he).2.1 hj).erase _) ?_
  intro k r hk
  by_cases hp : (k, r) = (i, s)
  · rw [hp, Function.update_self]
  · rw [Function.update_of_ne hp]
    exact fresh_update h.toCore hmig _ k r hk

end

end Table

end LogDirect.Cuckoo
