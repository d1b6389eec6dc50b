import LogDirect.Cuckoo.Table
import LogDirect.Lib.Cells
import LogDirect.Lib.Loops

/-!
# libcuckoo: moving the old buckets

The loop of `rehash_lock` and `move_bucket` (`cuckoohash_map.h`, lines 954–974 and
1756–1800), for any set of old buckets, one after the other. The cells of the smaller and
of the larger table are taken together: an element that is moved leaves a cell of the one
and goes into an empty cell of the other, so the map they keep is the same after every
slot.

In the code the elements stay in the old buckets when they are moved. The old cells here
(`o` below) are those that still count; the lock of a bucket says later which ones do.
-/

namespace LogDirect.Cuckoo

open Lib Lib.Cells

variable {K V : Type}

/-- The elements are in buckets of their keys, with the right byte. -/
def Placed (cfg : Config K) (hp : Nat) (c : Nat × Nat → Option (Entry K V)) : Prop :=
  ∀ i slot e, c (i, slot) = some e →
    slot < slotPerBucket ∧ e.partialKey = (cfg.hashedKey e.key).partialKey ∧
      Home hp (cfg.hashedKey e.key) i

theorem Placed.update {cfg : Config K} {hp i slot : Nat} {c : Nat × Nat → Option (Entry K V)}
    {e : Entry K V} (h : Placed cfg hp c) (hslot : slot < slotPerBucket)
    (htag : e.partialKey = (cfg.hashedKey e.key).partialKey)
    (hhome : Home hp (cfg.hashedKey e.key) i) :
    Placed cfg hp (Function.update c (i, slot) (some e)) := by
  intro j s e' he'
  by_cases hp : (j, s) = (i, slot)
  · rw [hp, Function.update_self] at he'
    cases hp
    cases he'
    exact ⟨hslot, htag, hhome⟩
  · rw [Function.update_of_ne hp] at he'
    exact h j s e' he'

theorem Placed.erase {cfg : Config K} {hp : Nat} {c : Nat × Nat → Option (Entry K V)}
    (h : Placed cfg hp c) (p : Nat × Nat) : Placed cfg hp (Function.update c p none) := by
  intro j s e' he'
  by_cases hp : (j, s) = p
  · rw [hp, Function.update_self] at he'
    cases he'
  · rw [Function.update_of_ne hp] at he'
    exact h j s e' he'

theorem BucketContainer.setKV_eq {b : BucketContainer K V} {i slot : Nat} (e : Entry K V)
    (hi : i < b.size) (hslot : slot < slotPerBucket) (hfree : b.cells (i, slot) = none) :
    b.setKV i slot e = some ⟨b.hashpower, Function.update b.cells (i, slot) (some e)⟩ := by
  rw [setKV, if_pos ⟨hi, hslot, by rw [hfree]; rfl⟩]

/-- The map is kept by the old cells that still count and the new ones together. -/
abbrev Both (o c : Nat × Nat → Option (Entry K V)) (m : K → Option V) (n : Nat) : Prop :=
  Keeps Entry.key Entry.mapped (Sum.elim o c) m n

variable [DecidableEq K] {cfg : Config K} {m : K → Option V} {n : Nat}

/-- An element goes from an old cell to a new one. -/
theorem Both.move {o c : Nat × Nat → Option (Entry K V)} (h : Both o c m n) {p q : Nat × Nat}
    {e : Entry K V} (hp : o p = some e) (hq : c q = none) :
    Both (Function.update o p none) (Function.update c q (some e)) m n := by
  have hmove := Keeps.move h (p := .inl p) (q := .inr q) hp hq
  rwa [Sum.update_elim_inr, Sum.update_elim_inl] at hmove

/-! ## One slot -/

/-- The bucket an element of the old bucket goes to, `above` being the test of `move_bucket`. -/
theorem home_of_moveSlot {hp i : Nat} {hv : HashValue} (h : Home hp hv i) :
    let ihash := indexHash (hp + 1) hv.hash
    let above := (i = indexHash hp hv.hash ∧ ihash = i + hashsize hp) ∨
      (i = altIndex hp hv.partialKey (indexHash hp hv.hash) ∧
        altIndex (hp + 1) hv.partialKey ihash = i + hashsize hp)
    (above ∧ Home (hp + 1) hv (i + hashsize hp)) ∨
      (¬ above ∧ Home (hp + 1) hv i ∧
        ((i = indexHash hp hv.hash ∧ ihash = indexHash hp hv.hash) ∨
          (i = altIndex hp hv.partialKey (indexHash hp hv.hash) ∧
            altIndex (hp + 1) hv.partialKey ihash =
              altIndex hp hv.partialKey (indexHash hp hv.hash)))) := by
  intro ihash above
  by_cases habove : above
  · left
    refine ⟨habove, ?_⟩
    rcases habove with ⟨-, h'⟩ | ⟨-, h'⟩
    · exact .inl h'.symm
    · exact .inr h'.symm
  · right
    refine ⟨habove, ?_⟩
    -- the bucket that led here has not gone up, so it is where it was
    rcases h with rfl | rfl
    · have hmod : ihash % hashsize hp = indexHash hp hv.hash := indexHash_mod hp hv.hash
      rcases eq_or_eq_add (indexHash_lt (hp + 1) hv.hash) hmod with hsame | hup
      · exact ⟨.inl hsame.symm, .inl ⟨rfl, hsame⟩⟩
      · exact absurd (.inl ⟨rfl, hup⟩) habove
    · have hmod : altIndex (hp + 1) hv.partialKey ihash % hashsize hp =
          altIndex hp hv.partialKey (indexHash hp hv.hash) := by
        rw [altIndex_mod, indexHash_mod]
      rcases eq_or_eq_add (altIndex_lt (hp + 1) _ _) hmod with hsame | hup
      · exact ⟨.inr hsame.symm, .inr ⟨rfl, hsame⟩⟩
      · exact absurd (.inr ⟨rfl, hup⟩) habove

/-- The state of `move_bucket` before a slot: the slots before it have left the old cells,
the bucket itself is free from the slot on, and the bucket above from its next free slot
on. -/
structure Moving (cfg : Config K) (old : BucketContainer K V) (o : Nat × Nat → Option (Entry K V))
    (new : BucketContainer K V) (m : K → Option V) (n i slot : Nat) (b : BucketContainer K V)
    (next : Nat) : Prop where
  both : Both (fun p => if p.1 = i ∧ p.2 < slot then none else o p) b.cells m n
  placed : Placed cfg (old.hashpower + 1) b.cells
  hashpower : b.hashpower = old.hashpower + 1
  le : next ≤ slot
  free : ∀ s, slot ≤ s → b.cells (i, s) = none
  freeAbove : ∀ s, next ≤ s → b.cells (i + old.size, s) = none
  frame : ∀ j s, j % old.size ≠ i → b.cells (j, s) = new.cells (j, s)

section

variable {old new b : BucketContainer K V} {o : Nat × Nat → Option (Entry K V)} {i slot next : Nat}
  {e : Entry K V}

omit [DecidableEq K] in
/-- The old cells lose the slot. -/
theorem clear_slot (o : Nat × Nat → Option (Entry K V)) (i slot : Nat) :
    Function.update (fun p => if p.1 = i ∧ p.2 < slot then none else o p) (i, slot) none =
      fun p => if p.1 = i ∧ p.2 < slot + 1 then none else o p := by
  funext ⟨j, s⟩
  by_cases hp : (j, s) = (i, slot)
  · rw [hp, Function.update_self]
    simp
  · rw [Function.update_of_ne hp]
    have hiff : (j = i ∧ s < slot) ↔ (j = i ∧ s < slot + 1) := by
      refine and_congr_right fun hj => ⟨fun h => Nat.lt_succ_of_lt h, fun h => ?_⟩
      refine lt_of_le_of_ne (Nat.le_of_lt_succ h) fun hs => hp ?_
      rw [hj, hs]
    simp only [hiff]

omit [DecidableEq K] in
/-- Nothing is in the slot. -/
theorem Moving.skip (h : Moving cfg old o new m n i slot b next) (hcell : o (i, slot) = none) :
    Moving cfg old o new m n i (slot + 1) b next := by
  refine ⟨?_, h.placed, h.hashpower, Nat.le_succ_of_le h.le,
    fun s hs => h.free s (Nat.le_of_succ_le hs), h.freeAbove, h.frame⟩
  have hsame : Function.update (fun p => if p.1 = i ∧ p.2 < slot then none else o p)
      (i, slot) none = fun p => if p.1 = i ∧ p.2 < slot then none else o p := by
    rw [Function.update_eq_self_iff]
    simp [hcell]
  rw [← clear_slot, hsame]
  exact h.both

/-- The element goes to the next free slot of the bucket above. -/
theorem Moving.above (h : Moving cfg old o new m n i slot b next) (hcell : o (i, slot) = some e)
    (hi : i < old.size) (hnext : next < slotPerBucket)
    (htag : e.partialKey = (cfg.hashedKey e.key).partialKey)
    (hhome : Home (old.hashpower + 1) (cfg.hashedKey e.key) (i + old.size)) :
    Moving cfg old o new m n i (slot + 1)
      ⟨b.hashpower, Function.update b.cells (i + old.size, next) (some e)⟩ (next + 1) where
  both := by
    rw [← clear_slot]
    exact h.both.move (by simpa using hcell) (h.freeAbove next (Nat.le_refl _))
  placed := h.placed.update hnext htag hhome
  hashpower := h.hashpower
  le := Nat.succ_le_succ h.le
  free s hs := by
    have hne : (i, s) ≠ (i + old.size, next) := by
      simp only [ne_eq, Prod.mk.injEq, not_and]
      omega
    exact (Function.update_of_ne hne _ _).trans (h.free s (Nat.le_of_succ_le hs))
  freeAbove s hs := by
    have hne : (i + old.size, s) ≠ (i + old.size, next) := by
      simp only [ne_eq, Prod.mk.injEq, not_and]
      omega
    exact (Function.update_of_ne hne _ _).trans (h.freeAbove s (Nat.le_of_succ_le hs))
  frame j s hj := by
    have hne : (j, s) ≠ (i + old.size, next) := by
      rintro heq
      rw [(Prod.mk.inj heq).1, Nat.add_mod_right, Nat.mod_eq_of_lt hi] at hj
      exact hj rfl
    exact (Function.update_of_ne hne _ _).trans (h.frame j s hj)

/-- The element goes to the same slot of the same bucket. -/
theorem Moving.stay (h : Moving cfg old o new m n i slot b next) (hcell : o (i, slot) = some e)
    (hi : i < old.size) (hslot : slot < slotPerBucket)
    (htag : e.partialKey = (cfg.hashedKey e.key).partialKey)
    (hhome : Home (old.hashpower + 1) (cfg.hashedKey e.key) i) :
    Moving cfg old o new m n i (slot + 1)
      ⟨b.hashpower, Function.update b.cells (i, slot) (some e)⟩ next where
  both := by
    rw [← clear_slot]
    exact h.both.move (by simpa using hcell) (h.free slot (Nat.le_refl _))
  placed := h.placed.update hslot htag hhome
  hashpower := h.hashpower
  le := Nat.le_succ_of_le h.le
  free s hs := by
    have hne : (i, s) ≠ (i, slot) := by
      simp only [ne_eq, Prod.mk.injEq, not_and]
      omega
    exact (Function.update_of_ne hne _ _).trans (h.free s (Nat.le_of_succ_le hs))
  freeAbove s hs := by
    have hne : (i + old.size, s) ≠ (i, slot) := by
      simp only [ne_eq, Prod.mk.injEq, not_and]
      omega
    exact (Function.update_of_ne hne _ _).trans (h.freeAbove s hs)
  frame j s hj := by
    have hne : (j, s) ≠ (i, slot) := by
      rintro heq
      rw [(Prod.mk.inj heq).1, Nat.mod_eq_of_lt hi] at hj
      exact hj rfl
    exact (Function.update_of_ne hne _ _).trans (h.frame j s hj)

theorem moveSlot_spec (hi : i < old.size) (hslot : slot < slotPerBucket)
    (hold : o (i, slot) = old.cells (i, slot)) (hplaced : Placed cfg old.hashpower old.cells)
    (h : Moving cfg old o new m n i slot b next) :
    ∃ b' next', Table.moveSlot cfg old i (b, next) slot = some (b', next') ∧
      Moving cfg old o new m n i (slot + 1) b' next' := by
  have hsize : b.size = 2 * old.size := by
    rw [BucketContainer.size, h.hashpower, hashsize_succ]
    rfl
  cases hcell : old.cells (i, slot) with
  | none => exact ⟨b, next, by rw [Table.moveSlot, hcell], h.skip (hold.trans hcell)⟩
  | some e =>
    obtain ⟨-, htag, hhome⟩ := hplaced i slot e hcell
    have hcell' : o (i, slot) = some e := hold.trans hcell
    rcases home_of_moveSlot hhome with ⟨habove, hhome'⟩ | ⟨habove, hhome', hstay⟩
    · have hnext : next < slotPerBucket := Nat.lt_of_le_of_lt h.le hslot
      have hset := b.setKV_eq e (by omega) hnext (h.freeAbove next (Nat.le_refl _))
      refine ⟨_, next + 1, ?_, h.above hcell' hi hnext htag hhome'⟩
      rw [← h.hashpower] at habove
      rw [Table.moveSlot, hcell]
      dsimp only
      rw [if_pos habove, ← BucketContainer.size, hset]
      rfl
    · have hset := b.setKV_eq e (by omega) hslot (h.free slot (Nat.le_refl _))
      refine ⟨_, next, ?_, h.stay hcell' hi hslot htag hhome'⟩
      rw [← h.hashpower] at habove hstay
      rw [Table.moveSlot, hcell]
      dsimp only
      rw [if_neg habove, if_pos hstay, hset]
      rfl

/-! ## Buckets -/

/-- The old cells without those of some buckets. -/
def clearBuckets (is : List Nat) (o : Nat × Nat → Option (Entry K V)) :
    Nat × Nat → Option (Entry K V) :=
  fun p => if p.1 ∈ is then none else o p

/-- A bucket of the old table is moved, and no cell outside it and the bucket above it
changes. -/
theorem moveBucket_spec (hi : i < old.size) (hold : ∀ s, o (i, s) = old.cells (i, s))
    (hplaced : Placed cfg old.hashpower old.cells) (hboth : Both o new.cells m n)
    (hnew : Placed cfg (old.hashpower + 1) new.cells) (hhp : new.hashpower = old.hashpower + 1)
    (hfree : ∀ j s, j % old.size = i → new.cells (j, s) = none) :
    ∃ b, Table.moveBucket cfg old new i = some b ∧ Both (clearBuckets [i] o) b.cells m n ∧
      Placed cfg (old.hashpower + 1) b.cells ∧ b.hashpower = old.hashpower + 1 ∧
      ∀ j s, j % old.size ≠ i → b.cells (j, s) = new.cells (j, s) := by
  have hstart : Moving cfg old o new m n i 0 new 0 :=
    ⟨by simpa using hboth, hnew, hhp, Nat.le_refl 0, fun s _ => hfree i s (Nat.mod_eq_of_lt hi),
      fun s _ => hfree _ s (by rw [Nat.add_mod_right, Nat.mod_eq_of_lt hi]), fun _ _ _ => rfl⟩
  obtain ⟨acc, hfold, hend⟩ := foldlM_range
    (f := Table.moveSlot cfg old i) (b := (new, 0)) (n := slotPerBucket)
    (fun slot acc => Moving cfg old o new m n i slot acc.1 acc.2) hstart
    (fun slot acc hslot h => by
      obtain ⟨b', next', hstep, h'⟩ := moveSlot_spec hi hslot (hold slot) hplaced h
      exact ⟨(b', next'), hstep, h'⟩)
  refine ⟨acc.1, by rw [Table.moveBucket, hfold]; rfl, ?_, hend.placed, hend.hashpower, hend.frame⟩
  -- there are no more slots, so the whole bucket has been cleared
  have hclear : clearBuckets [i] o =
      fun p => if p.1 = i ∧ p.2 < slotPerBucket then none else o p := by
    funext ⟨j, s⟩
    simp only [clearBuckets, List.mem_singleton]
    by_cases hj : j = i
    · subst hj
      by_cases hs : s < slotPerBucket
      · simp [hs]
      · simp only [hs, and_false, if_false, if_true]
        cases hcell : o (j, s) with
        | none => rfl
        | some e => exact absurd (hplaced j s e ((hold s).symm.trans hcell)).1 hs
    · simp [hj]
  rw [hclear]
  exact hend.both

omit [DecidableEq K] in
theorem clearBuckets_nil (o : Nat × Nat → Option (Entry K V)) : clearBuckets [] o = o := by
  funext p
  simp [clearBuckets]

omit [DecidableEq K] in
theorem clearBuckets_append (is : List Nat) (i : Nat) (o : Nat × Nat → Option (Entry K V)) :
    clearBuckets [i] (clearBuckets is o) = clearBuckets (is ++ [i]) o := by
  funext p
  by_cases hi : p.1 = i <;> by_cases his : p.1 ∈ is <;> simp [clearBuckets, hi, his]

/-- What holds after the old buckets `is` have been moved. -/
structure Moved (cfg : Config K) (old : BucketContainer K V) (o : Nat × Nat → Option (Entry K V))
    (new : BucketContainer K V) (m : K → Option V) (n : Nat) (is : List Nat)
    (b : BucketContainer K V) : Prop where
  both : Both (clearBuckets is o) b.cells m n
  placed : Placed cfg (old.hashpower + 1) b.cells
  hashpower : b.hashpower = old.hashpower + 1
  frame : ∀ j s, j % old.size ∉ is → b.cells (j, s) = new.cells (j, s)

/-- Any old buckets, one after the other. -/
theorem moveBuckets_spec {is : List Nat} (hnodup : is.Nodup) (hlt : ∀ i ∈ is, i < old.size)
    (hold : ∀ i ∈ is, ∀ s, o (i, s) = old.cells (i, s))
    (hplaced : Placed cfg old.hashpower old.cells)
    (hboth : Both o new.cells m n) (hnew : Placed cfg (old.hashpower + 1) new.cells)
    (hhp : new.hashpower = old.hashpower + 1)
    (hfree : ∀ j s, j % old.size ∈ is → new.cells (j, s) = none) :
    ∃ b, is.foldlM (Table.moveBucket cfg old) new = some b ∧ Moved cfg old o new m n is b := by
  have hstart : Moved cfg old o new m n [] new :=
    ⟨by rwa [clearBuckets_nil], hnew, hhp, fun _ _ _ => rfl⟩
  refine foldlM_some (Moved cfg old o new m n) hstart fun pre i post b his h => ?_
  subst his
  have hmem : i ∈ pre ++ i :: post := by simp
  have hpre : i ∉ pre := fun hi => by
    have := (List.nodup_append.mp hnodup).2.2 i hi i (by simp)
    exact this rfl
  -- the bucket has not been touched, in either table
  obtain ⟨b', hmove, hboth', hplaced', hhp', hframe⟩ := moveBucket_spec (hlt i hmem)
    (fun s => by rw [clearBuckets, if_neg hpre, hold i hmem s]) hplaced h.both h.placed h.hashpower
    (fun j s hj => by rw [h.frame j s (by rwa [hj]), hfree j s (by rwa [hj])])
  refine ⟨b', hmove, ?_, hplaced', hhp', fun j s hj => ?_⟩
  · rwa [clearBuckets_append] at hboth'
  · rw [List.mem_append, List.mem_singleton, not_or] at hj
    rw [hframe j s hj.2, h.frame j s hj.1]

end

end LogDirect.Cuckoo
