import LogDirect.Cuckoo.Migrate
import Mathlib.Algebra.BigOperators.Group.List.Basic
import Mathlib.Data.Finset.Card

/-!
# libcuckoo: what a table keeps

The table represents a map. Its elements are in the current buckets, or in old buckets
whose lock has not been migrated; taken together no key is there twice, every element is
in a bucket of its key, and the buckets of a lock that has not been migrated are still
empty. The counters of the locks add up to the number of elements: one of them may be
negative, since an element that is moved along a path is not counted again.

`rehash_lock` and `cuckoo_fast_double` change the table and not the map.
-/

namespace LogDirect.Cuckoo

open Lib Lib.Cells

variable {K V : Type}

namespace Table

/-- The old cells that still count. -/
def oldCells (t : Table K V) : Nat × Nat → Option (Entry K V) :=
  fun p => if t.isMigrated (lockInd p.1) then none else t.oldBuckets.bind fun b => b.cells p

/-- A table for the map `m`, apart from the number of locks that remain. -/
structure Core (cfg : Config K) (t : Table K V) (m : K → Option V) : Prop where
  both : Both t.oldCells t.buckets.cells m t.size.toNat
  nonneg : 0 ≤ t.size
  placed : Placed cfg t.hashpower t.buckets.cells
  oldPlaced : ∀ old, t.oldBuckets = some old → Placed cfg old.hashpower old.cells
  fresh : ∀ i s, t.isMigrated (lockInd i) = false → t.buckets.cells (i, s) = none
  locks : t.numLocks = min (hashsize t.hashpower) kMaxNumLocks
  pending : ∀ l, t.isMigrated l = false → l < t.numLocks ∧ ∃ old, t.oldBuckets = some old ∧
    old.hashpower + 1 = t.hashpower ∧ kMaxNumLocks ≤ old.size

/-- The locks that have not been migrated. -/
def unmigrated (t : Table K V) : Finset Nat :=
  (Finset.range t.numLocks).filter fun l => t.isMigrated l = false

/-- A table for the map `m`. -/
structure Inv (cfg : Config K) (t : Table K V) (m : K → Option V) : Prop extends Core cfg t m where
  remaining : t.numRemaining = t.unmigrated.card

/-- What taking a lock leaves as it is: the buckets that have been migrated before. -/
structure Kept (t t' : Table K V) : Prop where
  hashpower : t'.hashpower = t.hashpower
  migrated : ∀ l, t.isMigrated l = true → t'.isMigrated l = true
  cells : ∀ i s, t.isMigrated (lockInd i) = true → t'.buckets.cells (i, s) = t.buckets.cells (i, s)

theorem Kept.refl (t : Table K V) : t.Kept t := ⟨rfl, fun _ h => h, fun _ _ _ => rfl⟩

theorem Kept.trans {t₁ t₂ t₃ : Table K V} (h : t₁.Kept t₂) (h' : t₂.Kept t₃) : t₁.Kept t₃ where
  hashpower := h'.hashpower.trans h.hashpower
  migrated l hl := h'.migrated l (h.migrated l hl)
  cells i s hi := (h'.cells i s (h.migrated _ hi)).trans (h.cells i s hi)

variable {cfg : Config K} {t : Table K V} {m : K → Option V}

theorem mem_unmigrated {l : Nat} : l ∈ t.unmigrated ↔ l < t.numLocks ∧ t.isMigrated l = false := by
  rw [unmigrated, Finset.mem_filter, Finset.mem_range]

theorem setMigrated_isMigrated {b : BucketContainer K V} {l l' : Nat} :
    (t.setMigrated b l).isMigrated l' = false ↔ l' ≠ l ∧ t.isMigrated l' = false := by
  by_cases hl : l' = l <;> simp [setMigrated, hl]

/-- The counters add up to the number of keys. -/
theorem Core.size_eq (h : Core cfg t m) : t.size = (keys m).ncard := by
  rw [h.both.keys_ncard.2, Int.toNat_of_nonneg h.nonneg]

theorem Core.lockInd_lt (h : Core cfg t m) {i : Nat} (hi : i < hashsize t.hashpower) :
    lockInd i < t.numLocks := by
  rw [h.locks, Nat.lt_min]
  refine ⟨?_, Cuckoo.lockInd_lt i⟩
  rw [lockInd_eq]
  exact Nat.lt_of_le_of_lt (Nat.mod_le _ _) hi

/-- Once every lock has been migrated the old cells do not count. -/
theorem oldCells_of_migrated (hall : ∀ l, t.isMigrated l = true) : t.oldCells = fun _ => none := by
  funext p
  rw [oldCells, if_pos (hall _)]

/-- Then the old buckets can go. -/
theorem Core.freeOld (h : Core cfg t m) (hall : ∀ l, t.isMigrated l = true) :
    Core cfg t.freeOld m where
  both := by
    rw [oldCells_of_migrated (show ∀ l, t.freeOld.isMigrated l = true from hall),
      ← oldCells_of_migrated hall]
    exact h.both
  nonneg := h.nonneg
  placed := h.placed
  oldPlaced old hold := by cases hold
  fresh := h.fresh
  locks := h.locks
  pending l hl := by
    rw [show t.freeOld.isMigrated l = true from hall l] at hl
    cases hl

/-! ## The buckets of a lock -/

theorem mem_stripe {l size i : Nat} (hl : l < kMaxNumLocks) :
    i ∈ stripe l size ↔ i < size ∧ lockInd i = l := by
  have hpos : 0 < kMaxNumLocks := hashsize_pos 16
  rw [stripe, List.mem_range', lockInd_eq]
  constructor
  · rintro ⟨j, hj, rfl⟩
    have hle := (Nat.le_div_iff_mul_le hpos).mp hj
    rw [Nat.succ_mul, Nat.mul_comm] at hle
    refine ⟨by omega, ?_⟩
    rw [Nat.add_mul_mod_self_left, Nat.mod_eq_of_lt hl]
  · rintro ⟨hi, rfl⟩
    have hsum := Nat.mod_add_div i kMaxNumLocks
    refine ⟨i / kMaxNumLocks, (Nat.le_div_iff_mul_le hpos).mpr ?_, hsum.symm⟩
    rw [Nat.succ_mul, Nat.mul_comm]
    omega

theorem nodup_stripe (l size : Nat) : (stripe l size).Nodup :=
  List.nodup_range' kMaxNumLocks (hashsize_pos 16)

variable [DecidableEq K]

/-- A lock that has not been migrated has its buckets moved. -/
theorem Core.migrate (h : Core cfg t m) {l : Nat} (hl : t.isMigrated l = false) :
    ∃ b, (∀ isLazy, rehashLock cfg isLazy t l =
        if isLazy then (t.setMigrated b l).decrement else some (t.setMigrated b l)) ∧
      t.Kept (t.setMigrated b l) ∧ Core cfg (t.setMigrated b l) m := by
  obtain ⟨hlt, old, hold, hhp, hbig⟩ := h.pending l hl
  have hsize : hashsize t.hashpower = 2 * old.size := by
    rw [← hhp, hashsize_succ]
    rfl
  have hnum : t.numLocks = kMaxNumLocks := by
    rw [h.locks, hsize]
    omega
  have hmem : ∀ i, i ∈ stripe l old.size ↔ i < old.size ∧ lockInd i = l :=
    fun i => mem_stripe (by rwa [hnum] at hlt)
  have hplaced := h.oldPlaced old hold
  have hcells : ∀ p, lockInd p.1 = l → t.oldCells p = old.cells p := by
    intro p hp
    rw [oldCells, hp, hl, hold]
    rfl
  obtain ⟨b, hfold, hmoved⟩ := moveBuckets_spec (nodup_stripe l old.size)
    (fun i hi => ((hmem i).mp hi).1) (fun i hi s => hcells (i, s) ((hmem i).mp hi).2) hplaced h.both
    (by rw [hhp]; exact h.placed) hhp.symm
    (fun j s hj => h.fresh j s (by rw [← lockInd_mod hbig]; exact ((hmem _).mp hj).2 ▸ hl))
  have hbhp : b.hashpower = t.hashpower := hmoved.hashpower.trans hhp
  -- the old cells that still count are those of the other locks
  have hclear : oldCells (t.setMigrated b l) =
      clearBuckets (stripe l old.size) t.oldCells := by
    funext ⟨j, s⟩
    by_cases hj : lockInd j = l
    · have hnone : oldCells (t.setMigrated b l)
          (j, s) = none := by
        simp [oldCells, setMigrated, hj]
      rw [hnone, clearBuckets]
      split
      · rfl
      · rename_i hout
        rw [hcells (j, s) hj]
        cases hcell : old.cells (j, s) with
        | none => rfl
        | some e => exact absurd ((hmem j).mpr ⟨(hplaced j s e hcell).2.2.lt, hj⟩) hout
    · have hout : j ∉ stripe l old.size := fun hin => hj ((hmem j).mp hin).2
      rw [clearBuckets, if_neg hout]
      simp [oldCells, setMigrated, hj]
  -- and the new ones of the other locks have not changed
  have hframe : ∀ i s, lockInd i ≠ l → b.cells (i, s) = t.buckets.cells (i, s) := by
    intro i s hne
    refine hmoved.frame i s fun hin => hne ?_
    exact (lockInd_mod hbig i).symm.trans ((hmem _).mp hin).2
  have hkept : t.Kept (t.setMigrated b l) := by
    refine ⟨hbhp, fun l' hl' => ?_, fun i s hi => hframe i s fun heq => ?_⟩
    · by_contra hnot
      exact absurd (setMigrated_isMigrated.mp (Bool.eq_false_of_not_eq_true hnot)).2
        (by rw [hl']; decide)
    · rw [heq, hl] at hi
      cases hi
  refine ⟨b, ?_, hkept, ?_, h.nonneg, ?_, h.oldPlaced, ?_, ?_, ?_⟩
  · intro isLazy
    rw [rehashLock, if_neg (by rw [hl]; exact Bool.false_ne_true), hold]
    dsimp only
    rw [if_pos ⟨hnum, hhp, hbig⟩, hfold]
    rfl
  · rw [hclear]
    exact hmoved.both
  · change Placed cfg b.hashpower b.cells
    rw [hmoved.hashpower]
    exact hmoved.placed
  · intro i s hi
    obtain ⟨hne, hi⟩ := setMigrated_isMigrated.mp hi
    exact (hframe i s hne).trans (h.fresh i s hi)
  · change t.numLocks = min (hashsize b.hashpower) kMaxNumLocks
    rw [hbhp]
    exact h.locks
  · intro l' hl'
    obtain ⟨-, hl'⟩ := setMigrated_isMigrated.mp hl'
    obtain ⟨hlt', old', hold', hhp', hbig'⟩ := h.pending l' hl'
    exact ⟨hlt', old', hold', hhp'.trans hbhp.symm, hbig'⟩

/-- `rehash_lock` outside a lazy rehash. -/
theorem Core.rehashLock (h : Core cfg t m) (l : Nat) :
    ∃ t', rehashLock cfg false t l = some t' ∧ Core cfg t' m ∧ t'.hashpower = t.hashpower ∧
      t'.numLocks = t.numLocks ∧ t'.isMigrated = Function.update t.isMigrated l true := by
  cases hl : t.isMigrated l with
  | true =>
    refine ⟨t, by rw [Table.rehashLock, if_pos hl], h, rfl, rfl, ?_⟩
    rw [eq_comm, Function.update_eq_self_iff, hl]
  | false =>
    obtain ⟨b, hb, hkept, hcore⟩ := h.migrate hl
    exact ⟨_, hb false, hcore, hkept.hashpower, rfl, rfl⟩

/-- `rehash_lock` when a lock is taken. -/
theorem Inv.rehashLock (h : Inv cfg t m) (l : Nat) :
    ∃ t', Table.rehashLock cfg true t l = some t' ∧ Inv cfg t' m ∧ t.Kept t' ∧
      t'.numLocks = t.numLocks ∧ t'.isMigrated = Function.update t.isMigrated l true := by
  cases hl : t.isMigrated l with
  | true =>
    refine ⟨t, by rw [Table.rehashLock, if_pos hl], h, .refl t, rfl, ?_⟩
    rw [eq_comm, Function.update_eq_self_iff, hl]
  | false =>
    obtain ⟨b, hb, hkept, hcore⟩ := h.migrate hl
    have hlt := (h.pending l hl).1
    -- one lock fewer remains
    have hmem : l ∈ t.unmigrated := mem_unmigrated.mpr ⟨hlt, hl⟩
    have herase : unmigrated (t.setMigrated b l) =
        t.unmigrated.erase l := by
      ext l'
      rw [Finset.mem_erase, mem_unmigrated, mem_unmigrated, setMigrated_isMigrated]
      exact and_left_comm
    have hcard : (t.unmigrated.erase l).card = t.numRemaining - 1 := by
      rw [Finset.card_erase_of_mem hmem, h.remaining]
    have hpos : t.numRemaining ≠ 0 := by
      rw [h.remaining]
      exact Finset.card_ne_zero_of_mem hmem
    have hdec := (hb true).trans ((if_pos rfl).trans (if_neg hpos))
    have hcard' : (t.setMigrated b l).unmigrated.card = t.numRemaining - 1 := by rw [herase, hcard]
    by_cases hone : t.numRemaining = 1
    · -- the last one: the old buckets are freed
      have hall : ∀ l', (t.setMigrated b l).isMigrated l' = true := by
        intro l'
        by_contra hl'
        rw [Bool.not_eq_true] at hl'
        have hin := mem_unmigrated.mpr ⟨(hcore.pending l' hl').1, hl'⟩
        rw [hone, Finset.card_eq_zero] at hcard'
        rw [hcard'] at hin
        exact absurd hin (Finset.notMem_empty l')
      rw [hone] at hcard'
      exact ⟨_, hdec.trans (if_pos hone), ⟨hcore.freeOld hall, hcard'.symm⟩,
        ⟨hkept.hashpower, hkept.migrated, hkept.cells⟩, rfl, rfl⟩
    · refine ⟨_, hdec.trans (if_neg hone), ⟨?_, hcard'.symm⟩,
        ⟨hkept.hashpower, hkept.migrated, hkept.cells⟩, rfl, rfl⟩
      exact ⟨hcore.both, hcore.nonneg, hcore.placed, hcore.oldPlaced, hcore.fresh, hcore.locks,
        hcore.pending⟩

/-! ## Taking locks -/

/-- Locks that are taken are migrated. -/
theorem Inv.lockAt (h : Inv cfg t m) {ls : List Nat} (hls : ∀ l ∈ ls, l < t.numLocks) :
    ∃ t', t.lockAt cfg t.hashpower ls = some (some t') ∧ Inv cfg t' m ∧
      t.Kept t' ∧ ∀ l ∈ ls, t'.isMigrated l = true := by
  obtain ⟨t', hfold, hinv, hkept, hmig⟩ := foldlM_some (f := Table.rehashLock cfg true) (b := t)
    (l := ls) (fun pre t' => Inv cfg t' m ∧ t.Kept t' ∧ ∀ l ∈ pre, t'.isMigrated l = true)
    ⟨h, .refl t, by simp⟩
    (fun pre l post t₁ _ h₁ => by
      obtain ⟨hinv, hkept, hmig⟩ := h₁
      obtain ⟨t₂, hstep, hinv', hkept', -, hupd⟩ := hinv.rehashLock l
      refine ⟨t₂, hstep, hinv', hkept.trans hkept', fun l' hl' => ?_⟩
      rw [hupd]
      by_cases heq : l' = l
      · rw [heq, Function.update_self]
      · rw [Function.update_of_ne heq]
        rcases List.mem_append.mp hl' with hpre | hlast
        · exact hmig l' hpre
        · exact absurd (List.mem_singleton.mp hlast) heq)
  exact ⟨t', by rw [Table.lockAt, if_pos hls, if_pos rfl, hfold]; rfl, hinv, hkept, hmig⟩

omit [DecidableEq K] in
/-- The table has been doubled since. -/
theorem lockAt_changed {hp : Nat} {ls : List Nat} (hls : ∀ l ∈ ls, l < t.numLocks)
    (hhp : t.hashpower ≠ hp) : t.lockAt cfg hp ls = some none := by
  rw [Table.lockAt, if_pos hls, if_neg hhp]

/-! ## Doubling -/

omit [DecidableEq K] in
/-- A sum over more locks, the new ones being zero. -/
theorem sum_extend (f : Nat → Int) {n n' : Nat} (h : n ≤ n') :
    ((List.range n').map fun l => if l < n then f l else 0).sum = ((List.range n).map f).sum := by
  obtain ⟨k, rfl⟩ := Nat.exists_eq_add_of_le h
  induction k with
  | zero =>
    refine congrArg List.sum (List.map_congr_left fun l hl => ?_)
    rw [if_pos (by simpa using hl)]
  | succ k ih =>
    rw [← Nat.add_assoc, List.range_succ, List.map_append, List.sum_append,
      ih (Nat.le_add_right n k)]
    simp

omit [DecidableEq K] in
/-- `maybe_resize_locks` before the table becomes twice as large. -/
theorem maybeResizeLocks_spec (hlocks : t.numLocks = min (hashsize t.hashpower) kMaxNumLocks)
    (hall : ∀ l, t.isMigrated l = true) :
    let t' := t.maybeResizeLocks (hashsize (t.hashpower + 1))
    t'.numLocks = min (hashsize (t.hashpower + 1)) kMaxNumLocks ∧ t'.size = t.size ∧
      (∀ l, t'.isMigrated l = true) ∧ t'.buckets = t.buckets := by
  have hpos := hashsize_pos t.hashpower
  intro t'
  by_cases hsmall : t.numLocks < kMaxNumLocks ∧ t.numLocks < hashsize (t.hashpower + 1)
  · have ht' : t' = _ := if_pos hsmall
    rw [ht']
    refine ⟨Nat.min_comm _ _, ?_, fun l => ?_, rfl⟩
    · refine sum_extend t.elemCounter ?_
      change t.numLocks ≤ min kMaxNumLocks (hashsize (t.hashpower + 1))
      omega
    · change (if l < t.numLocks then t.isMigrated l else true) = true
      rw [hall l, ite_self]
  · have ht' : t' = t := if_neg hsmall
    rw [ht']
    refine ⟨?_, rfl, hall, rfl⟩
    rw [hashsize_succ] at hsmall ⊢
    omega

omit [DecidableEq K] in
/-- The current cells become the old ones. -/
theorem both_swap {c : Nat × Nat → Option (Entry K V)} {n : Nat} (h : Both (fun _ => none) c m n) :
    Both c (fun _ => none) m n := by
  have hren := Keeps.rename h (Equiv.sumComm (Nat × Nat) (Nat × Nat))
  have heq : Sum.elim (fun _ => none) c ∘ Equiv.sumComm (Nat × Nat) (Nat × Nat) =
      Sum.elim c fun _ => none := by
    funext p
    cases p <;> rfl
  rwa [heq] at hren

omit [DecidableEq K] in
/-- The table of twice the size, with everything moved. -/
theorem inv_allMoved {b : BucketContainer K V} (hboth : Both (fun _ => none) b.cells m t.size.toNat)
    (hnonneg : 0 ≤ t.size) (hplaced : Placed cfg b.hashpower b.cells)
    (hlocks : t.numLocks = min (hashsize b.hashpower) kMaxNumLocks)
    (hall : ∀ l, t.isMigrated l = true) : Inv cfg (t.allMoved b) m where
  both := by
    rw [oldCells_of_migrated (t := t.allMoved b) hall]
    exact hboth
  nonneg := hnonneg
  placed := hplaced
  oldPlaced old hold := by cases hold
  fresh i s hi := absurd ((hall _).symm.trans hi) Bool.noConfusion
  locks := hlocks
  pending l hl := absurd ((hall l).symm.trans hl) Bool.noConfusion
  remaining := by
    symm
    rw [show (t.allMoved b).numRemaining = 0 from rfl, Finset.card_eq_zero,
      Finset.eq_empty_iff_forall_notMem]
    intro l hl
    exact absurd ((hall l).symm.trans (mem_unmigrated.mp hl).2) Bool.noConfusion

omit [DecidableEq K] in
/-- The table of twice the size, with everything still to be moved. -/
theorem inv_noneMoved (hboth : Both (fun _ => none) t.buckets.cells m t.size.toNat)
    (hnonneg : 0 ≤ t.size) (hplaced : Placed cfg t.hashpower t.buckets.cells)
    (hlocks : t.numLocks = min (hashsize (t.hashpower + 1)) kMaxNumLocks)
    (hall : ∀ l, t.isMigrated l = true) (hbig : kMaxNumLocks ≤ t.buckets.size) :
    Inv cfg (t.noneMoved (t.hashpower + 1)) m := by
  have hnum : t.numLocks = kMaxNumLocks := by
    have : t.buckets.size = hashsize t.hashpower := rfl
    rw [hlocks, hashsize_succ]
    omega
  have hmig : ∀ l, (t.noneMoved (t.hashpower + 1)).isMigrated l = false ↔ l < t.numLocks := by
    intro l
    by_cases hl : l < t.numLocks <;> simp [noneMoved, hl, hall]
  have hold : (t.noneMoved (t.hashpower + 1)).oldCells = t.buckets.cells := by
    funext p
    rw [oldCells, (hmig _).mpr (by rw [hnum]; exact Cuckoo.lockInd_lt p.1)]
    rfl
  refine ⟨⟨?_, hnonneg, ?_, ?_, fun _ _ _ => rfl, hlocks, ?_⟩, ?_⟩
  · rw [hold]
    exact both_swap hboth
  · intro i s e he
    cases he
  · intro old hold
    cases hold
    exact hplaced
  · intro l hl
    exact ⟨(hmig l).mp hl, t.buckets, rfl, rfl, hbig⟩
  · have hunm : (t.noneMoved (t.hashpower + 1)).unmigrated = Finset.range t.numLocks :=
      Finset.filter_true_of_mem fun l hl => (hmig l).mpr (Finset.mem_range.mp hl)
    rw [hunm, Finset.card_range]
    rfl

theorem newBuckets_spec (hboth : Both (fun _ => none) t.buckets.cells m t.size.toNat)
    (hnonneg : 0 ≤ t.size) (hplaced : Placed cfg t.hashpower t.buckets.cells)
    (hlocks : t.numLocks = min (hashsize (t.hashpower + 1)) kMaxNumLocks)
    (hall : ∀ l, t.isMigrated l = true) :
    ∃ t', t.newBuckets cfg (t.hashpower + 1) = some t' ∧ Inv cfg t' m ∧
      t'.hashpower = t.hashpower + 1 := by
  by_cases hsmall : t.buckets.size < kMaxNumLocks
  · have hlt : ∀ i ∈ List.range t.buckets.size, i < t.buckets.size :=
      fun i hi => List.mem_range.mp hi
    have hcreate : Placed cfg (t.hashpower + 1)
        (BucketContainer.create (t.hashpower + 1) : BucketContainer K V).cells := by
      intro i s e he
      cases he
    obtain ⟨b, hfold, hmoved⟩ := moveBuckets_spec List.nodup_range hlt (fun _ _ _ => rfl) hplaced
      (both_swap hboth) hcreate rfl (fun _ _ _ => rfl)
    have hbhp : b.hashpower = t.hashpower + 1 := hmoved.hashpower
    -- all of the old buckets have been cleared
    have hclear : clearBuckets (List.range t.buckets.size) t.buckets.cells = fun _ => none := by
      funext ⟨i, s⟩
      rw [clearBuckets]
      split
      · rfl
      · rename_i hout
        cases hcell : t.buckets.cells (i, s) with
        | none => rfl
        | some e => exact absurd (List.mem_range.mpr (hplaced i s e hcell).2.2.lt) hout
    refine ⟨t.allMoved b, by rw [newBuckets, if_pos hsmall, hfold]; rfl, ?_, hbhp⟩
    refine inv_allMoved ?_ hnonneg (hbhp ▸ hmoved.placed) (hbhp ▸ hlocks) hall
    rw [← hclear]
    exact hmoved.both
  · exact ⟨t.noneMoved (t.hashpower + 1), by rw [newBuckets, if_neg hsmall],
      inv_noneMoved hboth hnonneg hplaced hlocks hall (Nat.le_of_not_lt hsmall), rfl⟩

/-- `cuckoo_fast_double` keeps the map, and makes the table larger if nothing speaks against
it. -/
theorem Inv.cuckooFastDouble (h : Inv cfg t m) (hp : Nat) :
    ∃ t', t.cuckooFastDouble cfg hp = some (t.checkResizeValidity cfg hp (hp + 1), t') ∧
      Inv cfg t' m ∧ ((t.checkResizeValidity cfg hp (hp + 1) = .ok ∧ t.hashpower = hp ∧
        t'.hashpower = t.hashpower + 1) ∨
      (t.checkResizeValidity cfg hp (hp + 1) ≠ .ok ∧ t' = t)) := by
  cases hst : t.checkResizeValidity cfg hp (hp + 1) with
  | threw =>
    exact ⟨t, by rw [Table.cuckooFastDouble, hst], h, .inr ⟨by simp, rfl⟩⟩
  | underExpansion =>
    exact ⟨t, by rw [Table.cuckooFastDouble, hst], h, .inr ⟨by simp, rfl⟩⟩
  | ok =>
    have hhp : t.hashpower = hp := by
      by_contra hne
      rw [checkResizeValidity] at hst
      split at hst
      · cases hst
      · split at hst
        · cases hst
        · cases hst
    subst hhp
    -- the rest of the last rehash
    obtain ⟨t₁, hfold, hcore, hhp₁, hnum₁, hmig⟩ := foldlM_range (f := Table.rehashLock cfg false)
      (b := t) (n := t.numLocks)
      (fun i t' => Core cfg t' m ∧ t'.hashpower = t.hashpower ∧ t'.numLocks = t.numLocks ∧
        ∀ l, l < i → t'.isMigrated l = true)
      ⟨h.toCore, rfl, rfl, fun l hl => absurd hl (Nat.not_lt_zero l)⟩
      (fun i t' _ h' => by
        obtain ⟨hcore, hhp, hnum, hmig⟩ := h'
        obtain ⟨t'', hstep, hcore', hhp', hnum', hupd⟩ := hcore.rehashLock i
        refine ⟨t'', hstep, hcore', hhp'.trans hhp, hnum'.trans hnum, fun l hl => ?_⟩
        rw [hupd]
        by_cases heq : l = i
        · rw [heq, Function.update_self]
        · rw [Function.update_of_ne heq]
          exact hmig l (by omega))
    have hall : ∀ l, t₁.isMigrated l = true := by
      intro l
      by_contra hl
      rw [Bool.not_eq_true] at hl
      have hlt := (hcore.pending l hl).1
      rw [hmig l (by rwa [hnum₁] at hlt)] at hl
      cases hl
    have hfree := hcore.freeOld hall
    have hboth := hfree.both
    rw [oldCells_of_migrated (t := t₁.freeOld) hall] at hboth
    -- the locks, and then the buckets
    have hhp₂ : t₁.freeOld.hashpower = t.hashpower := hhp₁
    obtain ⟨hnum₂, hsize₂, hall₂, hbuckets₂⟩ := maybeResizeLocks_spec hfree.locks hall
    rw [hhp₂] at hnum₂ hsize₂ hall₂ hbuckets₂
    have hhp₃ : (t₁.freeOld.maybeResizeLocks (hashsize (t.hashpower + 1))).hashpower =
        t.hashpower :=
      (congrArg BucketContainer.hashpower hbuckets₂).trans hhp₂
    obtain ⟨t', hnew, hinv, hhp'⟩ := newBuckets_spec (by rwa [hbuckets₂, hsize₂])
      (by rw [hsize₂]; exact hfree.nonneg) (by rw [hhp₃, hbuckets₂, ← hhp₂]; exact hfree.placed)
      (by rw [hhp₃]; exact hnum₂) hall₂
    rw [hhp₃] at hnew hhp'
    refine ⟨t', ?_, hinv, .inl ⟨rfl, rfl, hhp'⟩⟩
    rw [Table.cuckooFastDouble, hst]
    dsimp only
    rw [hfold, Option.bind_some, hnew]
    rfl

omit [DecidableEq K] in
/-- A new table keeps the empty map. -/
theorem inv_create (n : Nat) : Inv cfg (create n : Table K V) fun _ => none := by
  have hsize : (create n : Table K V).size = 0 := by simp [Table.size, create]
  have hempty : Both (fun _ => none) (fun _ : Nat × Nat => none) (fun _ : K => (none : Option V))
      0 := by
    have heq : Sum.elim (fun _ => none) (fun _ => none) =
        fun _ : (Nat × Nat) ⊕ (Nat × Nat) => (none : Option (Entry K V)) := by
      funext p
      cases p <;> rfl
    rw [Both, heq]
    exact Keeps.empty
  have hplaced : Placed cfg (reserveCalc n) fun _ : Nat × Nat => (none : Option (Entry K V)) := by
    intro i s e he
    cases he
  have hinv : Inv cfg ((create n).allMoved (.create (reserveCalc n))) fun _ => none :=
    inv_allMoved (by rw [hsize]; exact hempty) (by rw [hsize]) hplaced rfl fun _ => rfl
  exact hinv

end Table

end LogDirect.Cuckoo
