import LogDirect.Cuckoo.Hash
import Mathlib.Algebra.BigOperators.Group.List.Basic
import Mathlib.Algebra.Ring.Int.Defs
import Mathlib.Logic.Function.Basic

/-!
# libcuckoo: the table

`cuckoohash_map` (`database/bitcask/libcuckoo/cuckoohash_map.h`, the same file under
`database/cuckoodb`) as the threads find it: the current buckets, the buckets of the
smaller table that have not been rehashed yet, and of each lock whether its buckets have
been (`is_migrated`) and its element counter.

Every function is what the code does while it holds the locks it needs. `none` is a fault:
an `assert` that fails, a bucket or a lock outside its array, or a read of `old_buckets_`
after it has been freed. A key and its value that have been moved out of the old buckets
are left there in the model, since nothing looks at them again.

The comparison of the load factor, in floating point, is a parameter. `locked_table`,
`rehash`, `reserve` and the branch of `cuckoo_fast_double` for types whose move can throw
are left out: nothing in the repository comes to them.
-/

namespace LogDirect.Cuckoo

/-- What the instance of the template and the settings of the map decide. -/
structure Config (K : Type) where
  hashFn : K → UInt64
  isSimple : Bool
  -- `none` is `NO_MAXIMUM_HASHPOWER`
  maximumHashpower : Option Nat
  -- `load_factor() < minimum_load_factor()`, from the size and the capacity
  loadFactorTooLow : Int → Nat → Bool

/-- `slot_per_bucket()` -/
def slotPerBucket : Nat := 4

/-- `hashed_key` -/
def Config.hashedKey {K : Type} (cfg : Config K) (key : K) : HashValue :=
  ⟨cfg.hashFn key, partialKey (cfg.hashFn key)⟩

/-- What an occupied slot holds. -/
structure Entry (K V : Type) where
  partialKey : UInt8
  key : K
  mapped : V

/-- `bucket`; an unoccupied slot is `none`. -/
abbrev Bucket (K V : Type) := Nat → Option (Entry K V)

/-- `bucket_container`, by bucket and slot. -/
structure BucketContainer (K V : Type) where
  hashpower : Nat
  cells : Nat × Nat → Option (Entry K V)

variable {K V : Type}

namespace BucketContainer

/-- The constructor. -/
def create (hp : Nat) : BucketContainer K V := ⟨hp, fun _ => none⟩

/-- `size()` -/
def size (b : BucketContainer K V) : Nat := hashsize b.hashpower

/-- `operator[]` -/
def get (b : BucketContainer K V) (i : Nat) : Option (Bucket K V) :=
  if i < b.size then some fun slot => b.cells (i, slot) else none

/-- `setKV` -/
def setKV (b : BucketContainer K V) (i slot : Nat) (e : Entry K V) : Option (BucketContainer K V) :=
  if i < b.size ∧ slot < slotPerBucket ∧ (b.cells (i, slot)).isNone then
    some ⟨b.hashpower, Function.update b.cells (i, slot) (some e)⟩
  else none

/-- `eraseKV` -/
def eraseKV (b : BucketContainer K V) (i slot : Nat) : Option (BucketContainer K V) :=
  if (b.cells (i, slot)).isSome then
    some ⟨b.hashpower, Function.update b.cells (i, slot) none⟩
  else none

end BucketContainer

/-- `cuckoohash_map` -/
structure Table (K V : Type) where
  buckets : BucketContainer K V
  -- `none` after `clear_and_deallocate`
  oldBuckets : Option (BucketContainer K V)
  -- `get_current_locks()`: how many there are, and what they carry
  numLocks : Nat
  isMigrated : Nat → Bool
  elemCounter : Nat → Int
  -- `num_remaining_lazy_rehash_locks_`
  numRemaining : Nat

namespace Table

/-- `hashpower()` -/
def hashpower (t : Table K V) : Nat := t.buckets.hashpower

/-- The loop of `reserve_calc`, for at most so many turns. -/
def blog2Loop (buckets : Nat) : Nat → Nat → Nat
  | 0, blog2 => blog2
  | turns + 1, blog2 =>
      if hashsize blog2 < buckets then blog2Loop buckets turns (blog2 + 1) else blog2

/-- `reserve_calc`; there are fewer turns than buckets. -/
def reserveCalc (n : Nat) : Nat :=
  let buckets := (n + slotPerBucket - 1) / slotPerBucket
  blog2Loop buckets buckets 0

/-- The constructor, for a number of elements. -/
def create (n : Nat) : Table K V where
  buckets := .create (reserveCalc n)
  oldBuckets := none
  numLocks := min (hashsize (reserveCalc n)) kMaxNumLocks
  isMigrated := fun _ => true
  elemCounter := fun _ => 0
  numRemaining := 0

/-- `size()` -/
def size (t : Table K V) : Int := ((List.range t.numLocks).map t.elemCounter).sum

/-- `capacity()` -/
def capacity (t : Table K V) : Nat := t.buckets.size * slotPerBucket

/-! ## Moving the old buckets -/

/-- One slot of `move_bucket`, with the next free slot of the bucket above. -/
def moveSlot (cfg : Config K) (old : BucketContainer K V) (oldBucketInd : Nat)
    (acc : BucketContainer K V × Nat) (slot : Nat) : Option (BucketContainer K V × Nat) :=
  match old.cells (oldBucketInd, slot) with
  | none => some acc
  | some e =>
      let hv := cfg.hashedKey e.key
      let newBucketInd := oldBucketInd + hashsize old.hashpower
      let oldIhash := indexHash old.hashpower hv.hash
      let oldAhash := altIndex old.hashpower hv.partialKey oldIhash
      let newIhash := indexHash acc.1.hashpower hv.hash
      let newAhash := altIndex acc.1.hashpower hv.partialKey newIhash
      if (oldBucketInd = oldIhash ∧ newIhash = newBucketInd) ∨
          (oldBucketInd = oldAhash ∧ newAhash = newBucketInd) then
        (acc.1.setKV newBucketInd acc.2 e).map fun b => (b, acc.2 + 1)
      else if (oldBucketInd = oldIhash ∧ newIhash = oldIhash) ∨
          (oldBucketInd = oldAhash ∧ newAhash = oldAhash) then
        (acc.1.setKV oldBucketInd slot e).map fun b => (b, acc.2)
      else none

/-- `move_bucket` -/
def moveBucket (cfg : Config K) (old new : BucketContainer K V) (oldBucketInd : Nat) :
    Option (BucketContainer K V) :=
  ((List.range slotPerBucket).foldlM (moveSlot cfg old oldBucketInd) (new, 0)).map Prod.fst

/-- The buckets of a lock: `l`, `l + kMaxNumLocks`, … -/
def stripe (l size : Nat) : List Nat :=
  List.range' l ((size - l + (kMaxNumLocks - 1)) / kMaxNumLocks) kMaxNumLocks

/-- `num_remaining_lazy_rehash_locks(0)`, which frees the old buckets. -/
def freeOld (t : Table K V) : Table K V := { t with oldBuckets := none, numRemaining := 0 }

/-- `decrement_num_remaining_lazy_rehash_locks` -/
def decrement (t : Table K V) : Option (Table K V) :=
  if t.numRemaining = 0 then none
  else if t.numRemaining = 1 then some t.freeOld
  else some { t with numRemaining := t.numRemaining - 1 }

/-- The buckets of a lock have been moved. -/
def setMigrated (t : Table K V) (b : BucketContainer K V) (l : Nat) : Table K V :=
  { t with buckets := b, isMigrated := Function.update t.isMigrated l true }

/-- `rehash_lock` -/
def rehashLock (cfg : Config K) (isLazy : Bool) (t : Table K V) (l : Nat) : Option (Table K V) :=
  if t.isMigrated l then some t
  else
    match t.oldBuckets with
    | none => none
    | some old =>
        if t.numLocks = kMaxNumLocks ∧ old.hashpower + 1 = t.hashpower ∧
          kMaxNumLocks ≤ old.size then
          ((stripe l old.size).foldlM (moveBucket cfg old) t.buckets).bind fun b =>
            if isLazy then (t.setMigrated b l).decrement else some (t.setMigrated b l)
        else none

/-! ## Locks -/

/-- What `lock_one`, `lock_two` and `lock_three` do with the locks they take, in order.
`some none` is `hashpower_changed`. -/
def lockAt (cfg : Config K) (t : Table K V) (hp : Nat) (ls : List Nat) :
    Option (Option (Table K V)) :=
  if ∀ l ∈ ls, l < t.numLocks then
    if t.hashpower = hp then (ls.foldlM (rehashLock cfg true) t).map some else some none
  else none

/-- `lock_one` -/
def lockOne (cfg : Config K) (t : Table K V) (hp i : Nat) : Option (Option (Table K V)) :=
  t.lockAt cfg hp [lockInd i]

/-- The order in which `lock_two` takes its locks. -/
def lockTwoOrder (l1 l2 : Nat) : List Nat := if l2 < l1 then [l2, l1] else [l1, l2]

/-- `lock_two` -/
def lockTwo (cfg : Config K) (t : Table K V) (hp i1 i2 : Nat) : Option (Option (Table K V)) :=
  t.lockAt cfg hp (lockTwoOrder (lockInd i1) (lockInd i2))

/-- `std::swap` of two neighbours or ends of the array, under a condition of `lock_three`. -/
def swapIf (b : Bool) (x : Nat × Nat) : Nat × Nat := if b then (x.2, x.1) else x

/-- The order in which `lock_three` takes its locks: the ends of the array are exchanged
where they are out of order, the last pair first. -/
def lockThreeOrder (l0 l1 l2 : Nat) : List Nat :=
  let p := swapIf (l2 < l1) (l1, l2)
  let q := swapIf (p.2 < l0) (l0, p.2)
  let r := swapIf (p.1 < q.1) (q.1, p.1)
  [r.1, r.2, q.2]

/-- `lock_three` -/
def lockThree (cfg : Config K) (t : Table K V) (hp i1 i2 i3 : Nat) : Option (Option (Table K V)) :=
  t.lockAt cfg hp (lockThreeOrder (lockInd i1) (lockInd i2) (lockInd i3))

/-! ## Searching the buckets -/

section

variable [DecidableEq K]

/-- The two comparisons of a slot with a key. -/
def slotMatches (cfg : Config K) (tag : UInt8) (key : K) (e : Entry K V) : Bool :=
  (cfg.isSimple || tag == e.partialKey) && decide (e.key = key)

/-- `try_read_from_bucket`; `none` is -1. -/
def tryReadFromBucket (cfg : Config K) (b : Bucket K V) (tag : UInt8) (key : K) : Option Nat :=
  (List.range slotPerBucket).find? fun i => (b i).any (slotMatches cfg tag key)

/-- `cuckoo_find`, the first bucket first; `some none` is `failure_key_not_found`. -/
def cuckooFind (cfg : Config K) (t : Table K V) (key : K) (tag : UInt8) (i1 i2 : Nat) :
    Option (Option (Nat × Nat)) :=
  (t.buckets.get i1).bind fun b1 =>
    (t.buckets.get i2).map fun b2 =>
      ((tryReadFromBucket cfg b1 tag key).map fun slot => (i1, slot)).or
        ((tryReadFromBucket cfg b2 tag key).map fun slot => (i2, slot))

/-- What `try_find_insert_bucket` finds: the key, or a slot for it, or neither. -/
inductive Slot
  | duplicated (slot : Nat)
  | empty (slot : Nat)
  | full
deriving DecidableEq

/-- `try_find_insert_bucket`, over the slots that are left. The last empty slot is kept. -/
def tryFindInsertBucket (cfg : Config K) (b : Bucket K V) (tag : UInt8) (key : K) :
    List Nat → Slot → Slot
  | [], slot => slot
  | i :: is, slot =>
      match b i with
      | some e =>
          if slotMatches cfg tag key e then .duplicated i
          else tryFindInsertBucket cfg b tag key is slot
      | none => tryFindInsertBucket cfg b tag key is (.empty i)

/-- Where `cuckoo_insert` can go without moving anything. -/
inductive Place
  | duplicated (index slot : Nat)
  | ok (index slot : Nat)
  | full

/-- What follows from the two buckets. -/
def Place.of (i1 i2 : Nat) : Slot → Slot → Place
  | .duplicated slot, _ => .duplicated i1 slot
  | _, .duplicated slot => .duplicated i2 slot
  | .empty slot, _ => .ok i1 slot
  | .full, .empty slot => .ok i2 slot
  | .full, .full => .full

/-- `cuckoo_insert`, up to `run_cuckoo`. -/
def cuckooInsert (cfg : Config K) (t : Table K V) (key : K) (tag : UInt8) (i1 i2 : Nat) :
    Option Place :=
  (t.buckets.get i1).bind fun b1 =>
    (t.buckets.get i2).map fun b2 =>
      Place.of i1 i2 (tryFindInsertBucket cfg b1 tag key (List.range slotPerBucket) .full)
        (tryFindInsertBucket cfg b2 tag key (List.range slotPerBucket) .full)

end

/-! ## Changing a slot -/

/-- `add_to_bucket` -/
def addToBucket (t : Table K V) (i slot : Nat) (e : Entry K V) : Option (Table K V) :=
  (t.buckets.setKV i slot e).map fun b =>
    { t with
      buckets := b
      elemCounter := Function.update t.elemCounter (lockInd i) (t.elemCounter (lockInd i) + 1) }

/-- `del_from_bucket` -/
def delFromBucket (t : Table K V) (i slot : Nat) : Option (Table K V) :=
  (t.buckets.eraseKV i slot).map fun b =>
    { t with
      buckets := b
      elemCounter := Function.update t.elemCounter (lockInd i) (t.elemCounter (lockInd i) - 1) }

/-- The value of an occupied slot is replaced. -/
def setMapped (t : Table K V) (i slot : Nat) (e : Entry K V) (v : V) : Table K V :=
  { t with
    buckets := ⟨t.buckets.hashpower,
      Function.update t.buckets.cells (i, slot) (some { e with mapped := v })⟩ }

/-- A function of the caller is run on the value of a slot, and the element goes if it says
so. -/
def invoke (t : Table K V) (i slot : Nat) (fn : V → V × Bool) : Option (Table K V) :=
  match t.buckets.cells (i, slot) with
  | none => none
  | some e =>
      let t' := t.setMapped i slot e (fn e.mapped).1
      if (fn e.mapped).2 then t'.delFromBucket i slot else some t'

/-! ## Doubling -/

/-- How `cuckoo_fast_double` ends. -/
inductive Expansion
  | ok
  | underExpansion
  | threw

/-- `check_resize_validity`, for an automatic resize. -/
def checkResizeValidity (cfg : Config K) (t : Table K V) (origHp newHp : Nat) : Expansion :=
  if cfg.maximumHashpower.any fun mhp => mhp < newHp then .threw
  else if cfg.loadFactorTooLow t.size t.capacity then .threw
  else if t.hashpower ≠ origHp then .underExpansion
  else .ok

/-- `maybe_resize_locks`: the counters are copied, and the new locks are fresh. -/
def maybeResizeLocks (t : Table K V) (newBucketCount : Nat) : Table K V :=
  if t.numLocks < kMaxNumLocks ∧ t.numLocks < newBucketCount then
    { t with
      numLocks := min kMaxNumLocks newBucketCount
      isMigrated := fun l => if l < t.numLocks then t.isMigrated l else true
      elemCounter := fun l => if l < t.numLocks then t.elemCounter l else 0 }
  else t

/-- The new buckets when all of the old ones have been moved into them. -/
def allMoved (t : Table K V) (b : BucketContainer K V) : Table K V :=
  { t.freeOld with buckets := b }

/-- The new buckets, empty, with all of the old ones beside them. -/
def noneMoved (t : Table K V) (newHp : Nat) : Table K V :=
  { t with
    buckets := .create newHp
    oldBuckets := some t.buckets
    isMigrated := fun l => if l < t.numLocks then false else t.isMigrated l
    numRemaining := t.numLocks }

/-- The new buckets of `cuckoo_fast_double`. -/
def newBuckets (cfg : Config K) (t : Table K V) (newHp : Nat) : Option (Table K V) :=
  if t.buckets.size < kMaxNumLocks then
    ((List.range t.buckets.size).foldlM (moveBucket cfg t.buckets) (.create newHp)).map t.allMoved
  else some (t.noneMoved newHp)

/-- `cuckoo_fast_double` -/
def cuckooFastDouble (cfg : Config K) (t : Table K V) (currentHp : Nat) :
    Option (Expansion × Table K V) :=
  let newHp := currentHp + 1
  match t.checkResizeValidity cfg currentHp newHp with
  | .ok =>
      ((List.range t.numLocks).foldlM (rehashLock cfg false) t).bind fun t =>
        ((t.freeOld.maybeResizeLocks (hashsize newHp)).newBuckets cfg newHp).map fun t => (.ok, t)
  | st => some (st, t)

end Table

end LogDirect.Cuckoo
