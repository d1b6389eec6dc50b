import LogDirect.Cuckoo.Threads

/-!
# libcuckoo: the locks one by one

In `Threads` a thread does at once what it does from taking its locks to giving them up.
Here the locks are taken and given up one by one: `lock_one`, `lock_two`, `lock_three` and
`lock_all` (`cuckoohash_map.h`, lines 979–1110). The hashpower is looked at only once,
after the first lock; a doubling of the table takes all locks, and may put a larger array
of locks behind the ones there are (`maybe_resize_locks`), while other threads still wait
for locks of the old array. `AllUnlocker` looks for the end of `all_locks_` only when it comes
to it, and so gives up whatever arrays there are by then. The arrays are counted here, where the
source has iterators of a list: `++it` has found the end once and for all, so that an array added
between it and the comparison is not seen. The window in which `lock_all` and `AllUnlocker` see a
new array is slightly larger here.

`cuckoo_fast_double` is two steps, because others can look at `hashpower()` in between: from
`old_buckets_.swap(buckets_)` to the assignment of the new buckets (lines 1720 and 1721) it is
that of `old_buckets_`, and `buckets_` has no memory. The table of the model is the doubled one
from the first of the two steps on, since no thread can look at it before the second.

A thread that waits for a lock has no step. What is done between the locks is the step of
`Threads`.
-/

namespace LogDirect.Cuckoo

open Lib Lib.Atomic

variable {K V : Type}

/-- A lock: the place of its array in `all_locks_`, and its own place there. -/
abbrev LockId := Nat × Nat

/-- Where a thread is with its locks. -/
inductive Stage (K V : Type)
  -- it holds none
  | free (pc : Pc K V)
  -- it takes those of an array, the last one that it has taken first
  | taking (pc : Pc K V) (hp array : Nat) (held rest : List Nat)
  -- it has taken the first one, before `check_hashpower`
  | checking (pc : Pc K V) (hp array first : Nat) (rest : List Nat)
  -- it has taken them
  | inside (pc : Pc K V) (hp array : Nat) (held : List Nat)
  -- `lock_all` since the array `first`, before a lock of an array
  | takingAll (u : Uprase K V) (hp first array i : Nat)
  | insideAll (u : Uprase K V) (hp first : Nat)
  -- `cuckoo_fast_double`, between the exchange of the buckets and the new ones
  | swapped (u : Uprase K V) (first : Nat)
  -- it gives them up, here the last one first, and goes on
  | releasing (pc : Pc K V) (array : Nat) (held : List Nat)
  -- `AllUnlocker`, before a lock of an array
  | releasingAll (pc : Pc K V) (array i : Nat)

/-- The thread as it is apart from the locks. -/
def Stage.pc : Stage K V → Pc K V
  | .free pc => pc
  | .taking pc _ _ _ _ => pc
  | .checking pc _ _ _ _ => pc
  | .inside pc _ _ _ => pc
  | .takingAll u hp _ _ _ => .expanding u hp
  | .insideAll u hp _ => .expanding u hp
  | .swapped u _ => .snapshot (.uprase u)
  | .releasing pc _ _ => pc
  | .releasingAll pc _ _ => pc

/-- It is in `AllUnlocker`. -/
def Stage.unlocking : Stage K V → Bool
  | .releasingAll _ _ _ => true
  | _ => false

/-- It is between the two steps of a doubling. -/
def Stage.swapping : Stage K V → Bool
  | .swapped _ _ => true
  | _ => false

/-- The hashpower that is expected, and the locks in the order in which they are taken. -/
def Pc.locks (cfg : Config K) : Pc K V → Option (Nat × List Nat)
  | .locking c hp =>
      some (hp, Table.lockTwoOrder (lockInd (Table.i1 cfg hp c.key))
        (lockInd (Table.i2 cfg hp c.key)))
  | .searching _ hp q => q.slots.head?.map fun x => (hp, [lockInd x.bucket])
  | .walking _ hp _ bucket _ => some (hp, [lockInd bucket])
  | .moving u hp _ 0 =>
      some (hp, Table.lockTwoOrder (lockInd (Table.i1 cfg hp u.key))
        (lockInd (Table.i2 cfg hp u.key)))
  | .moving u hp path (depth + 1) =>
      path[depth]?.bind fun source =>
        path[depth + 1]?.map fun target =>
          (hp, if depth = 0 then
            Table.lockThreeOrder (lockInd (Table.i1 cfg hp u.key)) (lockInd (Table.i2 cfg hp u.key))
              (lockInd target.bucket)
          else Table.lockTwoOrder (lockInd source.bucket) (lockInd target.bucket))
  | _ => none

/-- What follows `hashpower_changed`. -/
def Pc.retry : Pc K V → Pc K V
  | .locking c _ => .snapshot c
  | .searching u _ _ => .snapshot (.uprase u)
  | .walking u _ _ _ _ => .snapshot (.uprase u)
  | .moving u _ _ _ => .snapshot (.uprase u)
  | pc => pc

/-- The table, its locks and the threads. -/
structure LockWorld (K V : Type) where
  table : Table K V
  -- `hashpower()` of `buckets_` and of `old_buckets_`, which keep it when they are freed
  hashpower : Nat
  oldHashpower : Nat
  -- `all_locks_`, by their sizes
  arrays : List Nat
  owner : LockId → Option Nat
  threads : Nat → Stage K V

namespace LockWorld

/-- A thread goes on. -/
def set (w : LockWorld K V) (tid : Nat) (s : Stage K V) : LockWorld K V :=
  { w with threads := Function.update w.threads tid s }

/-- A lock is taken. -/
def lock (w : LockWorld K V) (x : LockId) (tid : Nat) : LockWorld K V :=
  { w with owner := Function.update w.owner x (some tid) }

/-- A lock is given up. -/
def unlock (w : LockWorld K V) (x : LockId) : LockWorld K V :=
  { w with owner := Function.update w.owner x none }

/-- `maybe_resize_locks`, as far as the locks are concerned: the new ones are locked. -/
def addArray (w : LockWorld K V) (numLocks tid : Nat) : LockWorld K V :=
  { w with
    arrays := w.arrays ++ [numLocks]
    owner := fun x => if x.1 = w.arrays.length ∧ x.2 < numLocks then some tid else w.owner x }

/-- The world without the locks. -/
def world (w : LockWorld K V) : World K V := ⟨w.table, fun tid => (w.threads tid).pc⟩

variable [DecidableEq K]

/-- A thread that holds no lock. `get_current_locks()` is the last array. -/
def goFree (cfg : Config K) (w : LockWorld K V) (tid : Nat) (pc : Pc K V) :
    Option (LockWorld K V) :=
  match pc.locks cfg with
  | some need => some (w.set tid (.taking pc need.1 (w.arrays.length - 1) [] need.2))
  | none =>
      match pc with
      | .snapshot c => some (w.set tid (.free (.locking c w.hashpower)))
      | .expanding u hp =>
          some (w.set tid (.takingAll u hp (w.arrays.length - 1) (w.arrays.length - 1) 0))
      | pc => (w.table.advance cfg pc).map fun r => { w with table := r.1 }.set tid (.free r.2)

/-- The locks of `lock_one`, `lock_two` and `lock_three`. One that equals the one before is
not taken twice. -/
def goTaking (w : LockWorld K V) (tid : Nat) (pc : Pc K V) (hp array : Nat) (held : List Nat) :
    List Nat → Option (LockWorld K V)
  | [] => some (w.set tid (.inside pc hp array held))
  | l :: rest =>
      if held.head? = some l then some (w.set tid (.taking pc hp array held rest))
      else if w.owner (array, l) = none then
        if held = [] then some ((w.lock (array, l) tid).set tid (.checking pc hp array l rest))
        else some ((w.lock (array, l) tid).set tid (.taking pc hp array (l :: held) rest))
      else none

/-- `check_hashpower` -/
def goChecking (w : LockWorld K V) (tid : Nat) (pc : Pc K V) (hp array first : Nat)
    (rest : List Nat) : LockWorld K V :=
  if w.hashpower = hp then w.set tid (.taking pc hp array [first] rest)
  else (w.unlock (array, first)).set tid (.free pc.retry)

/-- What is done under the locks. The source does not look at the hashpower again: if the table
has been doubled, or its buckets have no memory just now, that is a fault. -/
def goInside (cfg : Config K) (w : LockWorld K V) (tid : Nat) (pc : Pc K V) (hp array : Nat)
    (held : List Nat) : Option (LockWorld K V) :=
  if w.hashpower = w.table.hashpower ∧ w.table.hashpower = hp then
    (w.table.advance cfg pc).map fun r =>
      { w with table := r.1 }.set tid (.releasing r.2 array held)
  else none

/-- The loops of `lock_all`. -/
def goTakingAll (w : LockWorld K V) (tid : Nat) (u : Uprase K V) (hp first array i : Nat) :
    Option (LockWorld K V) :=
  w.arrays[array]?.bind fun n =>
    if i < n then
      if w.owner (array, i) = none then
        some ((w.lock (array, i) tid).set tid (.takingAll u hp first array (i + 1)))
      else none
    else if array + 1 < w.arrays.length then some (w.set tid (.takingAll u hp first (array + 1) 0))
    else some (w.set tid (.insideAll u hp first))

/-- The new array of locks, if there is one, and the exchange of the two containers. -/
def swap (w : LockWorld K V) (t : Table K V) (tid : Nat) : LockWorld K V :=
  let w' := { w with table := t, hashpower := w.oldHashpower, oldHashpower := w.hashpower }
  if t.numLocks = w.table.numLocks then w' else w'.addArray t.numLocks tid

/-- `cuckoo_fast_double` under all locks, up to the exchange of the buckets. -/
def goInsideAll (cfg : Config K) (w : LockWorld K V) (tid : Nat) (u : Uprase K V) (hp first : Nat) :
    Option (LockWorld K V) :=
  (w.table.cuckooFastDouble cfg hp).map fun r =>
    match r.1 with
    | .ok => (w.swap r.2 tid).set tid (.swapped u first)
    | .underExpansion => w.set tid (.releasingAll (.snapshot (.uprase u)) first 0)
    | .threw => w.set tid (.releasingAll (.answered .threw) first 0)

/-- The rest of `cuckoo_fast_double`: the new buckets have the new hashpower. -/
def goSwapped (w : LockWorld K V) (tid : Nat) (u : Uprase K V) (first : Nat) : LockWorld K V :=
  { w with hashpower := w.table.hashpower }.set tid (.releasingAll (.snapshot (.uprase u)) first 0)

/-- The loops of `AllUnlocker`. At the end of an array it goes to the next one, if there is
one by then. -/
def goReleasingAll (w : LockWorld K V) (tid : Nat) (pc : Pc K V) (array i : Nat) :
    Option (LockWorld K V) :=
  w.arrays[array]?.map fun n =>
    if i < n then (w.unlock (array, i)).set tid (.releasingAll pc array (i + 1))
    else if array + 1 < w.arrays.length then w.set tid (.releasingAll pc (array + 1) 0)
    else w.set tid (.free pc)

/-- One step of a thread. -/
def go (cfg : Config K) (w : LockWorld K V) (tid : Nat) : Option (LockWorld K V) :=
  match w.threads tid with
  | .free pc => w.goFree cfg tid pc
  | .taking pc hp array held rest => w.goTaking tid pc hp array held rest
  | .checking pc hp array first rest => some (w.goChecking tid pc hp array first rest)
  | .inside pc hp array held => w.goInside cfg tid pc hp array held
  | .takingAll u hp first array i => w.goTakingAll tid u hp first array i
  | .insideAll u hp first => w.goInsideAll cfg tid u hp first
  | .swapped u first => some (w.goSwapped tid u first)
  | .releasing pc _ [] => some (w.set tid (.free pc))
  | .releasing pc array (l :: held) =>
      some ((w.unlock (array, l)).set tid (.releasing pc array held))
  | .releasingAll pc array i => w.goReleasingAll tid pc array i

/-- One step of the system. -/
def step (cfg : Config K) (w : LockWorld K V) : Act K V → Option (LockWorld K V)
  | .invoke tid c =>
      match w.threads tid with
      | .free .idle => some (w.set tid (.free (.snapshot c)))
      | _ => none
  | .run tid => w.go cfg tid
  | .respond tid =>
      match w.threads tid with
      | .free (.answered _) => some (w.set tid (.free .idle))
      | _ => none

/-- The step adds an array of locks behind those that another thread is giving up. -/
def Overtakes (cfg : Config K) (w : LockWorld K V) (act : Act K V) : Prop :=
  ∃ tid other w', act = .run tid ∧ other ≠ tid ∧ (w.threads other).unlocking = true ∧
    w.step cfg act = some w' ∧ w'.arrays ≠ w.arrays

/-- A thread with a lock of an older array takes the hashpower that shows during a doubling
for the one it has expected. -/
def Slips (w : LockWorld K V) (act : Act K V) : Prop :=
  ∃ tid pc hp array first rest, act = .run tid ∧
    w.threads tid = .checking pc hp array first rest ∧ w.hashpower = hp ∧
    w.hashpower ≠ w.table.hashpower

/-- A step that is none of the two. -/
def Safe (cfg : Config K) (w : LockWorld K V) (act : Act K V) : Prop :=
  ¬ w.Overtakes cfg act ∧ ¬ w.Slips act

/-- What the callers see. -/
def seen (w : LockWorld K V) : Act K V → List (Event Nat (Call K V) (Ret V))
  | .invoke tid c => [.invoke tid c]
  | .run _ => []
  | .respond tid =>
      match w.threads tid with
      | .free (.answered r) => [.respond tid r]
      | _ => []

end LockWorld

/-- `DEFAULT_SIZE`, for which the tables of the stores are made. -/
def defaultSize : Nat := (1 <<< 16) * slotPerBucket

/-- A new table made for `n` elements, and no lock taken. -/
def LockWorld.create (n : Nat) : LockWorld K V :=
  ⟨.create n, Table.reserveCalc n, 0, [(Table.create n : Table K V).numLocks], fun _ => none,
    fun _ => .free .idle⟩

/-- The system, from a new table made for `n` elements. -/
def lockSystem [DecidableEq K] (cfg : Config K) (n : Nat) : TSys (LockWorld K V) (Act K V) where
  init := fun w => w = .create n
  step := LockWorld.step cfg

end LogDirect.Cuckoo
