import LogDirect.Cuckoo.Table
import LogDirect.Lib.Atomic

/-!
# libcuckoo: calls by many threads

`find_fn`, `update_fn`, `erase_fn` and `uprase_fn` (`cuckoohash_map.h`, lines 464–577),
which all other calls are made of, by any number of threads on one table. A critical section is
one step: a thread does at once what it does from taking its first lock to giving up its last one
(`Locks` has them one by one). Everything a thread knows
from an earlier step may be out of date by the next one. So one insertion into two full
buckets takes many steps: it looks for a way to an empty slot one bucket at a time
(`slot_search`), reads the elements on the way once more (`cuckoopath_search`), moves them
one by one from the far end (`cuckoopath_move`), and begins again whenever what it finds is
not what it expects.

The queue of `slot_search` and the records of a path are lists.
-/

namespace LogDirect.Cuckoo

open Lib Lib.Atomic

/-! ## Calls -/

/-- `UpsertContext` -/
inductive UpsertContext
  | newlyInserted
  | alreadyExisted
deriving DecidableEq

variable {K V : Type}

/-- The arguments of `uprase_fn`. A functor of one argument only is one that does nothing
to a new element. -/
structure Uprase (K V : Type) where
  key : K
  fn : UpsertContext → V → V × Bool
  val : V

/-- A call. -/
inductive Call (K V : Type)
  | find (key : K)
  | update (key : K) (fn : V → V)
  | erase (key : K) (fn : V → V × Bool)
  | uprase (u : Uprase K V)

/-- The key of a call. -/
def Call.key : Call K V → K
  | .find key => key
  | .update key _ => key
  | .erase key _ => key
  | .uprase u => u.key

/-- `upsert` with a functor of one argument, which is left alone when the element is new. -/
def Call.upsert (key : K) (fn : V → V) (val : V) : Call K V :=
  .uprase ⟨key, fun ctx v => if ctx = .alreadyExisted then (fn v, false) else (v, false), val⟩

/-- `insert_or_assign` -/
def Call.insertOrAssign (key : K) (val : V) : Call K V := .upsert key (fun _ => val) val

/-- `erase` -/
def Call.eraseKey (key : K) : Call K V := .erase key fun v => (v, true)

/-- What a call returns. -/
inductive Ret (V : Type)
  | found (v : Option V)
  | updated (b : Bool)
  | erased (b : Bool)
  | inserted (b : Bool)
  -- `load_factor_too_low` or `maximum_hashpower_exceeded`
  | threw

/-! ## The search for a path -/

/-- `MAX_BFS_PATH_LEN` -/
def maxBfsPathLen : Nat := 5

/-- `MAX_CUCKOO_COUNT` -/
def maxCuckooCount : Nat :=
  2 * ((slotPerBucket ^ maxBfsPathLen - 1) / (slotPerBucket - 1))

/-- `b_slot` -/
structure BSlot where
  bucket : Nat
  pathcode : Nat
  depth : Nat

/-- `b_queue`: what is between `first_` and `last_`, and `last_`. -/
structure BQueue where
  slots : List BSlot
  last : Nat

namespace BQueue

/-- `enqueue` -/
def enqueue (q : BQueue) (x : BSlot) : Option BQueue :=
  if q.last = maxCuckooCount then none else some ⟨q.slots ++ [x], q.last + 1⟩

/-- The queue at the start of `slot_search`. -/
def start (i1 i2 : Nat) : BQueue := ⟨[⟨i1, 0, 0⟩, ⟨i2, 1, 0⟩], 2⟩

end BQueue

/-- `pathcode` is a `uint16_t`. -/
def BSlot.extend (x : BSlot) (slot : Nat) : Nat := (x.pathcode * slotPerBucket + slot) % 2 ^ 16

/-- The slots of one bucket in `slot_search`: an empty one ends the search. -/
def scanSlots (hp : Nat) (b : Bucket K V) (x : BSlot) : List Nat → BQueue → Option (BSlot ⊕ BQueue)
  | [], q => some (.inr q)
  | i :: is, q =>
      let slot := (x.pathcode % slotPerBucket + i) % slotPerBucket
      match b slot with
      | none => some (.inl ⟨x.bucket, x.extend slot, x.depth⟩)
      | some e =>
          if x.depth < maxBfsPathLen - 1 then
            (q.enqueue ⟨altIndex hp e.partialKey x.bucket, x.extend slot, x.depth + 1⟩).bind
              (scanSlots hp b x is)
          else scanSlots hp b x is q

/-- The slots that a path code stands for, and what is left of it. -/
def pathSlots : Nat → Nat → List Nat → List Nat × Nat
  | 0, code, slots => (slots, code)
  | n + 1, code, slots => pathSlots n (code / slotPerBucket) (code % slotPerBucket :: slots)

/-- `CuckooRecord` -/
structure CuckooRecord where
  bucket : Nat
  slot : Nat
  hv : HashValue
deriving DecidableEq

/-! ## Threads -/

/-- Where a thread is. -/
inductive Pc (K V : Type)
  | idle
  -- `snapshot_and_lock_two`, before `hashpower()` is read
  | snapshot (c : Call K V)
  -- before the two locks are taken
  | locking (c : Call K V) (hp : Nat)
  -- `slot_search`, before the next `dequeue`
  | searching (u : Uprase K V) (hp : Nat) (q : BQueue)
  -- `cuckoopath_search`, with the records so far, the next bucket and the slots that are left
  | walking (u : Uprase K V) (hp : Nat) (path : List CuckooRecord) (bucket : Nat) (slots : List Nat)
  -- `cuckoopath_move`
  | moving (u : Uprase K V) (hp : Nat) (path : List CuckooRecord) (depth : Nat)
  -- `run_cuckoo` has failed, before `cuckoo_fast_double`
  | expanding (u : Uprase K V) (hp : Nat)
  | answered (r : Ret V)

variable [DecidableEq K]

namespace Table

/-- The buckets of a key, `b.i1` and `b.i2`. -/
def i1 (cfg : Config K) (hp : Nat) (key : K) : Nat := indexHash hp (cfg.hashedKey key).hash

@[inherit_doc i1]
def i2 (cfg : Config K) (hp : Nat) (key : K) : Nat :=
  altIndex hp (cfg.hashedKey key).partialKey (i1 cfg hp key)

/-- What is done with the table once the locks are taken. If the table has been doubled in
the meantime, `hashpower_changed` leads to `retry`. -/
def withLocks (t : Table K V) (locked : Option (Option (Table K V))) (retry : Pc K V)
    (body : Table K V → Option (Table K V × Pc K V)) : Option (Table K V × Pc K V) :=
  match locked with
  | none => none
  | some none => some (t, retry)
  | some (some t') => body t'

/-- The key is in the table: `uprase_fn` from there on. -/
def upraseAt (t : Table K V) (u : Uprase K V) (i slot : Nat) : Option (Table K V × Pc K V) :=
  (t.invoke i slot (u.fn .alreadyExisted)).map fun t => (t, .answered (.inserted false))

/-- A slot for the key has been found: `uprase_fn` from there on. -/
def insertAt (cfg : Config K) (t : Table K V) (u : Uprase K V) (i slot : Nat) :
    Option (Table K V × Pc K V) :=
  (t.addToBucket i slot ⟨(cfg.hashedKey u.key).partialKey, u.key, u.val⟩).bind fun t =>
    (t.invoke i slot (u.fn .newlyInserted)).map fun t => (t, .answered (.inserted true))

/-- The two buckets are locked. -/
def serve (cfg : Config K) (t : Table K V) (hp : Nat) (c : Call K V) :
    Option (Table K V × Pc K V) :=
  let tag := (cfg.hashedKey c.key).partialKey
  let i1 := i1 cfg hp c.key
  let i2 := i2 cfg hp c.key
  match c with
  | .find key =>
      (t.cuckooFind cfg key tag i1 i2).map fun pos =>
        (t, .answered (.found (pos.bind fun p => (t.buckets.cells p).map Entry.mapped)))
  | .update key fn =>
      (t.cuckooFind cfg key tag i1 i2).bind fun pos =>
        match pos with
        | none => some (t, .answered (.updated false))
        | some p =>
            (t.invoke p.1 p.2 fun v => (fn v, false)).map fun t => (t, .answered (.updated true))
  | .erase key fn =>
      (t.cuckooFind cfg key tag i1 i2).bind fun pos =>
        match pos with
        | none => some (t, .answered (.erased false))
        | some p => (t.invoke p.1 p.2 fn).map fun t => (t, .answered (.erased true))
  | .uprase u =>
      (t.cuckooInsert cfg u.key tag i1 i2).bind fun place =>
        match place with
        | .duplicated i slot => t.upraseAt u i slot
        | .ok i slot => t.insertAt cfg u i slot
        | .full => some (t, .searching u hp (.start i1 i2))

/-- A slot found by `slot_search` gives the path to walk; the first bucket is the one that
is left of the code. -/
def walkFrom (cfg : Config K) (t : Table K V) (u : Uprase K V) (hp : Nat) (x : BSlot) :
    Option (Table K V × Pc K V) :=
  let p := pathSlots (x.depth + 1) x.pathcode []
  if p.2 = 0 then some (t, .walking u hp [] (i1 cfg hp u.key) p.1)
  else if p.2 = 1 then some (t, .walking u hp [] (i2 cfg hp u.key) p.1)
  else none

/-- One turn of `slot_search`. -/
def search (cfg : Config K) (t : Table K V) (u : Uprase K V) (hp : Nat) (q : BQueue) :
    Option (Table K V × Pc K V) :=
  match q.slots with
  | [] => some (t, .expanding u hp)
  | x :: rest =>
      t.withLocks (t.lockOne cfg hp x.bucket) (.snapshot (.uprase u)) fun t =>
        (t.buckets.get x.bucket).bind fun b =>
          (scanSlots hp b x (List.range slotPerBucket) ⟨rest, q.last⟩).bind fun r =>
            match r with
            | .inl x => t.walkFrom cfg u hp x
            | .inr q => some (t, .searching u hp q)

/-- One record of `cuckoopath_search`. The `hv` of the last record of a path is not used,
and need not be set. -/
def walk (cfg : Config K) (t : Table K V) (u : Uprase K V) (hp : Nat) (path : List CuckooRecord)
    (bucket : Nat) (slots : List Nat) : Option (Table K V × Pc K V) :=
  match slots with
  | [] => none
  | slot :: rest =>
      if path.length < maxBfsPathLen then
        t.withLocks (t.lockOne cfg hp bucket) (.snapshot (.uprase u)) fun t =>
          (t.buckets.get bucket).bind fun b =>
            match b slot with
            | none => some (t, .moving u hp (path ++ [⟨bucket, slot, ⟨0, 0⟩⟩]) path.length)
            | some e =>
                let path' := path ++ [⟨bucket, slot, cfg.hashedKey e.key⟩]
                if rest = [] then some (t, .moving u hp path' path.length)
                else if Home hp (cfg.hashedKey e.key) bucket then
                  some (t, .walking u hp path' (altIndex hp (cfg.hashedKey e.key).partialKey bucket)
                    rest)
                else none
      else none

/-- A slot of one of the two buckets is free, and they are locked: `cuckoo_insert` looks for
the key once more. -/
def insertMoved (cfg : Config K) (t : Table K V) (u : Uprase K V) (hp : Nat) (r : CuckooRecord) :
    Option (Table K V × Pc K V) :=
  let i1 := i1 cfg hp u.key
  let i2 := i2 cfg hp u.key
  if (r.bucket = i1 ∨ r.bucket = i2) ∧ (t.buckets.cells (r.bucket, r.slot)).isNone then
    (t.cuckooFind cfg u.key (cfg.hashedKey u.key).partialKey i1 i2).bind fun pos =>
      match pos with
      | some p => t.upraseAt u p.1 p.2
      | none => t.insertAt cfg u r.bucket r.slot
  else none

/-- `run_cuckoo` begins again. -/
def again (cfg : Config K) (u : Uprase K V) (hp : Nat) : Pc K V :=
  .searching u hp (.start (i1 cfg hp u.key) (i2 cfg hp u.key))

/-- `cuckoopath_move` of a path of depth 0. -/
def moveNone (cfg : Config K) (t : Table K V) (u : Uprase K V) (hp : Nat) (r : CuckooRecord) :
    Option (Table K V × Pc K V) :=
  if r.bucket = i1 cfg hp u.key ∨ r.bucket = i2 cfg hp u.key then
    t.withLocks (t.lockTwo cfg hp (i1 cfg hp u.key) (i2 cfg hp u.key)) (.snapshot (.uprase u))
      fun t =>
        (t.buckets.get r.bucket).bind fun b =>
          if (b r.slot).isNone then t.insertMoved cfg u hp r else some (t, again cfg u hp)
  else none

/-- One element goes from a record of the path to the next one. -/
def shift (cfg : Config K) (t : Table K V) (source target : CuckooRecord) :
    Option (Option (Table K V)) :=
  (t.buckets.get source.bucket).bind fun fb =>
    (t.buckets.get target.bucket).bind fun tb =>
      match tb target.slot, fb source.slot with
      | none, some e =>
          if cfg.hashFn e.key ≠ source.hv.hash then some none
          else
            (t.buckets.setKV target.bucket target.slot e).bind fun b =>
              (b.eraseKV source.bucket source.slot).map fun b => some { t with buckets := b }
      | _, _ => some none

/-- One turn of the loop of `cuckoopath_move`. The last element of the path is moved with
all of the locks that the insertion needs. -/
def moveOne (cfg : Config K) (t : Table K V) (u : Uprase K V) (hp : Nat) (path : List CuckooRecord)
    (depth : Nat) (source target : CuckooRecord) : Option (Table K V × Pc K V) :=
  let locked :=
    if depth = 0 then t.lockThree cfg hp (i1 cfg hp u.key) (i2 cfg hp u.key) target.bucket
    else t.lockTwo cfg hp source.bucket target.bucket
  t.withLocks locked (.snapshot (.uprase u)) fun t =>
    (t.shift cfg source target).bind fun moved =>
      match moved with
      | none => some (t, again cfg u hp)
      | some t =>
          if depth = 0 then t.insertMoved cfg u hp source else some (t, .moving u hp path depth)

/-- `cuckoopath_move`, up to its next step. -/
def move (cfg : Config K) (t : Table K V) (u : Uprase K V) (hp : Nat) (path : List CuckooRecord) :
    Nat → Option (Table K V × Pc K V)
  | 0 => path[0]?.bind fun r => t.moveNone cfg u hp r
  | depth + 1 =>
      path[depth]?.bind fun source =>
        path[depth + 1]?.bind fun target => t.moveOne cfg u hp path depth source target

/-- `cuckoo_fast_double`, and `cuckoo_insert_loop` after it. -/
def expand (cfg : Config K) (t : Table K V) (u : Uprase K V) (hp : Nat) :
    Option (Table K V × Pc K V) :=
  (t.cuckooFastDouble cfg hp).map fun r =>
    match r.1 with
    | .threw => (r.2, .answered .threw)
    | _ => (r.2, .snapshot (.uprase u))

/-- One step of a call. -/
def advance (cfg : Config K) (t : Table K V) : Pc K V → Option (Table K V × Pc K V)
  | .idle => none
  | .snapshot c => some (t, .locking c t.hashpower)
  | .locking c hp =>
      t.withLocks (t.lockTwo cfg hp (i1 cfg hp c.key) (i2 cfg hp c.key)) (.snapshot c) fun t =>
        t.serve cfg hp c
  | .searching u hp q => t.search cfg u hp q
  | .walking u hp path bucket slots => t.walk cfg u hp path bucket slots
  | .moving u hp path depth => t.move cfg u hp path depth
  | .expanding u hp => t.expand cfg u hp
  | .answered _ => none

end Table

/-! ## The system -/

/-- The table and the threads. -/
structure World (K V : Type) where
  table : Table K V
  threads : Nat → Pc K V

/-- What happens next. -/
inductive Act (K V : Type)
  | invoke (tid : Nat) (c : Call K V)
  | run (tid : Nat)
  | respond (tid : Nat)

/-- One step of the system. -/
def World.step (cfg : Config K) (w : World K V) : Act K V → Option (World K V)
  | .invoke tid c =>
      match w.threads tid with
      | .idle => some ⟨w.table, Function.update w.threads tid (.snapshot c)⟩
      | _ => none
  | .run tid =>
      (w.table.advance cfg (w.threads tid)).map fun r =>
        ⟨r.1, Function.update w.threads tid r.2⟩
  | .respond tid =>
      match w.threads tid with
      | .answered _ => some ⟨w.table, Function.update w.threads tid .idle⟩
      | _ => none

/-- What the callers see. -/
def World.seen (w : World K V) : Act K V → List (Event Nat (Call K V) (Ret V))
  | .invoke tid c => [.invoke tid c]
  | .run _ => []
  | .respond tid =>
      match w.threads tid with
      | .answered r => [.respond tid r]
      | _ => []

/-- The system, from a new table made for `n` elements. -/
def system (cfg : Config K) (n : Nat) : TSys (World K V) (Act K V) where
  init := fun w => w = ⟨.create n, fun _ => .idle⟩
  step := World.step cfg

end LogDirect.Cuckoo
