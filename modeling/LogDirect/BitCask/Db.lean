import LogDirect.BitCask.File
import LogDirect.Lib.History
import LogDirect.Lib.Replay

/-!
# BitCask: the database

`database/bitcask/db/db_impl.cc`, `util/hash.h`. One data file is written at a
time, the last one; a full one makes `Put` and `PutBatch` open the next and try
again. `hash_table_` says where each key's last record lies, and every update of
it is repeated in one of sixteen index files, which is all that `Recover` reads.

The operations here are the sequential ones: each function runs from its entry
to its return. `none` is a run that does not return: a fault, a failed `assert`,
or a loop that goes on. `Lock`, `Unlock` and `TryLock` of `global_lock_` always
succeed for a single caller.
-/

namespace LogDirect.BitCask

open Lib

/-- `MAX_INDEX_COUNT`, the value of `max_index_num_`. -/
def maxIndexCount : Nat := 16

/-- `*str++` as it enters unsigned arithmetic: `char` is signed. -/
def signedChar (b : UInt8) : Nat := if b.toNat < 128 then b.toNat else b.toNat + (2 ^ 32 - 256)

/-- `Hash` of a key's `c_str()`, which ends at the first NUL. -/
def hash (key : Bytes) : Nat :=
  (key.takeWhile (· ≠ 0)).foldl (fun h b => u32 (h * 131 + signedChar b)) 0 &&& 0x7FFFFFFF

/-- The index file of a key. -/
def slot (key : Bytes) : Nat := hash key % maxIndexCount

theorem slot_lt (key : Bytes) : slot key < maxIndexCount := Nat.mod_lt _ (by decide)

/-- The record `AppendIndex` is called with for an entry. -/
def indexRecord (key : Bytes) (idx : DBIndex) : IndexRecord :=
  ⟨key, Index.fileIndex idx, idx.fileOffset, idx.keySize, idx.valueSize⟩

/-- `hash_table_` -/
abbrev Table := Bytes → Option DBIndex

/-- `DBImpl`. The vectors of files are functions; `data_files_` has `file_num_`
elements. Each data file keeps a descriptor open, so `file_num_` stays far below
its 32 bits. -/
structure DBImpl where
  hashTable : Table
  dataFiles : Nat → Option File
  indexFiles : Nat → Option File
  fileNum : Nat
  sync : Bool

/-- The memory of the process that runs the database: what its stack buffers hold
before they are written, and what is mapped where. -/
structure Process where
  stack : Mem
  heap : Nat → Option UInt8

/-- `memcpy` out of the process's memory; `none` where a byte is not mapped. -/
def Process.copy (p : Process) (addr n : Nat) : Option Bytes :=
  (List.range n).mapM fun i => p.heap (addr + i)

namespace DBImpl

/-- `DB::Open` of a directory that does not exist. -/
def create (sync : Bool) : DBImpl where
  hashTable _ := none
  dataFiles i := if i = 0 then some (.new []) else none
  indexFiles i := if i < maxIndexCount then some (.new []) else none
  fileNum := 1
  sync := sync

/-- Open the next data file (lines 61–67). -/
def newSegment (db : DBImpl) : DBImpl :=
  { db with
    dataFiles := Function.update db.dataFiles db.fileNum (some (.new []))
    fileNum := db.fileNum + 1 }

/-- Replace a data file. -/
def setDataFile (db : DBImpl) (i : Nat) (f : File) : DBImpl :=
  { db with dataFiles := Function.update db.dataFiles i (some f) }

@[simp] theorem setDataFile_dataFiles (db : DBImpl) (i : Nat) (f : File) :
    (db.setDataFile i f).dataFiles i = some f := Function.update_self ..

/-- `if(sync_) data_file->Sync()` -/
def syncData (db : DBImpl) (f : File) : File := if db.sync then f.sync else f

/-- The retry loop of `Put` and `PutBatch`, at most so many
rounds of it, with the `Sync`: the database, the file and the offset of the record. -/
def append (write : File → Option (Nat × File)) : Nat → DBImpl → Option (DBImpl × Nat × Nat)
  | 0, _ => none
  | rounds + 1, db =>
      match db.dataFiles (db.fileNum - 1) with
      | none => none
      | some f =>
          match write f with
          | some (off, f) =>
              some (db.setDataFile (db.fileNum - 1) (db.syncData f), db.fileNum - 1, off)
          | none => append write rounds db.newSegment

/-- `insert_or_assign` into `hash_table_`, then `AppendIndex` to the key's index
file `f`. -/
def insert (db : DBImpl) (key : Bytes) (idx : DBIndex) (f : File) : DBImpl :=
  { db with
    hashTable := Function.update db.hashTable key (some idx)
    indexFiles :=
      Function.update db.indexFiles (slot key) (some (f.appendIndex (indexRecord key idx))) }

@[simp] theorem insert_hashTable (db : DBImpl) (key : Bytes) (idx : DBIndex) (f : File) :
    (db.insert key idx f).hashTable = Function.update db.hashTable key (some idx) := rfl

/-- Lines 51–55 and 96–100. -/
def storeIndex (db : DBImpl) (key : Bytes) (idx : DBIndex) : Option DBImpl :=
  (db.indexFiles (slot key)).map (db.insert key idx)

/-- `Put`. A second round always finds room. -/
def put (db : DBImpl) (key value : Bytes) : Option (Bool × DBImpl) := do
  let (db, fileIndex, fileOffset) ← append (·.appendData key value) 2 db
  let db ← db.storeIndex key (Index.ofFile fileIndex fileOffset key.length value.length)
  return (true, db)

/-- The loop of `PutBatch` over the index entries (lines 92–101). -/
def storeBatch (fileIndex fileOffset : Nat) : List (Bytes × DBIndex) → DBImpl → Option DBImpl
  | [], db => some db
  | (key, idx) :: rest, db => do
      let idx := Index.setFileaddr idx fileIndex (u32 (fileOffset + idx.fileOffset))
      let db ← db.storeIndex key idx
      storeBatch fileIndex fileOffset rest db

/-- `PutBatch` -/
def putBatch (db : DBImpl) (keyBatch : List Bytes) (indexBatch : List DBIndex) (buf : Bytes) :
    Option (Bool × DBImpl) := do
  let (db, fileIndex, fileOffset) ← append (·.appendDataBatch buf) 2 db
  let db ← storeBatch fileIndex fileOffset (keyBatch.zip indexBatch) db
  return (true, db)

/-- `hash_table_.find`: a default entry for an absent key. -/
def find (db : DBImpl) (key : Bytes) : DBIndex := (db.hashTable key).getD Index.default

/-- `Get`: the value, if it returns true. -/
def get (db : DBImpl) (p : Process) (key : Bytes) : Option (Option Bytes) :=
  let idx := db.find key
  if Index.differs idx notFound then
    if Index.flag idx = 0 then
      -- in memory
      (p.copy idx.memaddr (Index.dataSize idx)).map fun bs =>
        some (decodeData (p.stack.write 0 bs) idx.keySize idx.valueSize)
    else if Index.fileIndex idx < db.fileNum then
      match db.dataFiles (Index.fileIndex idx) with
      | none => none
      | some f =>
          (f.read p.stack idx.fileOffset (Index.dataSize idx)).map fun r =>
            if r.1 then some (decodeData r.2 idx.keySize idx.valueSize) else none
    else none
  else some none

/-- `Delete`; nothing goes to the index files. -/
def delete (db : DBImpl) (key : Bytes) : Bool × DBImpl :=
  if Index.differs (db.find key) notFound then
    (true, { db with hashTable := Function.update db.hashTable key none })
  else (false, db)

end DBImpl

/-! ## Histories -/

/-- A call; a `Get` comes with the memory of the process it runs in. -/
inductive Op
  | put (r : Pair)
  | putBatch (b : Batch)
  | get (p : Process) (key : Bytes)
  | delete (key : Bytes)

/-- What a call returns. -/
inductive Ret
  | stored (ok : Bool)
  | value (v : Option Bytes)
  | deleted (found : Bool)
  deriving DecidableEq

namespace DBImpl

/-- One call, from its entry to its return. -/
def exec (db : DBImpl) : Op → Option (Ret × DBImpl)
  | .put r => (db.put r.key r.value).map fun x => (.stored x.1, x.2)
  | .putBatch b =>
      (db.putBatch (b.items.map Item.key) (Item.index 0 b.items) (Item.bytes b.items)).map fun x =>
        (.stored x.1, x.2)
  | .get p key => (db.get p key).map fun v => (.value v, db)
  | .delete key => some (.deleted (db.delete key).1, (db.delete key).2)

/-- A sequential history. -/
def run (ops : List Op) (db : DBImpl) : Option (List Ret × DBImpl) := Lib.history exec ops db

end DBImpl

end LogDirect.BitCask
