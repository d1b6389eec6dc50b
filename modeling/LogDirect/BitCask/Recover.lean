import LogDirect.BitCask.Db
import LogDirect.Lib.TSys

/-!
# BitCask: recovery

`DBImpl::Recover` and `DBImpl::IndexCallback` (`db_impl.cc`, lines 158–241). The
caller of `Recover` walks the directory in whatever order `readdir` gives and
starts one `IndexCallback` thread for each index file; the threads scan their
files into the one `hash_table_` while the walk goes on. A schedule interleaves
the walk with single turns of the scans, each of which makes at most one
`insert_or_assign` or `erase`.

File names are typed: `stoi` reads back the number `to_string` put behind the
dash. A turn that faults, or a loop that turns without end, leaves `Recover`
without a return.
-/

namespace LogDirect.BitCask

open Lib

/-! ## The scan of an index file -/

/-- The entry `IndexCallback` makes of a record: `idx` begins as `Index()`, and
nothing sets its `flag_`. -/
def recovered (r : IndexRecord) : DBIndex :=
  let idx := Index.setFileaddr Index.default r.fileIndex r.fileOffset
  { idx with keySize := r.keySize % 2 ^ 31, valueSize := r.valueSize }

/-- What a record does to its key (lines 180–184). -/
def assignment (r : IndexRecord) : Bytes × Option DBIndex :=
  (r.key, if r.valueSize > 0 then some (recovered r) else none)

/-- Lines 166–186: the position after one turn of the loop, and the record the
turn decoded, if its reads succeeded. -/
def turn (stack : Mem) (f : File) (pos : Nat) : Option (Nat × Option IndexRecord) :=
  match f.read stack pos 4 with
  | none => none
  | some (false, _) => some (pos, none)
  | some (true, sizeBuf) =>
      let pos := u32 (pos + 4)
      let indexSize := decodeFixed32 sizeBuf 0
      match f.read stack pos indexSize with
      | none => none
      | some (false, _) => some (pos, none)
      | some (true, indexBuf) => some (u32 (pos + indexSize), some (decodeIndex indexBuf))

/-- Apply what a turn decoded. -/
def Table.apply (t : Table) : Option IndexRecord → Table
  | none => t
  | some r => Function.update t (assignment r).1 (assignment r).2

/-! ## The walk of the directory -/

/-- What `readdir` returns; `skipped` stands for a directory or `pmrlog.log`. -/
inductive Entry
  | skipped
  | index (id : Nat) (held : Bytes)
  | data (id : Nat) (held : Bytes)
  deriving DecidableEq

/-- The files of a closed database. -/
def DBImpl.close (db : DBImpl) : List Entry :=
  (List.range maxIndexCount).filterMap (fun i => (db.indexFiles i).map fun f => .index i f.bytes) ++
    (List.range db.fileNum).filterMap fun i => (db.dataFiles i).map fun f => .data i f.bytes

/-- A listing of the directory of a closed database, in any order. -/
def DBImpl.Lists (db : DBImpl) (entries : List Entry) : Prop :=
  (entries.filter (· ≠ .skipped)).Perm db.close

/-- An `IndexCallback` thread. -/
structure Scan where
  id : Nat
  file : File
  pos : Nat

/-- The loop condition of a scan is false. -/
def Scan.Finished (t : Scan) : Prop := t.file.fileOffset ≤ t.pos

/-- `Recover` in progress. -/
structure Recovery where
  todo : List Entry
  threads : List Scan
  hashTable : Table
  dataFiles : Nat → Option File
  indexFiles : Nat → Option File
  fileNum : Nat

/-- Who moves. -/
inductive RecoverLabel
  | walk
  | scan (i : Nat)

namespace Recovery

/-- Entering `Recover`. -/
def start (entries : List Entry) : Recovery where
  todo := entries
  threads := []
  hashTable _ := none
  dataFiles _ := none
  indexFiles _ := none
  fileNum := 0

/-- The body of the `readdir` loop (lines 203–232). -/
def visit (s : Recovery) : Entry → Recovery
  | .skipped => s
  | .index id held =>
      { s with
        indexFiles := Function.update s.indexFiles id (some (.new held))
        threads := s.threads ++ [⟨id, .new held, 0⟩] }
  | .data id held =>
      { s with
        dataFiles := Function.update s.dataFiles id (some (.new held))
        fileNum := if id + 1 > s.fileNum then id + 1 else s.fileNum }

def step (stack : Mem) (s : Recovery) : RecoverLabel → Option Recovery
  | .walk =>
      match s.todo with
      | [] => none
      | e :: todo => some (visit { s with todo := todo } e)
  | .scan i =>
      match s.threads[i]? with
      | none => none
      | some t =>
          if t.pos < t.file.fileOffset then
            (turn stack t.file t.pos).map fun (pos, r) =>
              { s with
                threads := s.threads.set i { t with pos := pos }
                hashTable := s.hashTable.apply r }
          else none

/-- All threads have been joined. -/
def Done (s : Recovery) : Prop := s.todo = [] ∧ ∀ t ∈ s.threads, t.Finished

/-- The database `Recover` leaves. -/
def database (s : Recovery) (sync : Bool) : DBImpl :=
  ⟨s.hashTable, s.dataFiles, s.indexFiles, s.fileNum, sync⟩

end Recovery

/-- `Recover` over a directory listing. -/
def recovery (stack : Mem) (entries : List Entry) : TSys Recovery RecoverLabel where
  init s := s = Recovery.start entries
  step s l := s.step stack l

/-- `DB::Open` of the directory that closing `db` leaves: some listing, some schedule. -/
def DBImpl.Reopens (db db' : DBImpl) : Prop :=
  ∃ stack entries tr s, db.Lists entries ∧
    (recovery stack entries).Run (Recovery.start entries) tr s ∧ s.Done ∧
    db' = s.database db.sync

end LogDirect.BitCask
