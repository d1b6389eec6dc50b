import LogDirect.BitCask.Map
import LogDirect.Lib.History

/-!
# CuckooDB

`CuckooDB` (`database/dbtype.h`, lines 184–239) keeps its pairs in a libcuckoo map, taken
as a finite map whose `find` gives a default value for an absent key, and appends what it
stores to the file of `LogFileDB` (`logdb/logfile.h`). It is compared call by call with
the `BitCask` class of the same interface. `Get` and `Delete` of an absent key tell the
two apart, and so does a pair that the 8 KiB buffer of `LogFileDB::Put` does not hold.

A `write` to the log is whole. `sync_` is left out: it has no part in what a call
returns or in the bytes of the file.
-/

namespace LogDirect.Store

open Lib BitCask

/-! ## The log file -/

/-- `LogFileDB`: what has been written to `log.db`. -/
structure LogFileDB where
  file : Bytes

namespace LogFileDB

/-- `char buffer[8 * 1024]` -/
def bufferSize : Nat := 8 * 1024

/-- The record `Put` writes. -/
def record (key val : Bytes) : Bytes :=
  leBytes 4 key.length ++ leBytes 4 val.length ++ key ++ val

/-- `Put`; `none` is a record that overruns the buffer. -/
def put (l : LogFileDB) (key val : Bytes) : Option LogFileDB :=
  if 8 + key.length + val.length ≤ bufferSize then some ⟨l.file ++ record key val⟩ else none

/-- `PutBatch` -/
def putBatch (l : LogFileDB) (buffer : Bytes) : LogFileDB := ⟨l.file ++ buffer⟩

end LogFileDB

/-! ## The store -/

/-- `CuckooDB` -/
structure CuckooDB where
  db : DB
  log : LogFileDB

namespace CuckooDB

/-- A new store. -/
def create : CuckooDB := ⟨fun _ => none, ⟨[]⟩⟩

/-- `Put` -/
def put (s : CuckooDB) (key val : Bytes) : Option (Bool × CuckooDB) :=
  (s.log.put key val).map fun log => (true, ⟨Function.update s.db key (some val), log⟩)

/-- `Get`: `find` of an absent key is the empty string. -/
def get (s : CuckooDB) (key : Bytes) : Bool × Bytes := (true, (s.db key).getD [])

/-- `Update` -/
def update (s : CuckooDB) (key val : Bytes) : Option (Bool × CuckooDB) := s.put key val

/-- `Delete`: `erase`, and nothing in the log. -/
def delete (s : CuckooDB) (key : Bytes) : Bool × CuckooDB :=
  (true, { s with db := Function.update s.db key none })

/-- `PutBatch`: the values are copied out of the buffer by the entries. -/
def putBatch (s : CuckooDB) (keyBatch : List Bytes) (indexBatch : List DBIndex) (buf : Bytes) :
    Bool × CuckooDB :=
  (true, ⟨s.db.putBatch keyBatch indexBatch buf, s.log.putBatch buf⟩)

end CuckooDB

/-! ## Calls -/

/-- A call of a `DBType`; a `Get` comes with the memory of the process it runs in. -/
inductive Call
  | put (r : Pair)
  | update (r : Pair)
  | get (p : Process) (key : Bytes)
  | delete (key : Bytes)
  | putBatch (b : Batch)

/-- The class `BitCask`, which hands its calls to the database. -/
def bitCaskExec (db : DBImpl) : Call → Option (BitCask.Ret × DBImpl)
  | .put r => (db.put r.key r.value).map fun x => (.stored x.1, x.2)
  | .update r => (db.put r.key r.value).map fun x => (.stored x.1, x.2)
  | .get p key => (db.get p key).map fun v => (.value v, db)
  | .delete key => some (.deleted (db.delete key).1, (db.delete key).2)
  | .putBatch b =>
      (db.putBatch (b.items.map Item.key) (Item.index 0 b.items) (Item.bytes b.items)).map fun x =>
        (.stored true, x.2)

/-- The class `CuckooDB`. -/
def CuckooDB.exec (s : CuckooDB) : Call → Option (BitCask.Ret × CuckooDB)
  | .put r => (s.put r.key r.value).map fun x => (.stored x.1, x.2)
  | .update r => (s.update r.key r.value).map fun x => (.stored x.1, x.2)
  | .get _ key => some (.value (if (s.get key).1 then some (s.get key).2 else none), s)
  | .delete key => some (.deleted (s.delete key).1, (s.delete key).2)
  | .putBatch b =>
      let x := s.putBatch (b.items.map Item.key) (Item.index 0 b.items) (Item.bytes b.items)
      some (.stored x.1, x.2)

/-- The call as one on a finite map. -/
def Call.op : Call → Op
  | .put r => .put r
  | .update r => .put r
  | .get p key => .get p key
  | .delete key => .delete key
  | .putBatch b => .putBatch b

/-! ## The stores against the map -/

theorem bitCaskExec_spec {db : DBImpl} {m : DB} (h : db.Represents m) (c : Call) :
    ∃ db', bitCaskExec db c = some ((mapExec m c.op).1, db') ∧
      db'.Represents (mapExec m c.op).2 := by
  cases c with
  | putBatch b =>
    obtain ⟨db', hput, h'⟩ := DBImpl.putBatch_spec h b
    exact ⟨db', by rw [bitCaskExec, hput]; rfl, h'⟩
  | put r => exact DBImpl.exec_spec h (.put r)
  | update r => exact DBImpl.exec_spec h (.put r)
  | get p key => exact DBImpl.exec_spec h (.get p key)
  | delete key => exact DBImpl.exec_spec h (.delete key)

/-- The entry of a record selects the record's value. -/
theorem batchValue_item (pre post : Bytes) (r : Item) :
    DB.batchValue (pre ++ r.encode ++ post)
      ⟨.file 0 (pre.length + sizeofRequest), r.key.length, r.value.length⟩ = r.value := by
  have h : pre ++ r.encode ++ post =
      (pre ++ Request.header r.op r.key.length r.value.length ++ r.key) ++ (r.value ++ post) := by
    simp [Item.encode]
  unfold DB.batchValue DBIndex.fileOffset
  rw [h, List.drop_left' (by simp; omega), List.take_left' rfl]

/-- The entries of consecutive records select their values, in order. -/
theorem zip_index_items (pre post : Bytes) (items : List Item)
    (hwhole : ∀ r ∈ items, r.key.length + r.value.length ≤ maxRwCount) :
    ((items.map Item.key).zip (Item.index pre.length items)).map
      (fun p => (p.1, some (DB.batchValue (pre ++ Item.bytes items ++ post) p.2))) =
        items.map fun r => (r.key, some r.value) := by
  induction items generalizing pre with
  | nil => rfl
  | cons r items ih =>
    have hsplit : pre ++ Item.bytes (r :: items) ++ post =
        pre ++ r.encode ++ (Item.bytes items ++ post) := by
      simp [Item.bytes]
    have hrest : pre ++ Item.bytes (r :: items) ++ post =
        (pre ++ r.encode) ++ Item.bytes items ++ post := by
      simp [Item.bytes]
    have ih := ih (pre ++ r.encode) fun x hx => hwhole x (List.mem_cons_of_mem _ hx)
    rw [List.length_append, Item.length_encode, ← hrest] at ih
    simp only [List.map_cons, Item.index, List.zip_cons_cons, List.cons.injEq, Prod.mk.injEq,
      Option.some.injEq, true_and]
    refine ⟨?_, ih⟩
    rw [hsplit, DBImpl.ofFile_eq _ _ (hwhole r List.mem_cons_self), batchValue_item]

/-- `PutBatch` stores the records in order. -/
theorem putBatch_items (db : DB) (b : Batch) :
    db.putBatch (b.items.map Item.key) (Item.index 0 b.items) (Item.bytes b.items) =
      replay db (b.items.map fun r => (r.key, some r.value)) := by
  have h := zip_index_items [] [] b.items fun r hr => b.item_whole hr
  simp only [List.nil_append, List.append_nil, List.length_nil] at h
  unfold DB.putBatch
  rw [h]

/-- The calls to which `CuckooDB` answers as a finite map: a `Get` or a `Delete` of a key
that is there, and a pair that fits the buffer of the log. -/
def Agreeable (m : DB) : Call → Prop
  | .put r => 8 + r.key.length + r.value.length ≤ LogFileDB.bufferSize
  | .update r => 8 + r.key.length + r.value.length ≤ LogFileDB.bufferSize
  | .get _ key => (m key).isSome
  | .delete key => (m key).isSome
  | .putBatch _ => True

/-- What a call does to a finite map. -/
def mapNext (m : DB) (c : Call) : DB := (mapExec m c.op).2

namespace CuckooDB

/-- The store with the pair, and its record at the end of the log. -/
def stored (s : CuckooDB) (key val : Bytes) : CuckooDB :=
  ⟨Function.update s.db key (some val), ⟨s.log.file ++ LogFileDB.record key val⟩⟩

theorem put_of_fits (s : CuckooDB) {key val : Bytes}
    (h : 8 + key.length + val.length ≤ LogFileDB.bufferSize) :
    s.put key val = some (true, s.stored key val) := by
  rw [put, LogFileDB.put, if_pos h]
  rfl

theorem put_of_overrun (s : CuckooDB) {key val : Bytes}
    (h : ¬ 8 + key.length + val.length ≤ LogFileDB.bufferSize) : s.put key val = none := by
  rw [put, LogFileDB.put, if_neg h]
  rfl

theorem exec_of_agreeable {m : DB} {s : CuckooDB} {c : Call} (hs : s.db = m) (h : Agreeable m c) :
    ∃ s', s.exec c = some ((mapExec m c.op).1, s') ∧ s'.db = mapNext m c := by
  subst hs
  cases c with
  | put r =>
    refine ⟨s.stored r.key r.value, ?_, rfl⟩
    rw [exec, s.put_of_fits h]
    rfl
  | update r =>
    refine ⟨s.stored r.key r.value, ?_, rfl⟩
    rw [exec, update, s.put_of_fits h]
    rfl
  | get p key =>
    obtain ⟨v, hv⟩ := Option.isSome_iff_exists.mp h
    refine ⟨s, ?_, rfl⟩
    simp [exec, get, mapExec, Call.op, hv]
  | delete key =>
    have h : (s.db key).isSome = true := h
    refine ⟨(s.delete key).2, ?_, rfl⟩
    simp [exec, delete, mapExec, Call.op, h]
  | putBatch b => exact ⟨_, rfl, putBatch_items s.db b⟩

theorem exec_of_not_agreeable {m : DB} {s : CuckooDB} {c : Call} (hs : s.db = m)
    (h : ¬ Agreeable m c) (s' : CuckooDB) : s.exec c ≠ some ((mapExec m c.op).1, s') := by
  subst hs
  cases c with
  | put r => simp [exec, s.put_of_overrun h]
  | update r => simp [exec, update, s.put_of_overrun h]
  | get p key =>
    have hnone : s.db key = none := Option.not_isSome_iff_eq_none.mp h
    simp [exec, get, mapExec, Call.op, hnone]
  | delete key =>
    have hnone : s.db key = none := Option.not_isSome_iff_eq_none.mp h
    simp [exec, delete, mapExec, Call.op, hnone]
  | putBatch b => exact absurd trivial h

end CuckooDB

/-- **The two stores.** For every list of calls, from empty stores, `BitCask` and `CuckooDB`
return the same booleans and values exactly if every `Get` and every `Delete` is of a key
that is there when it is called, and every pair given to `Put` and `Update` fits the buffer
of the log. -/
theorem same_answers_iff (sync : Bool) (calls : List Call) :
    answers bitCaskExec calls (DBImpl.create sync) = answers CuckooDB.exec calls .create ↔
      Along mapNext Agreeable (fun _ => none) calls :=
  answers_eq_iff (R := fun m db => DBImpl.Represents db m) (S := fun m s => CuckooDB.db s = m)
    (fun _ _ c h => bitCaskExec_spec h c)
    (fun _ _ _ hs h => CuckooDB.exec_of_agreeable hs h)
    (fun _ _ _ hs h => CuckooDB.exec_of_not_agreeable hs h) calls
    (DBImpl.create_represents sync) rfl

/-- `Get` of a key nobody has stored: `BitCask` returns false, `CuckooDB` returns true and
the empty string. -/
theorem absent_get_differs : answers bitCaskExec [.get ⟨fun _ => 0, fun _ => none⟩ [1]]
      (DBImpl.create false) = some [.value none] ∧
    answers CuckooDB.exec [.get ⟨fun _ => 0, fun _ => none⟩ [1]] .create =
      some [.value (some [])] := ⟨rfl, rfl⟩

end LogDirect.Store
