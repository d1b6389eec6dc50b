import LogDirect.Lib.Replay
import LogDirect.Core.Request

/-!
# The backend as a finite map, and batches of records

`database/dbtype.h` and `atendb::Index`. The front ends reach the store only
through `DBType`; here it is a finite map under `Get`, `Delete` and `PutBatch`,
the last one with the address arithmetic of the stores that take the values out
of the batch buffer (`CuckooDB::PutBatch`, `LevelDB::PutBatch`).

A batch is a list of records laid out one after another, with one index entry
for each record giving the offset of its key. `putBatch_batch` says that
`PutBatch` of such a batch stores the records in order.
-/

namespace LogDirect

open Lib

/-! ## Index entries -/

/-- The union of `atendb::Index`; the constructor is its `flag_`. -/
inductive Addr
  | file (fileIndex fileOffset : Nat)
  | mem (memaddr : Nat)
  deriving DecidableEq

/-- `atendb::Index`, the front ends' `DBIndex`. -/
structure DBIndex where
  addr : Addr
  keySize : Nat
  valueSize : Nat
  deriving DecidableEq

/-- `fileaddr_.file_offset`, the low half of the union. -/
def DBIndex.fileOffset (i : DBIndex) : Nat :=
  match i.addr with
  | .file _ off => off
  | .mem a => a % 2 ^ 32

/-- `memaddr_`, the whole union. -/
def DBIndex.memaddr (i : DBIndex) : Nat :=
  match i.addr with
  | .file idx off => off + 2 ^ 32 * idx
  | .mem a => a

/-! ## The store -/

/-- A backend that behaves as a finite map. -/
abbrev DB := Bytes → Option Bytes

/-- `DBType::Delete`, reporting whether the key was present. -/
def DB.delete (db : DB) (k : Bytes) : Bool × DB :=
  ((db k).isSome, Function.update db k none)

/-- The value an index entry selects from a batch buffer:
`buf + file_offset + key_size`, `value_size` bytes. -/
def DB.batchValue (buf : Bytes) (i : DBIndex) : Bytes :=
  (buf.drop (i.fileOffset + i.keySize)).take i.valueSize

/-- `DBType::PutBatch` -/
def DB.putBatch (db : DB) (keyBatch : List Bytes) (indexBatch : List DBIndex) (buf : Bytes) :
    DB :=
  replay db ((keyBatch.zip indexBatch).map fun p => (p.1, some (DB.batchValue buf p.2)))

/-- `DBType`, the interface of a store whose states are `σ`. The front ends make nothing
of what `PutBatch` returns. -/
structure DBType (σ : Type) where
  put : σ → Bytes → Bytes → Bool × σ
  get : σ → Bytes → Option Bytes × σ
  delete : σ → Bytes → Bool × σ
  putBatch : σ → List Bytes → List DBIndex → Bytes → σ
  setSync : σ → σ

/-- A finite map as a `DBType`. -/
def DB.dbType : DBType DB where
  put db k v := (true, Function.update db k (some v))
  get db k := (db k, db)
  delete := DB.delete
  putBatch := DB.putBatch
  setSync db := db

/-! ## Batches -/

namespace Batch

variable {b : Room}

/-- The bytes of a batch. -/
def bytes (rs : List (Record b)) : Bytes := rs.flatMap Record.encode

/-- The length of a batch. -/
def total (rs : List (Record b)) : Nat := (rs.map Record.length).sum

/-- The index entries of a batch that starts `off` bytes into its buffer. -/
def index : Nat → List (Record b) → List DBIndex
  | _, [] => []
  | off, r :: rs =>
      ⟨.file 0 (off + sizeofRequest), r.key.length, r.val.length⟩ :: index (off + r.length) rs

/-- The assignments a batch makes, in order. -/
def puts (rs : List (Record b)) : List (Bytes × Option Bytes) :=
  rs.map fun r => (r.key, some r.val)

@[simp] theorem bytes_nil : bytes ([] : List (Record b)) = [] := rfl

@[simp] theorem total_nil : total ([] : List (Record b)) = 0 := rfl

@[simp] theorem bytes_append (rs rs' : List (Record b)) :
    bytes (rs ++ rs') = bytes rs ++ bytes rs' := by
  simp [bytes]

@[simp] theorem total_append (rs rs' : List (Record b)) :
    total (rs ++ rs') = total rs + total rs' := by
  simp [total]

@[simp] theorem bytes_cons (r : Record b) (rs : List (Record b)) :
    bytes (r :: rs) = r.encode ++ bytes rs := rfl

@[simp] theorem total_cons (r : Record b) (rs : List (Record b)) :
    total (r :: rs) = r.length + total rs := by
  simp [total]

@[simp] theorem length_bytes (rs : List (Record b)) : (bytes rs).length = total rs := by
  induction rs with
  | nil => rfl
  | cons r rs ih => simp [ih]

theorem index_append (off : Nat) (rs rs' : List (Record b)) :
    index off (rs ++ rs') = index off rs ++ index (off + total rs) rs' := by
  induction rs generalizing off with
  | nil => simp [index]
  | cons r rs ih => simp [index, ih, Nat.add_assoc]

@[simp] theorem length_index (off : Nat) (rs : List (Record b)) :
    (index off rs).length = rs.length := by
  induction rs generalizing off with
  | nil => rfl
  | cons r rs ih => simp [index, ih]

@[simp] theorem puts_append (rs rs' : List (Record b)) :
    puts (rs ++ rs') = puts rs ++ puts rs' := by
  simp [puts]

theorem total_replicate (n : Nat) (r : Record b) : total (List.replicate n r) = n * r.length := by
  simp [total]

/-- A batch is empty exactly when it has no bytes. -/
theorem total_eq_zero {rs : List (Record b)} : total rs = 0 ↔ rs = [] := by
  constructor
  · intro h
    cases rs with
    | nil => rfl
    | cons r rs =>
      have := r.length_pos
      rw [total_cons] at h
      simp only [sizeofRequest] at this
      omega
  · rintro rfl
    rfl

/-- The entry of the `i`-th record of a batch. -/
theorem index_getElem? (off : Nat) {i : Nat} {rs : List (Record b)} {r : Record b}
    (h : rs[i]? = some r) : (index off rs)[i]? =
      some ⟨.file 0 (off + total (rs.take i) + sizeofRequest), r.key.length,
        r.val.length⟩ := by
  induction rs generalizing off i with
  | nil => simp at h
  | cons x rs ih =>
    cases i with
    | zero =>
      simp only [List.getElem?_cons_zero, Option.some.injEq] at h
      simp [index, h]
    | succ i =>
      rw [List.getElem?_cons_succ] at h
      simp [index, ih _ h, Nat.add_assoc]

/-- The key of the `i`-th record of a batch follows its header. -/
theorem read_key {m : Mem} {a i : Nat} {rs : List (Record b)} {r : Record b}
    (hread : m.read a (total rs) = bytes rs) (h : rs[i]? = some r) :
    m.read (a + (total (rs.take i) + sizeofRequest)) r.key.length = r.key := by
  induction rs generalizing a i with
  | nil => simp at h
  | cons x rs ih =>
    simp only [total_cons, bytes_cons] at hread
    rw [← Record.length_encode, ← length_bytes] at hread
    cases i with
    | zero =>
      simp only [List.getElem?_cons_zero, Option.some.injEq] at h
      subst h
      have hx := Mem.read_left _ _ hread
      have hlen : x.encode.length = (Request.header x.op x.key.length x.val.length).length +
          (x.key ++ x.val).length := by
        simp [Record.encode, Record.metaPart]
      have henc : x.encode = Request.header x.op x.key.length x.val.length ++
          (x.key ++ x.val) := by
        simp [Record.encode, Record.metaPart]
      rw [hlen, henc] at hx
      have hkv := Mem.read_right _ _ hx
      rw [List.length_append] at hkv
      simpa using Mem.read_left _ _ hkv
    | succ i =>
      rw [List.getElem?_cons_succ] at h
      have hrest := Mem.read_right _ _ hread
      rw [length_bytes, Record.length_encode] at hrest
      have := ih hrest h
      simpa [Nat.add_assoc] using this

/-- The entry of a record selects the record's value. -/
theorem batchValue_entry (pre post : Bytes) (r : Record b) :
    DB.batchValue (pre ++ r.encode ++ post)
      ⟨.file 0 (pre.length + sizeofRequest), r.key.length, r.val.length⟩ = r.val := by
  have h : pre ++ r.encode ++ post = (pre ++ r.metaPart) ++ (r.val ++ post) := by
    simp [Record.encode]
  unfold DB.batchValue DBIndex.fileOffset
  rw [h, List.drop_left' (by simp; omega), List.take_left' rfl]

/-- The entries of a batch select the values of its records, in order. -/
theorem zip_index (pre post : Bytes) (rs : List (Record b)) :
    ((rs.map Record.key).zip (index pre.length rs)).map
      (fun p => (p.1, some (DB.batchValue (pre ++ bytes rs ++ post) p.2))) = puts rs := by
  induction rs generalizing pre with
  | nil => rfl
  | cons r rs ih =>
    have hsplit : pre ++ bytes (r :: rs) ++ post = pre ++ r.encode ++ (bytes rs ++ post) := by
      simp
    have hrest : pre ++ bytes (r :: rs) ++ post = (pre ++ r.encode) ++ bytes rs ++ post := by
      simp
    have ih := ih (pre ++ r.encode)
    rw [List.length_append, Record.length_encode, ← hrest] at ih
    simp only [List.map_cons, index, List.zip_cons_cons, puts, List.cons.injEq, Prod.mk.injEq,
      Option.some.injEq, true_and]
    refine ⟨?_, ih⟩
    rw [hsplit, batchValue_entry]

/-- `PutBatch` of a batch stores its records in order. -/
theorem putBatch_batch (db : DB) (rs : List (Record b)) :
    db.putBatch (rs.map Record.key) (index 0 rs) (bytes rs) = replay db (puts rs) := by
  have h := zip_index [] [] rs
  simp only [List.nil_append, List.append_nil, List.length_nil] at h
  unfold DB.putBatch
  rw [h]

end Batch

end LogDirect
