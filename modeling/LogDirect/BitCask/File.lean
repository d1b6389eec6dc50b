import LogDirect.BitCask.Coding

/-!
# BitCask: files

`database/bitcask/file/posix_file.cc` and `include/env.h`. `Env::NewFile` opens
with `O_APPEND`, so a `pwrite` puts its bytes at the end of the file whatever
offset it is given; the offset a caller gets back is the one it reserved in
`file_offset_`. A `pwrite` is whole: its record is at most what the kernel
writes in one call, which the arguments of the writing calls carry as a field.

Each `pwrite` is kept as a chunk of its own, and `synced` counts the chunks the
last `fsync` covered; no function reads either, they say what a crash can take.
-/

namespace LogDirect.BitCask

open Lib

/-- `SEGMENT_SIZE` (`file.h`) -/
def segmentSize : Nat := 128 * 1024 * 1024

/-- `map_size_` (`posix_file.h`) -/
def mapSize : Nat := 4096 * 10

/-- What one `pwrite` writes at most. -/
def maxRwCount : Nat := 0x7ffff000

/-- `PosixFile` and the file behind it. -/
structure File where
  -- what the file held when it was opened, and every `pwrite` since
  held : Bytes
  chunks : List Bytes
  fileOffset : Nat
  synced : Nat

namespace File

/-- The contents of the file. -/
def bytes (f : File) : Bytes := f.held ++ f.chunks.flatten

/-- `Env::NewFile`: `GetFileSize` keeps the size in 32 bits. -/
def new (held : Bytes) : File := ⟨held, [], u32 held.length, 0⟩

/-- `pwrite` at the end of the file. -/
def pwrite (f : File) (bs : Bytes) : File := { f with chunks := f.chunks ++ [bs] }

/-- `Sync` -/
def sync (f : File) : File := { f with synced := f.chunks.length }

/-- `Read` into a buffer. Behind `file_offset_` it copies from `base_buf_`, which
is null: `none` is the fault. A short `pread` leaves the rest of the buffer. -/
def read (f : File) (buf : Mem) (offset n : Nat) : Option (Bool × Mem) :=
  if offset > f.fileOffset then
    if offset - f.fileOffset > mapSize then some (false, buf)
    else if n = 0 then some (true, buf) else none
  else some (true, buf.write 0 ((f.bytes.drop offset).take n))

/-- The compare-exchange loop on `file_offset_`: the offset reserved, or `none`
for a full segment. -/
def reserve (f : File) (n : Nat) : Option (Nat × File) :=
  if f.fileOffset ≥ segmentSize then none
  else some (f.fileOffset, { f with fileOffset := u32 (f.fileOffset + n) })

/-- `AppendData` -/
def appendData (f : File) (key value : Bytes) : Option (Nat × File) :=
  (f.reserve (u32 (key.length + value.length))).map fun r =>
    (r.1, r.2.pwrite (encodeData key value))

/-- `AppendDataBatch` -/
def appendDataBatch (f : File) (buf : Bytes) : Option (Nat × File) :=
  (f.reserve buf.length).map fun r => (r.1, r.2.pwrite buf)

/-- `AppendIndex` -/
def appendIndex (f : File) (r : IndexRecord) : File :=
  { f.pwrite r.encode with fileOffset := u32 (f.fileOffset + (r.key.length + 4 * 5)) }

@[simp] theorem bytes_new (held : Bytes) : (new held).bytes = held := by
  simp [bytes, new]

@[simp] theorem bytes_pwrite (f : File) (bs : Bytes) : (f.pwrite bs).bytes = f.bytes ++ bs := by
  simp [bytes, pwrite]

@[simp] theorem bytes_appendIndex (f : File) (r : IndexRecord) :
    (f.appendIndex r).bytes = f.bytes ++ r.encode :=
  bytes_pwrite f r.encode

/-- A read up to the end of what is reserved sees the bytes of the file. -/
theorem read_of_le {f : File} (buf : Mem) {offset : Nat} (n : Nat) (h : offset ≤ f.fileOffset) :
    f.read buf offset n = some (true, buf.write 0 ((f.bytes.drop offset).take n)) := by
  unfold read
  rw [if_neg (by omega)]

theorem reserve_eq_none {f : File} {n : Nat} (h : f.reserve n = none) :
    segmentSize ≤ f.fileOffset := by
  unfold reserve at h
  split at h
  · assumption
  · cases h

theorem reserve_eq_some {f f' : File} {n off : Nat} (h : f.reserve n = some (off, f')) :
    f.fileOffset < segmentSize ∧ off = f.fileOffset ∧
      f' = { f with fileOffset := u32 (f.fileOffset + n) } := by
  unfold reserve at h
  split at h
  · cases h
  · cases h
    exact ⟨by omega, rfl, rfl⟩

end File

/-! ## What the writing calls are given -/

/-- The arguments of `Put`: a record one `pwrite` writes whole. -/
structure Pair where
  key : Bytes
  value : Bytes
  whole : key.length + value.length ≤ maxRwCount

theorem whole_of_length_le {key value : Bytes} (hkey : key.length ≤ 1) (hvalue : value.length ≤ 1) :
    key.length + value.length ≤ maxRwCount := by
  rw [maxRwCount]
  omega

/-- A `Request` record in the buffer of `PutBatch`. -/
structure Item where
  op : Operation
  key : Bytes
  value : Bytes

namespace Item

/-- The bytes of the record. -/
def encode (r : Item) : Bytes := Request.header r.op r.key.length r.value.length ++ r.key ++ r.value

/-- `Request::Length` -/
def length (r : Item) : Nat := sizeofRequest + r.key.length + r.value.length

@[simp] theorem length_encode (r : Item) : r.encode.length = r.length := by
  simp only [encode, length, List.length_append, Request.length_header]

/-- The bytes of consecutive records. -/
def bytes (rs : List Item) : Bytes := rs.flatMap encode

/-- The length of consecutive records. -/
def total (rs : List Item) : Nat := (rs.map length).sum

/-- The index entries of consecutive records, the key offsets relative to the
start of the buffer. -/
def index : Nat → List Item → List DBIndex
  | _, [] => []
  | off, r :: rs =>
      Index.ofFile 0 (off + sizeofRequest) r.key.length r.value.length :: index (off + r.length) rs

@[simp] theorem length_bytes (rs : List Item) : (bytes rs).length = total rs := by
  induction rs with
  | nil => rfl
  | cons r rs ih =>
    simp only [bytes, total, List.flatMap_cons, List.length_append, List.map_cons, List.sum_cons,
      length_encode] at ih ⊢
    rw [ih]

end Item

/-- The arguments of `PutBatch`: concatenated records that one `pwrite` writes
whole. -/
structure Batch where
  items : List Item
  whole : Item.total items ≤ maxRwCount

/-- No record of a batch is longer than the batch. -/
theorem Batch.item_whole (b : Batch) {r : Item} (hr : r ∈ b.items) :
    r.key.length + r.value.length ≤ maxRwCount := by
  obtain ⟨pre, post, hitems⟩ := List.append_of_mem hr
  have hwhole := b.whole
  simp only [hitems, Item.total, Item.length, List.map_append, List.map_cons, List.sum_append,
    List.sum_cons] at hwhole
  omega

theorem Batch.length_bytes_le (b : Batch) : (Item.bytes b.items).length ≤ maxRwCount := by
  rw [Item.length_bytes]
  exact b.whole

/-- The two appends and their arguments. -/
inductive Append
  | data (r : Pair)
  | batch (buf : Bytes) (whole : buf.length ≤ maxRwCount)

namespace Append

/-- What the call writes. -/
def bytes : Append → Bytes
  | data r => encodeData r.key r.value
  | batch buf _ => buf

/-- What the call adds to `file_offset_`. -/
def size : Append → Nat
  | data r => u32 (r.key.length + r.value.length)
  | batch buf _ => buf.length

theorem length_bytes_le (c : Append) : c.bytes.length ≤ maxRwCount := by
  cases c with
  | data r =>
    rw [bytes, encodeData, List.length_append]
    exact r.whole
  | batch buf whole => exact whole

theorem size_eq (c : Append) : c.size = c.bytes.length := by
  cases c with
  | data r =>
    have hwhole := r.whole
    rw [maxRwCount] at hwhole
    rw [size, bytes, encodeData, List.length_append, u32_eq (by omega)]
  | batch buf whole => rfl

end Append

end LogDirect.BitCask
