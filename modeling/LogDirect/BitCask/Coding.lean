import LogDirect.Core.Backend

/-!
# BitCask: index entries and their encoding

`database/bitcask/include/index.h` and `util/coding.cc`. The entry type is the
front ends' `DBIndex`: its address carries the selector `flag_`, and the two
halves of a file address are the two halves of the union. What the decoders
read is memory, not a byte string: they run over stack buffers that a short
read leaves partly unwritten.
-/

namespace LogDirect.BitCask

open Lib

/-- `uint32_t` arithmetic. -/
def u32 (n : Nat) : Nat := n % 2 ^ 32

theorem u32_eq {n : Nat} (h : n < 2 ^ 32) : u32 n = n := Nat.mod_eq_of_lt h

theorem u32_lt (n : Nat) : u32 n < 2 ^ 32 := Nat.mod_lt n (by norm_num)

theorem leNat_leBytes_four (n : Nat) : leNat (leBytes 4 n) = u32 n := by
  rw [leNat_leBytes, u32]
  norm_num

/-! ## Index entries -/

/-- `Index(file_index, file_offset, key_size, value_size)`: `flag_` is 1 and the
key size has 31 bits. -/
def Index.ofFile (fileIndex fileOffset keySize valueSize : Nat) : DBIndex :=
  ⟨.file fileIndex fileOffset, keySize % 2 ^ 31, u32 valueSize⟩

/-- `Index()` -/
def Index.default : DBIndex := ⟨.mem 0, 0, 0⟩

/-- `not_found` (`db_impl.cc`) -/
def notFound : DBIndex := Index.default

/-- `flag_` -/
def Index.flag (i : DBIndex) : Nat :=
  match i.addr with
  | .file _ _ => 1
  | .mem _ => 0

/-- `operator!=`: the statement that compares the sizes is never reached. -/
def Index.differs (i j : DBIndex) : Prop := i.memaddr ≠ j.memaddr ∨ flag i ≠ flag j

instance (i j : DBIndex) : Decidable (Index.differs i j) := inferInstanceAs (Decidable (_ ∨ _))

/-- `DataSize` -/
def Index.dataSize (i : DBIndex) : Nat := u32 (i.keySize + i.valueSize)

/-- `fileaddr_.file_index`, the high half of the union. -/
def Index.fileIndex (i : DBIndex) : Nat :=
  match i.addr with
  | .file idx _ => idx
  | .mem a => a / 2 ^ 32

/-- Assign both halves of `fileaddr_`; `flag_` stays. -/
def Index.setFileaddr (i : DBIndex) (fileIndex fileOffset : Nat) : DBIndex :=
  match i.addr with
  | .file _ _ => { i with addr := .file fileIndex fileOffset }
  | .mem _ => { i with addr := .mem (u32 fileOffset + 2 ^ 32 * u32 fileIndex) }

/-- An entry in a file is never taken for `not_found`. -/
theorem Index.file_differs (fi fo ks vs : Nat) : differs ⟨.file fi fo, ks, vs⟩ notFound := by
  right
  simp [flag, notFound, Index.default]

/-! ## Data records -/

/-- `EncodeData` -/
def encodeData (key value : Bytes) : Bytes := key ++ value

/-- `DecodeData` -/
def decodeData (buf : Mem) (keySize valueSize : Nat) : Bytes := buf.read keySize valueSize

/-! ## Index records -/

/-- `EncodeIndex` -/
def encodeIndex (key : Bytes) (fileIndex fileOffset keySize valueSize : Nat) : Bytes :=
  leBytes 4 (keySize + 4 * 4) ++ leBytes 4 fileIndex ++ leBytes 4 fileOffset ++
    leBytes 4 keySize ++ key.take keySize ++ leBytes 4 valueSize

/-- `DecodeFixed32` -/
def decodeFixed32 (buf : Mem) (pos : Nat) : Nat := leNat (buf.read pos 4)

/-- What `DecodeIndex` hands back. -/
structure IndexRecord where
  key : Bytes
  fileIndex : Nat
  fileOffset : Nat
  keySize : Nat
  valueSize : Nat
  deriving DecidableEq

/-- `DecodeIndex` -/
def decodeIndex (buf : Mem) : IndexRecord :=
  let keySize := decodeFixed32 buf 8
  { fileIndex := decodeFixed32 buf 0
    fileOffset := decodeFixed32 buf 4
    keySize := keySize
    key := buf.read 12 keySize
    valueSize := decodeFixed32 buf (12 + keySize) }

namespace IndexRecord

/-- The bytes `AppendIndex` writes for a record. -/
def encode (r : IndexRecord) : Bytes :=
  encodeIndex r.key r.fileIndex r.fileOffset r.keySize r.valueSize

/-- A record the writers make: the size field is the key's size, and every field
fits its word. The file index is not bounded by the writers. -/
structure Fits (r : IndexRecord) : Prop where
  keySize : r.keySize = r.key.length
  small : r.key.length + 16 < 2 ^ 32
  fileOffset : r.fileOffset < 2 ^ 32
  valueSize : r.valueSize < 2 ^ 32

/-- The record as the scan reads it back. -/
def stored (r : IndexRecord) : IndexRecord := { r with fileIndex := u32 r.fileIndex }

theorem length_encode {r : IndexRecord} (h : r.Fits) : r.encode.length = r.key.length + 20 := by
  simp only [encode, encodeIndex, List.length_append, length_leBytes, List.length_take,
    h.keySize, Nat.min_self]
  omega

/-- What follows the size field of an encoded record. -/
def body (r : IndexRecord) : Bytes :=
  leBytes 4 r.fileIndex ++ leBytes 4 r.fileOffset ++ leBytes 4 r.key.length ++ r.key ++
    leBytes 4 r.valueSize

theorem encode_eq {r : IndexRecord} (h : r.Fits) :
    r.encode = leBytes 4 (r.key.length + 16) ++ r.body := by
  simp [encode, encodeIndex, body, h.keySize]

@[simp] theorem length_body (r : IndexRecord) : r.body.length = r.key.length + 16 := by
  simp only [body, List.length_append, length_leBytes]
  omega

/-- A word inside a block. -/
theorem decodeFixed32_mid {buf : Mem} {bs : Bytes} (h : buf.read 0 bs.length = bs)
    (pre post : Bytes) {x pos : Nat} (hbs : bs = pre ++ leBytes 4 x ++ post)
    (hpos : pre.length = pos) : decodeFixed32 buf pos = u32 x := by
  rw [hbs] at h
  have hmid := Mem.read_mid pre (leBytes 4 x) post h
  rw [Nat.zero_add, hpos, length_leBytes] at hmid
  rw [decodeFixed32, hmid, leNat_leBytes_four]

/-- A buffer that holds the encoding of a record, less its size field, decodes to
the record. -/
theorem decodeIndex_body {r : IndexRecord} (h : r.Fits) {buf : Mem}
    (hbuf : buf.read 0 r.body.length = r.body) : decodeIndex buf = r.stored := by
  have hfi : decodeFixed32 buf 0 = u32 r.fileIndex := by
    apply decodeFixed32_mid hbuf [] (leBytes 4 r.fileOffset ++ leBytes 4 r.key.length ++ r.key ++
      leBytes 4 r.valueSize)
    · simp [body]
    · rfl
  have hfo : decodeFixed32 buf 4 = u32 r.fileOffset := by
    apply decodeFixed32_mid hbuf (leBytes 4 r.fileIndex) (leBytes 4 r.key.length ++ r.key ++
      leBytes 4 r.valueSize)
    · simp [body]
    · simp
  have hks : decodeFixed32 buf 8 = u32 r.key.length := by
    apply decodeFixed32_mid hbuf (leBytes 4 r.fileIndex ++ leBytes 4 r.fileOffset)
      (r.key ++ leBytes 4 r.valueSize)
    · simp [body]
    · simp
  have hkey : buf.read 12 r.key.length = r.key := by
    have hmid := Mem.read_mid (leBytes 4 r.fileIndex ++ leBytes 4 r.fileOffset ++
      leBytes 4 r.key.length) r.key (leBytes 4 r.valueSize) hbuf
    simpa using hmid
  have hvs : decodeFixed32 buf (12 + r.key.length) = u32 r.valueSize := by
    apply decodeFixed32_mid hbuf (leBytes 4 r.fileIndex ++ leBytes 4 r.fileOffset ++
      leBytes 4 r.key.length ++ r.key) []
    · simp [body]
    · simp only [List.length_append, length_leBytes]
  have hlen : r.key.length < 2 ^ 32 := by
    have := h.small
    omega
  rw [u32_eq hlen] at hks
  rw [u32_eq h.fileOffset] at hfo
  rw [u32_eq h.valueSize] at hvs
  unfold decodeIndex
  simp only [hfi, hfo, hks, hkey, hvs, stored, h.keySize]

end IndexRecord

end LogDirect.BitCask
