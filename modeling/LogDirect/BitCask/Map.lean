import LogDirect.BitCask.Db

/-!
# BitCask as a finite map

The calls of a sequential history return what a finite map would. `Holds` says
what `hash_table_` must say about a key for `Get` to find its value: a range of
a data file that begins with the key and goes on with the value. Files only
grow, so an entry that holds keeps holding (`Grows`), and each writing call adds
entries that do:

* `append_spec` — the retry loop ends in its second round at the latest, with
  the record at the offset it returns;
* `put_spec`, `putBatch_spec`, `delete_spec`, `get_spec` — one call against the
  map;
* `acts_as_map` — a history against the map.
-/

namespace LogDirect.BitCask

open Lib

/-! ## Files -/

/-- Everything reserved in the file is written. -/
def File.Tight (f : File) : Prop := f.fileOffset = f.bytes.length

theorem File.new_tight : (File.new []).Tight := rfl

/-- A record of one `pwrite` never carries an offset over 32 bits. -/
theorem u32_append {off n : Nat} (hoff : off < segmentSize) (hn : n ≤ maxRwCount) :
    u32 (off + n) = off + n := by
  apply u32_eq
  simp only [segmentSize, maxRwCount] at hoff hn
  omega

/-- The file after an append. -/
def File.extend (f : File) (bs : Bytes) : File :=
  ({ f with fileOffset := u32 (f.fileOffset + bs.length) } : File).pwrite bs

@[simp] theorem File.bytes_extend (f : File) (bs : Bytes) :
    (f.extend bs).bytes = f.bytes ++ bs := by
  simp [extend, bytes, pwrite]

theorem File.Tight.extend {f : File} (h : f.Tight) {bs : Bytes} (hroom : f.fileOffset < segmentSize)
    (hbs : bs.length ≤ maxRwCount) : (f.extend bs).Tight := by
  show u32 (f.fileOffset + bs.length) = _
  rw [u32_append hroom hbs, File.bytes_extend, List.length_append, h]

namespace DBImpl

/-- The files of an open database. -/
structure Files (db : DBImpl) : Prop where
  pos : 0 < db.fileNum
  data : ∀ i < db.fileNum, ∃ f, db.dataFiles i = some f ∧ f.Tight
  index : ∀ i < maxIndexCount, ∃ f, db.indexFiles i = some f

/-- Data files are only appended to. -/
structure Grows (db db' : DBImpl) : Prop where
  fileNum : db.fileNum ≤ db'.fileNum
  data : ∀ i f, i < db.fileNum → db.dataFiles i = some f →
    ∃ f', db'.dataFiles i = some f' ∧ f.bytes <+: f'.bytes

variable {db db' : DBImpl} {f : File} {key value : Bytes} {idx : DBIndex} {fi off : Nat}
  {m : Bytes → Option Bytes}

theorem Files.tight (h : db.Files) {i : Nat} (hi : i < db.fileNum) (hf : db.dataFiles i = some f) :
    f.Tight := by
  obtain ⟨g, hg, htight⟩ := h.data i hi
  rw [hf] at hg
  cases hg
  exact htight

/-- The entry names a range of a data file that holds the key and then the value. -/
structure Holds (db : DBImpl) (key : Bytes) (idx : DBIndex) (value : Bytes) (f : File)
    (fileIndex off : Nat) : Prop where
  entry : idx = ⟨.file fileIndex off, key.length, value.length⟩
  lt : fileIndex < db.fileNum
  file : db.dataFiles fileIndex = some f
  small : key.length + value.length < 2 ^ 32
  inside : off ≤ f.bytes.length
  bytes : key ++ value <+: f.bytes.drop off

theorem create_files (sync : Bool) : (create sync).Files := by
  refine ⟨Nat.one_pos, ?_, ?_⟩
  · intro i hi
    have hi : i = 0 := by
      simp only [create] at hi
      omega
    subst hi
    exact ⟨.new [], rfl, File.new_tight⟩
  · intro i hi
    exact ⟨.new [], if_pos hi⟩

/-- An entry that holds keeps holding as the files grow. -/
theorem Holds.grows (h : db.Holds key idx value f fi off) (hg : db.Grows db') :
    ∃ f', db'.Holds key idx value f' fi off := by
  obtain ⟨f', hf', hpre⟩ := hg.data fi f h.lt h.file
  refine ⟨f', h.entry, lt_of_lt_of_le h.lt hg.fileNum, hf', h.small, ?_, ?_⟩
  · exact h.inside.trans hpre.length_le
  · obtain ⟨rest, hrest⟩ := hpre
    rw [← hrest, List.drop_append_of_le_length h.inside]
    exact h.bytes.trans (List.prefix_append _ _)

theorem Holds.congr (h : db.Holds key idx value f fi off) (hdata : db'.dataFiles = db.dataFiles)
    (hnum : db'.fileNum = db.fileNum) : db'.Holds key idx value f fi off :=
  ⟨h.entry, hnum ▸ h.lt, hdata ▸ h.file, h.small, h.inside, h.bytes⟩

/-! ## The retry loop -/

/-- A `PosixFile` append of some bytes. -/
def Writes (write : File → Option (Nat × File)) (bs : Bytes) : Prop :=
  ∀ f, write f = if f.fileOffset ≥ segmentSize then none else some (f.fileOffset, f.extend bs)

theorem writes_appendDataBatch (bs : Bytes) : Writes (·.appendDataBatch bs) bs := by
  intro f
  simp only [File.appendDataBatch, File.reserve]
  split <;> rfl

theorem writes_appendData (r : Pair) :
    Writes (·.appendData r.key r.value) (encodeData r.key r.value) := by
  intro f
  have hlen : u32 (r.key.length + r.value.length) = (encodeData r.key r.value).length := by
    rw [encodeData, List.length_append]
    apply u32_eq
    have := r.whole
    simp only [maxRwCount] at this
    omega
  simp only [File.appendData, hlen]
  exact writes_appendDataBatch _ f

@[simp] theorem bytes_syncData (db : DBImpl) (f : File) : (db.syncData f).bytes = f.bytes := by
  unfold syncData
  split <;> rfl

theorem syncData_tight (db : DBImpl) (h : f.Tight) : (db.syncData f).Tight := by
  unfold syncData
  split
  · exact h
  · exact h

/-- What the retry loop leaves behind. -/
structure Appended (db : DBImpl) (bs : Bytes) (db' : DBImpl) (f : File) (fileIndex off : Nat) :
    Prop where
  table : db'.hashTable = db.hashTable
  index : db'.indexFiles = db.indexFiles
  files : db'.Files
  grows : db.Grows db'
  lt : fileIndex < db'.fileNum
  file : db'.dataFiles fileIndex = some f
  room : off < segmentSize
  bytes : ∃ pre : Bytes, pre.length = off ∧ f.bytes = pre ++ bs

/-- A round that finds room. -/
theorem append_room (hdb : db.Files) {write : File → Option (Nat × File)} {bs : Bytes}
    (hw : Writes write bs) (hbs : bs.length ≤ maxRwCount)
    (hf : db.dataFiles (db.fileNum - 1) = some f) (hroom : f.fileOffset < segmentSize) (n : Nat) :
    ∃ db' f', append write (n + 1) db = some (db', db.fileNum - 1, f.fileOffset) ∧
      db.Appended bs db' f' (db.fileNum - 1) f.fileOffset := by
  have hpos := hdb.pos
  have htight : f.Tight := hdb.tight (by omega) hf
  have hwrite : write f = some (f.fileOffset, f.extend bs) := by
    rw [hw f, if_neg (by omega)]
  refine ⟨db.setDataFile (db.fileNum - 1) (db.syncData (f.extend bs)), db.syncData (f.extend bs),
    ?_, rfl, rfl, ⟨hpos, ?_, hdb.index⟩, ⟨Nat.le_refl _, ?_⟩, ?_, ?_, hroom, ?_⟩
  · simp only [append, hf, hwrite]
  · intro i hi
    by_cases hlast : i = db.fileNum - 1
    · subst hlast
      exact ⟨_, Function.update_self .., db.syncData_tight (htight.extend hroom hbs)⟩
    · obtain ⟨g, hg, hgt⟩ := hdb.data i hi
      exact ⟨g, (Function.update_of_ne hlast ..).trans hg, hgt⟩
  · intro i g hi hg
    by_cases hlast : i = db.fileNum - 1
    · subst hlast
      rw [hf] at hg
      cases hg
      refine ⟨_, Function.update_self .., ?_⟩
      simp
    · exact ⟨g, (Function.update_of_ne hlast ..).trans hg, List.prefix_refl _⟩
  · show db.fileNum - 1 < db.fileNum
    omega
  · exact Function.update_self ..
  · exact ⟨f.bytes, htight.symm, by simp⟩

theorem newSegment_files (h : db.Files) : db.newSegment.Files := by
  refine ⟨Nat.succ_pos _, ?_, h.index⟩
  intro i hi
  by_cases hlast : i = db.fileNum
  · subst hlast
    exact ⟨_, Function.update_self .., File.new_tight⟩
  · have hi : i < db.fileNum := by
      simp only [newSegment] at hi
      omega
    obtain ⟨f, hf, hft⟩ := h.data i hi
    exact ⟨f, (Function.update_of_ne hlast ..).trans hf, hft⟩

theorem newSegment_grows (db : DBImpl) : db.Grows db.newSegment := by
  refine ⟨Nat.le_succ _, ?_⟩
  intro i f hi hf
  exact ⟨f, (Function.update_of_ne (Nat.ne_of_lt hi) ..).trans hf, List.prefix_refl _⟩

theorem Grows.trans {a b c : DBImpl} (hab : a.Grows b) (hbc : b.Grows c) : a.Grows c := by
  refine ⟨hab.fileNum.trans hbc.fileNum, ?_⟩
  intro i f hi hf
  obtain ⟨g, hg, hfg⟩ := hab.data i f hi hf
  obtain ⟨e, he, hge⟩ := hbc.data i g (lt_of_lt_of_le hi hab.fileNum) hg
  exact ⟨e, he, hfg.trans hge⟩

/-- The retry loop ends in its second round at the latest: a new segment has
room. -/
theorem append_spec (hdb : db.Files) {write : File → Option (Nat × File)} {bs : Bytes}
    (hw : Writes write bs) (hbs : bs.length ≤ maxRwCount) (n : Nat) :
    ∃ db' f fi off, append write (n + 2) db = some (db', fi, off) ∧
      db.Appended bs db' f fi off := by
  obtain ⟨f, hf, -⟩ := hdb.data (db.fileNum - 1) (by have := hdb.pos; omega)
  by_cases hroom : f.fileOffset < segmentSize
  · obtain ⟨db', f', happ, h⟩ := append_room hdb hw hbs hf hroom (n + 1)
    exact ⟨db', f', _, _, happ, h⟩
  · have hfull : write f = none := by
      rw [hw f, if_pos (by omega)]
    have hlast : db.newSegment.dataFiles (db.newSegment.fileNum - 1) = some (.new []) :=
      Function.update_self ..
    obtain ⟨db', f', happ, h⟩ := append_room (newSegment_files hdb) hw hbs hlast
      (by decide) n
    refine ⟨db', f', _, _, ?_, h.table, h.index, h.files, (newSegment_grows db).trans h.grows,
      h.lt, h.file, h.room, h.bytes⟩
    rw [← happ]
    simp only [append, hf, hfull]

/-! ## One call against the map -/

/-- Sizes of what one `pwrite` takes fit the fields of an entry. -/
theorem ofFile_eq (fi fo : Nat) {ks vs : Nat} (h : ks + vs ≤ maxRwCount) :
    Index.ofFile fi fo ks vs = ⟨.file fi fo, ks, vs⟩ := by
  simp only [maxRwCount] at h
  have hks : ks % 2 ^ 31 = ks := Nat.mod_eq_of_lt (by omega)
  have hvs : u32 vs = vs := u32_eq (by omega)
  rw [Index.ofFile, hks, hvs]

/-- The map a database stands for. -/
structure Represents (db : DBImpl) (m : Bytes → Option Bytes) : Prop where
  files : db.Files
  absent : ∀ key, db.hashTable key = none → m key = none
  present : ∀ key idx, db.hashTable key = some idx →
    ∃ value f fi off, m key = some value ∧ db.Holds key idx value f fi off

theorem create_represents (sync : Bool) : (create sync).Represents fun _ => none := by
  refine ⟨create_files sync, fun _ _ => rfl, ?_⟩
  intro key idx h
  cases h

theorem Represents.grows (h : db.Represents m) (hfiles : db'.Files)
    (htable : db'.hashTable = db.hashTable) (hg : db.Grows db') : db'.Represents m := by
  refine ⟨hfiles, ?_, ?_⟩
  · intro key hkey
    rw [htable] at hkey
    exact h.absent key hkey
  · intro key idx hkey
    rw [htable] at hkey
    obtain ⟨value, f, fi, off, hm, hh⟩ := h.present key idx hkey
    obtain ⟨f', hh'⟩ := hh.grows hg
    exact ⟨value, f', fi, off, hm, hh'⟩

/-- Storing an entry that holds assigns the value to the key. -/
theorem storeIndex_spec (h : db.Represents m) (hh : db.Holds key idx value f fi off) :
    ∃ db', db.storeIndex key idx = some db' ∧ db'.dataFiles = db.dataFiles ∧
      db'.fileNum = db.fileNum ∧ db'.Represents (Function.update m key (some value)) := by
  obtain ⟨g, hg⟩ := h.files.index (slot key) (slot_lt key)
  have hstore : db.storeIndex key idx = some (db.insert key idx g) := by
    rw [storeIndex, hg]
    rfl
  refine ⟨_, hstore, rfl, rfl, ⟨h.files.pos, h.files.data, ?_⟩, ?_, ?_⟩
  · intro i hi
    by_cases hslot : i = slot key
    · subst hslot
      exact ⟨_, Function.update_self ..⟩
    · obtain ⟨e, he⟩ := h.files.index i hi
      exact ⟨e, (Function.update_of_ne hslot ..).trans he⟩
  · intro key' hkey'
    by_cases hk : key' = key
    · subst hk
      simp [insert] at hkey'
    · rw [insert_hashTable, Function.update_of_ne hk] at hkey'
      rw [Function.update_of_ne hk]
      exact h.absent key' hkey'
  · intro key' idx' hkey'
    by_cases hk : key' = key
    · subst hk
      rw [insert_hashTable, Function.update_self] at hkey'
      cases hkey'
      exact ⟨value, f, fi, off, Function.update_self .., hh.congr rfl rfl⟩
    · rw [insert_hashTable, Function.update_of_ne hk] at hkey'
      rw [Function.update_of_ne hk]
      obtain ⟨value', f', fi', off', hm, hh'⟩ := h.present key' idx' hkey'
      exact ⟨value', f', fi', off', hm, hh'.congr rfl rfl⟩

/-- `Put` stores the pair. -/
theorem put_spec (h : db.Represents m) (r : Pair) :
    ∃ db', db.put r.key r.value = some (true, db') ∧
      db'.Represents (Function.update m r.key (some r.value)) := by
  have hlen : (encodeData r.key r.value).length ≤ maxRwCount := by
    rw [encodeData, List.length_append]
    exact r.whole
  obtain ⟨db₁, f, fi, off, happ, hap⟩ := append_spec h.files (writes_appendData r) hlen 0
  have h₁ := h.grows hap.files hap.table hap.grows
  obtain ⟨pre, hpre, hbytes⟩ := hap.bytes
  have hh : db₁.Holds r.key (Index.ofFile fi off r.key.length r.value.length) r.value f fi off := by
    refine ⟨ofFile_eq fi off r.whole, hap.lt, hap.file, ?_, ?_, ?_⟩
    · have := r.whole
      simp only [maxRwCount] at this
      omega
    · rw [hbytes, List.length_append]
      omega
    · rw [hbytes, List.drop_left' hpre]
      exact List.prefix_refl _
  obtain ⟨db₂, hst, -, -, h₂⟩ := storeIndex_spec h₁ hh
  refine ⟨db₂, ?_, h₂⟩
  simp only [put, happ, bind, Option.bind, hst]
  rfl

/-- The loop of `PutBatch` over the records from the `n`-th byte of the batch on. -/
theorem storeBatch_spec {items : List Item} : ∀ {db : DBImpl} {m : Bytes → Option Bytes} {f : File}
    {fi off : Nat} {pre : Bytes}, db.Represents m → fi < db.fileNum →
    db.dataFiles fi = some f → off < segmentSize →
    pre.length + Item.total items ≤ off + maxRwCount →
    off ≤ pre.length → f.bytes = pre ++ Item.bytes items →
    ∃ db', storeBatch fi off ((items.map Item.key).zip (Item.index (pre.length - off) items)) db =
        some db' ∧
      db'.Represents (replay m (items.map fun r => (r.key, some r.value))) := by
  induction items with
  | nil =>
    intro db m f fi off pre h _ _ _ _ _ _
    exact ⟨db, rfl, h⟩
  | cons r items ih =>
    intro db m f fi off pre h hfi hf hoff hlen hpre hbytes
    have hsize : r.length + Item.total items = Item.total (r :: items) := by
      simp [Item.total]
    have hr : r.length = sizeofRequest + r.key.length + r.value.length := rfl
    have hrec : r.key.length + r.value.length ≤ maxRwCount := by omega
    have hkey : u32 (off + (pre.length - off + sizeofRequest)) = pre.length + sizeofRequest := by
      rw [u32_eq]
      · omega
      · simp only [segmentSize, maxRwCount] at hoff hlen
        omega
    have hsplit : f.bytes = (pre ++ Request.header r.op r.key.length r.value.length) ++
        (r.key ++ r.value ++ Item.bytes items) := by
      rw [hbytes]
      simp [Item.bytes, Item.encode]
    have hh : db.Holds r.key ⟨.file fi (pre.length + sizeofRequest), r.key.length, r.value.length⟩
        r.value f fi (pre.length + sizeofRequest) := by
      refine ⟨rfl, hfi, hf, ?_, ?_, ?_⟩
      · simp only [maxRwCount] at hrec
        omega
      · rw [hsplit]
        simp only [List.length_append, Request.length_header]
        omega
      · rw [hsplit, List.drop_left' (by simp)]
        exact List.prefix_append _ _
    obtain ⟨db₁, hst, hdata, hnum, h₁⟩ := storeIndex_spec h hh
    have hnext : f.bytes = (pre ++ r.encode) ++ Item.bytes items := by
      rw [hbytes]
      simp [Item.bytes]
    obtain ⟨db₂, hrest, h₂⟩ := ih h₁ (hnum ▸ hfi) (hdata ▸ hf) hoff
      (by rw [List.length_append, Item.length_encode]; omega)
      (by rw [List.length_append]; omega) hnext
    refine ⟨db₂, ?_, h₂⟩
    have hidx : Index.setFileaddr (Index.ofFile 0 (pre.length - off + sizeofRequest) r.key.length
        r.value.length) fi (u32 (off + (Index.ofFile 0 (pre.length - off + sizeofRequest)
        r.key.length r.value.length).fileOffset)) =
        ⟨.file fi (pre.length + sizeofRequest), r.key.length, r.value.length⟩ := by
      rw [ofFile_eq _ _ hrec]
      simp only [Index.setFileaddr, DBIndex.fileOffset, hkey]
    have hoffs : pre.length - off + r.length = (pre ++ r.encode).length - off := by
      rw [List.length_append, Item.length_encode]
      omega
    simp only [List.map_cons, Item.index, List.zip_cons_cons, storeBatch, hidx, hst, bind,
      Option.bind, hoffs]
    exact hrest

/-- `PutBatch` stores the records in order. -/
theorem putBatch_spec (h : db.Represents m) (b : Batch) :
    ∃ db', db.putBatch (b.items.map Item.key) (Item.index 0 b.items) (Item.bytes b.items) =
        some (true, db') ∧
      db'.Represents (replay m (b.items.map fun r => (r.key, some r.value))) := by
  have hlen : (Item.bytes b.items).length ≤ maxRwCount := by
    rw [Item.length_bytes]
    exact b.whole
  obtain ⟨db₁, f, fi, off, happ, hap⟩ :=
    append_spec h.files (writes_appendDataBatch (Item.bytes b.items)) hlen 0
  have h₁ := h.grows hap.files hap.table hap.grows
  obtain ⟨pre, hpre, hbytes⟩ := hap.bytes
  obtain ⟨db₂, hst, h₂⟩ := storeBatch_spec h₁ hap.lt hap.file hap.room
    (by rw [hpre]; have := b.whole; omega) (Nat.le_of_eq hpre.symm) hbytes
  refine ⟨db₂, ?_, h₂⟩
  rw [hpre, Nat.sub_self] at hst
  simp only [putBatch, happ, bind, Option.bind, hst]
  rfl

/-- A buffer filled with a key and a value decodes to the value. -/
theorem decodeData_write (buf : Mem) (key value : Bytes) :
    decodeData (buf.write 0 (key ++ value)) key.length value.length = value := by
  have h : (buf.write 0 (key ++ value)).read (0 + key.length) value.length =
      ((key ++ value).drop key.length).take value.length := by
    apply Mem.read_write_sub
    simp
  rwa [Nat.zero_add, List.drop_left' rfl, List.take_length] at h

/-- `Get` of an entry that holds. -/
theorem Holds.get (h : db.Holds key idx value f fi off) (hfiles : db.Files)
    (hkey : db.hashTable key = some idx) (p : Process) : db.get p key = some (some value) := by
  have hfind : db.find key = ⟨.file fi off, key.length, value.length⟩ := by
    rw [find, hkey, h.entry]
    rfl
  have hread : f.read p.stack off (key.length + value.length) =
      some (true, p.stack.write 0 (key ++ value)) := by
    have htight : f.Tight := hfiles.tight h.lt h.file
    rw [File.read_of_le p.stack _ (by rw [htight]; exact h.inside), ← List.length_append,
      ← List.prefix_iff_eq_take.mp h.bytes]
  have hsize : Index.dataSize ⟨.file fi off, key.length, value.length⟩ =
      key.length + value.length := u32_eq h.small
  simp only [DBImpl.get, hfind]
  rw [if_pos (Index.file_differs fi off _ _), if_neg (by simp [Index.flag]),
    if_pos (show Index.fileIndex ⟨.file fi off, key.length, value.length⟩ < db.fileNum from h.lt)]
  simp only [Index.fileIndex, h.file, DBIndex.fileOffset, hsize, hread, Option.map_some, if_true,
    decodeData_write]

/-- `Get` of a key without an entry. -/
theorem get_absent (h : db.hashTable key = none) (p : Process) : db.get p key = some none := by
  have hfind : db.find key = notFound := by
    rw [find, h]
    rfl
  rw [DBImpl.get, hfind]
  rfl

/-- `Get` returns what the map has. -/
theorem get_spec (h : db.Represents m) (p : Process) (key : Bytes) :
    db.get p key = some (m key) := by
  cases hkey : db.hashTable key with
  | none => rw [h.absent key hkey, get_absent hkey]
  | some idx =>
    obtain ⟨value, f, fi, off, hm, hh⟩ := h.present key idx hkey
    rw [hh.get h.files hkey p, hm]

/-- `Delete` reports presence and removes the key. -/
theorem delete_spec (h : db.Represents m) (key : Bytes) :
    (db.delete key).1 = (m key).isSome ∧
      (db.delete key).2.Represents (Function.update m key none) := by
  cases hkey : db.hashTable key with
  | none =>
    have hfind : db.find key = notFound := by
      rw [find, hkey]
      rfl
    have hdel : db.delete key = (false, db) := by
      rw [delete, hfind]
      rfl
    have hm : m key = none := h.absent key hkey
    have hsame : Function.update m key none = m := by
      rw [← hm, Function.update_eq_self]
    rw [hdel, hm, hsame]
    exact ⟨rfl, h⟩
  | some idx =>
    obtain ⟨value, f, fi, off, hm, hh⟩ := h.present key idx hkey
    have hfind : db.find key = ⟨.file fi off, key.length, value.length⟩ := by
      rw [find, hkey, hh.entry]
      rfl
    have hdel : db.delete key =
        (true, { db with hashTable := Function.update db.hashTable key none }) := by
      rw [delete, hfind, if_pos (Index.file_differs ..)]
    rw [hdel, hm]
    refine ⟨rfl, ⟨h.files.pos, h.files.data, h.files.index⟩, ?_, ?_⟩
    · intro key' hkey'
      by_cases hk : key' = key
      · subst hk
        exact Function.update_self ..
      · rw [Function.update_of_ne hk]
        exact h.absent key' ((Function.update_of_ne hk ..).symm.trans hkey')
    · intro key' idx' hkey'
      have hk : key' ≠ key := by
        rintro rfl
        simp at hkey'
      obtain ⟨value', f', fi', off', hm', hh'⟩ :=
        h.present key' idx' ((Function.update_of_ne hk ..).symm.trans hkey')
      exact ⟨value', f', fi', off', (Function.update_of_ne hk ..).trans hm', hh'.congr rfl rfl⟩

end DBImpl

/-! ## A history against the map -/

/-- A call on a finite map. -/
def mapExec (m : Bytes → Option Bytes) : Op → Ret × (Bytes → Option Bytes)
  | .put r => (.stored true, Function.update m r.key (some r.value))
  | .putBatch b => (.stored true, replay m (b.items.map fun r => (r.key, some r.value)))
  | .get _ key => (.value (m key), m)
  | .delete key => (.deleted (m key).isSome, Function.update m key none)

/-- A history on a finite map. -/
def mapRun (ops : List Op) (m : Bytes → Option Bytes) : List Ret × (Bytes → Option Bytes) :=
  ideal mapExec ops m

/-- One call. -/
theorem DBImpl.exec_spec {db : DBImpl} {m : Bytes → Option Bytes} (h : db.Represents m) (op : Op) :
    ∃ db', db.exec op = some ((mapExec m op).1, db') ∧ db'.Represents (mapExec m op).2 := by
  cases op with
  | put r =>
    obtain ⟨db', hput, h'⟩ := put_spec h r
    exact ⟨db', by rw [exec, hput]; rfl, h'⟩
  | putBatch b =>
    obtain ⟨db', hput, h'⟩ := putBatch_spec h b
    exact ⟨db', by rw [exec, hput]; rfl, h'⟩
  | get p key => exact ⟨db, by rw [exec, get_spec h]; rfl, h⟩
  | delete key =>
    obtain ⟨hfound, h'⟩ := delete_spec h key
    exact ⟨_, by rw [exec, hfound]; rfl, h'⟩

/-- A history from any database that stands for a map. -/
theorem DBImpl.run_spec (ops : List Op) {db : DBImpl} {m : Bytes → Option Bytes}
    (h : db.Represents m) :
    ∃ db', db.run ops = some ((mapRun ops m).1, db') ∧ db'.Represents (mapRun ops m).2 :=
  history_of_spec (R := fun m db => Represents db m) (fun _ _ op h => exec_spec h op) ops h

end LogDirect.BitCask
