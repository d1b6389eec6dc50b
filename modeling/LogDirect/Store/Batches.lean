import LogDirect.Group.Batch
import LogDirect.Hybrid.Batch
import LogDirect.Store.Cuckoo

/-!
# A batch against its pairs

`PutBatch` of consecutive records, or a `Put` of each pair in the order of the records: `Get`
cannot tell them apart, whatever the store held before. For `CuckooDB` the two leave the same
map. For `BitCask` they leave the pairs at different places, the one under a header each and in
one data file, the other without headers and possibly in several.

What a `BitCask` holds before the calls need not be a map. `Recover` leaves entries that `Get`
takes for addresses in memory, and writers that overtake each other leave entries that lie
over the records of others. The calls look at none of them: `DBImpl.above` puts the table of the
first database under the one that the calls make on its bare files, and what `Get` then finds is
either new, by `Represents`, or old and untouched, since data files are only appended to.
-/

namespace LogDirect

open Lib

namespace BitCask

namespace DBImpl

/-! ## Entries of before -/

/-- The database with the entries of `t` under its own. -/
def above (db : DBImpl) (t : Table) : DBImpl :=
  { db with hashTable := fun key => (db.hashTable key).or (t key) }

/-- The files of a database. -/
def bare (db : DBImpl) : DBImpl := { db with hashTable := fun _ => none }

theorem bare_above (db : DBImpl) : db.bare.above db.hashTable = db := rfl

variable {db db' : DBImpl} {key : Bytes}

theorem bare_represents (h : db.Files) : db.bare.Represents fun _ => none := by
  refine ⟨⟨h.pos, h.data, h.index⟩, fun _ _ => rfl, ?_⟩
  intro key idx hkey
  cases hkey

theorem above_files (h : db.Files) (t : Table) : (db.above t).Files :=
  ⟨h.pos, h.data, h.index⟩

/-! No writing call looks into the table. -/

theorem append_above (write : File → Option (Nat × File)) (n : Nat) (db : DBImpl) (t : Table) :
    append write n (db.above t) = (append write n db).map fun x => (x.1.above t, x.2) := by
  induction n generalizing db with
  | zero => rfl
  | succ n ih =>
    have hdata : (db.above t).dataFiles ((db.above t).fileNum - 1) = db.dataFiles
        (db.fileNum - 1) :=
      rfl
    rw [append, append, hdata]
    cases db.dataFiles (db.fileNum - 1) with
    | none => rfl
    | some f =>
      cases hf : write f with
      | none =>
        simp only [hf]
        exact ih db.newSegment
      | some x =>
        simp only [hf]
        rfl

theorem insert_above (db : DBImpl) (key : Bytes) (idx : DBIndex) (f : File) (t : Table) :
    (db.above t).insert key idx f = (db.insert key idx f).above t := by
  have htable : Function.update (db.above t).hashTable key (some idx) =
      fun k => (Function.update db.hashTable key (some idx) k).or (t k) := by
    funext k
    by_cases hk : k = key
    · subst hk
      simp
    · rw [Function.update_of_ne hk, Function.update_of_ne hk]
      rfl
  unfold insert
  rw [htable]
  rfl

theorem storeIndex_above (db : DBImpl) (key : Bytes) (idx : DBIndex) (t : Table) :
    (db.above t).storeIndex key idx = (db.storeIndex key idx).map fun x => x.above t := by
  have hindex : (db.above t).indexFiles (slot key) = db.indexFiles (slot key) := rfl
  unfold storeIndex
  rw [hindex]
  cases db.indexFiles (slot key) with
  | none => rfl
  | some f => exact congrArg some (insert_above db key idx f t)

theorem storeBatch_above (fi fo : Nat) (l : List (Bytes × DBIndex)) (db : DBImpl) (t : Table) :
    storeBatch fi fo l (db.above t) = (storeBatch fi fo l db).map fun x => x.above t := by
  induction l generalizing db with
  | nil => rfl
  | cons e l ih =>
    obtain ⟨key, idx⟩ := e
    simp only [storeBatch, storeIndex_above, bind]
    cases db.storeIndex key (Index.setFileaddr idx fi (u32 (fo + idx.fileOffset))) with
    | none => rfl
    | some db => exact ih db

theorem put_above (db : DBImpl) (key value : Bytes) (t : Table) :
    (db.above t).put key value = (db.put key value).map fun x => (x.1, x.2.above t) := by
  simp only [put, append_above, bind]
  cases append (·.appendData key value) 2 db with
  | none => rfl
  | some x =>
    simp only [Option.map_some, Option.bind_some, storeIndex_above]
    cases x.1.storeIndex key (Index.ofFile x.2.1 x.2.2 key.length value.length) with
    | none => rfl
    | some db => rfl

theorem putBatch_above (db : DBImpl) (keys : List Bytes) (index : List DBIndex) (buf : Bytes)
    (t : Table) : (db.above t).putBatch keys index buf =
      (db.putBatch keys index buf).map fun x => (x.1, x.2.above t) := by
  simp only [putBatch, append_above, bind]
  cases append (·.appendDataBatch buf) 2 db with
  | none => rfl
  | some x =>
    simp only [Option.map_some, Option.bind_some, storeBatch_above]
    cases storeBatch x.2.1 x.2.2 (keys.zip index) x.1 with
    | none => rfl
    | some db => rfl

/-! Data files are only appended to. -/

theorem Grows.refl (db : DBImpl) : db.Grows db :=
  ⟨Nat.le_refl _, fun _ f _ hf => ⟨f, hf, List.prefix_rfl⟩⟩

theorem Grows.congr {db'' : DBImpl} (h : db.Grows db') (hdata : db''.dataFiles = db'.dataFiles)
    (hnum : db''.fileNum = db'.fileNum) : db.Grows db'' :=
  ⟨hnum ▸ h.fileNum, hdata ▸ h.data⟩

theorem storeIndex_data {idx : DBIndex} (h : db.storeIndex key idx = some db') :
    db'.dataFiles = db.dataFiles ∧ db'.fileNum = db.fileNum := by
  obtain ⟨f, -, rfl⟩ := Option.map_eq_some_iff.mp h
  exact ⟨rfl, rfl⟩

theorem storeBatch_data {fi fo : Nat} {l : List (Bytes × DBIndex)}
    (h : storeBatch fi fo l db = some db') :
    db'.dataFiles = db.dataFiles ∧ db'.fileNum = db.fileNum := by
  induction l generalizing db with
  | nil =>
    cases h
    exact ⟨rfl, rfl⟩
  | cons e l ih =>
    obtain ⟨db₁, hst, hrest⟩ := Option.bind_eq_some_iff.mp h
    obtain ⟨hdata, hnum⟩ := storeIndex_data hst
    obtain ⟨hdata', hnum'⟩ := ih hrest
    exact ⟨hdata'.trans hdata, hnum'.trans hnum⟩

theorem append_grows (hdb : db.Files) {write : File → Option (Nat × File)} {bs : Bytes}
    (hw : Writes write bs) (hbs : bs.length ≤ maxRwCount) {x : DBImpl × Nat × Nat}
    (h : append write 2 db = some x) : db.Grows x.1 := by
  obtain ⟨db', f, fi, off, happ, hap⟩ := append_spec hdb hw hbs 0
  rw [h] at happ
  cases happ
  exact hap.grows

theorem put_grows (hdb : db.Files) (r : Pair) {ok : Bool}
    (h : db.put r.key r.value = some (ok, db')) : db.Grows db' := by
  obtain ⟨x, happ, h⟩ := Option.bind_eq_some_iff.mp h
  obtain ⟨db₁, hst, h⟩ := Option.bind_eq_some_iff.mp h
  cases h
  obtain ⟨hdata, hnum⟩ := storeIndex_data hst
  refine (append_grows hdb (writes_appendData r) ?_ happ).congr hdata hnum
  rw [encodeData, List.length_append]
  exact r.whole

theorem putBatch_grows (hdb : db.Files) (b : Batch) {ok : Bool}
    (h : db.putBatch (b.items.map Item.key) (Item.index 0 b.items) (Item.bytes b.items) =
      some (ok, db')) : db.Grows db' := by
  obtain ⟨x, happ, h⟩ := Option.bind_eq_some_iff.mp h
  obtain ⟨db₁, hst, h⟩ := Option.bind_eq_some_iff.mp h
  cases h
  obtain ⟨hdata, hnum⟩ := storeBatch_data hst
  refine (append_grows hdb (writes_appendDataBatch _) ?_ happ).congr hdata hnum
  rw [Item.length_bytes]
  exact b.whole

/-! ## What `Get` finds -/

/-- An entry for a file names a range that is written. -/
def Within (db : DBImpl) (idx : DBIndex) : Prop :=
  Index.flag idx ≠ 0 → Index.fileIndex idx < db.fileNum ∧
    ∃ f, db.dataFiles (Index.fileIndex idx) = some f ∧
      idx.fileOffset + Index.dataSize idx ≤ f.bytes.length

/-- The databases that calls leave behind. Nothing is said about what lies in the range of an
entry, or about an entry for memory. -/
structure Sound (db : DBImpl) : Prop where
  files : db.Files
  within : ∀ key idx, db.hashTable key = some idx → db.Within idx

theorem Holds.within {value : Bytes} {idx : DBIndex} {f : File} {fi off : Nat}
    (h : db.Holds key idx value f fi off) : db.Within idx := by
  intro _
  have hlen := h.bytes.length_le
  have hinside := h.inside
  rw [List.length_append, List.length_drop] at hlen
  rw [h.entry]
  refine ⟨h.lt, f, h.file, ?_⟩
  show off + u32 (key.length + value.length) ≤ f.bytes.length
  rw [u32_eq h.small]
  omega

/-- A database that stands for a map, over entries as `Recover` leaves them. -/
theorem Represents.sound_above {m : Bytes → Option Bytes} (h : db.Represents m) {t : Table}
    (ht : ∀ key idx, t key = some idx → Index.flag idx = 0) : (db.above t).Sound := by
  refine ⟨above_files h.files t, ?_⟩
  intro key idx hkey
  rcases Option.or_eq_some_iff.mp hkey with hkey | ⟨-, hkey⟩
  · obtain ⟨value, f, fi, off, -, hh⟩ := h.present key idx hkey
    exact hh.within
  · exact fun hflag => absurd (ht key idx hkey) hflag

/-- A range that was written reads the same later. -/
theorem read_written {f f' : File} (hf : f.Tight) (hf' : f'.Tight) (hpre : f.bytes <+: f'.bytes)
    {off n : Nat} (h : off + n ≤ f.bytes.length) (buf : Mem) :
    f'.read buf off n = f.read buf off n := by
  have hle := hpre.length_le
  obtain ⟨rest, hrest⟩ := hpre
  rw [File.read_of_le buf n (by rw [hf']; omega), File.read_of_le buf n (by rw [hf]; omega),
    ← hrest, List.drop_append_of_le_length (by omega), List.take_append_of_le_length]
  rw [List.length_drop]
  omega

/-- `Get` of an entry that is as it was. -/
theorem Sound.get_of_grows (h : db.Sound) (hfiles : db'.Files) (hg : db.Grows db')
    (hkey : db'.hashTable key = db.hashTable key) (p : Process) : db'.get p key = db.get p key := by
  have hfind : db'.find key = db.find key := by rw [find, find, hkey]
  cases hidx : db.hashTable key with
  | none => rw [get_absent hidx, get_absent (hkey.trans hidx)]
  | some idx =>
    have hold : db.find key = idx := by
      rw [find, hidx]
      rfl
    simp only [DBImpl.get, hfind, hold]
    by_cases hflag : Index.flag idx = 0
    · rw [if_pos hflag, if_pos hflag]
    · obtain ⟨hlt, f, hf, hle⟩ := h.within key idx hidx hflag
      obtain ⟨f', hf', hpre⟩ := hg.data _ f hlt hf
      have hlt' := Nat.lt_of_lt_of_le hlt hg.fileNum
      rw [if_neg hflag, if_neg hflag, if_pos hlt, if_pos hlt', hf, hf']
      simp only [read_written (h.files.tight hlt hf) (hfiles.tight hlt' hf') hpre hle]

/-- `Get` after calls that have made `d` of the bare files: what the calls have stored, and
what was there before for the other keys. -/
theorem Sound.get_above {d : DBImpl} {m : Bytes → Option Bytes} (h : db.Sound) (hd : d.Represents m)
    (hg : db.bare.Grows d) (p : Process) (key : Bytes) :
    (d.above db.hashTable).get p key = (m key).elim (db.get p key) fun v => some (some v) := by
  have hfiles := above_files hd.files db.hashTable
  cases hkey : d.hashTable key with
  | none =>
    have htable : (d.above db.hashTable).hashTable key = db.hashTable key := by
      show (d.hashTable key).or _ = _
      rw [hkey, Option.none_or]
    rw [hd.absent key hkey]
    exact h.get_of_grows hfiles ⟨hg.fileNum, hg.data⟩ htable p
  | some idx =>
    obtain ⟨value, f, fi, off, hm, hh⟩ := hd.present key idx hkey
    have htable : (d.above db.hashTable).hashTable key = some idx := by
      show (d.hashTable key).or _ = _
      rw [hkey, Option.some_or]
    have hnew : (d.above db.hashTable).Holds key idx value f fi off := hh.congr rfl rfl
    rw [hm]
    exact hnew.get hfiles htable p

end DBImpl

end BitCask

namespace Store

open BitCask

/-! ## One call or many -/

/-- A `Put` of each pair, in the order of the records. -/
def putAll {σ : Type} (put : σ → Bytes → Bytes → Option (Bool × σ)) : List Item → σ → Option σ
  | [], s => some s
  | r :: rs, s => (put s r.key r.value).bind fun x => putAll put rs x.2

theorem putAll_above (items : List Item) (db : DBImpl) (t : Table) :
    putAll DBImpl.put items (db.above t) = (putAll DBImpl.put items db).map fun x => x.above t := by
  induction items generalizing db with
  | nil => rfl
  | cons r items ih =>
    rw [putAll, putAll, DBImpl.put_above]
    cases db.put r.key r.value with
    | none => rfl
    | some x => exact ih x.2

/-- The `Put`s on a database that stands for a map. -/
theorem putAll_spec {items : List Item}
    (hfit : ∀ r ∈ items, r.key.length + r.value.length ≤ maxRwCount) {db : DBImpl} {m : DB}
    (h : db.Represents m) : ∃ db', putAll DBImpl.put items db = some db' ∧ db.Grows db' ∧
      db'.Represents (replay m (items.map fun r => (r.key, some r.value))) := by
  induction items generalizing db m with
  | nil => exact ⟨db, rfl, .refl db, h⟩
  | cons r items ih =>
    let pair : Pair := ⟨r.key, r.value, hfit r List.mem_cons_self⟩
    obtain ⟨db₁, hput, h₁⟩ := DBImpl.put_spec h pair
    obtain ⟨db₂, hall, hg, h₂⟩ := ih (fun x hx => hfit x (List.mem_cons_of_mem _ hx)) h₁
    refine ⟨db₂, ?_, (DBImpl.put_grows h.files pair hput).trans hg, h₂⟩
    rw [putAll, show db.put r.key r.value = _ from hput]
    exact hall

/-- The two ways on a database that calls have left. -/
theorem bitCask_putBatch_get {db : DBImpl} (h : db.Sound) (b : Batch) :
    ∃ db₁ db₂, db.putBatch (b.items.map Item.key) (Item.index 0 b.items) (Item.bytes b.items) =
        some (true, db₁) ∧
      putAll DBImpl.put b.items db = some db₂ ∧ ∀ p key, db₁.get p key = db₂.get p key := by
  have hbare := DBImpl.bare_represents h.files
  obtain ⟨d₁, hbatch, h₁⟩ := DBImpl.putBatch_spec hbare b
  obtain ⟨d₂, hputs, hg₂, h₂⟩ := putAll_spec (fun r hr => b.item_whole hr) hbare
  have hg₁ := DBImpl.putBatch_grows hbare.files b hbatch
  refine ⟨d₁.above db.hashTable, d₂.above db.hashTable, ?_, ?_, ?_⟩
  · have habove := DBImpl.putBatch_above db.bare (b.items.map Item.key) (Item.index 0 b.items)
      (Item.bytes b.items) db.hashTable
    rw [DBImpl.bare_above, hbatch] at habove
    exact habove
  · have habove := putAll_above b.items db.bare db.hashTable
    rw [DBImpl.bare_above, hputs] at habove
    exact habove
  · intro p key
    rw [h.get_above h₁ hg₁, h.get_above h₂ hg₂]

theorem cuckoo_putAll {items : List Item} (hfit : ∀ r ∈ items, r.length ≤ maxRequest)
    (s : CuckooDB) : ∃ s', putAll CuckooDB.put items s = some s' ∧
      s'.db = replay s.db (items.map fun r => (r.key, some r.value)) := by
  induction items generalizing s with
  | nil => exact ⟨s, rfl, rfl⟩
  | cons r items ih =>
    obtain ⟨s', hall, hdb⟩ := ih (fun x hx => hfit x (List.mem_cons_of_mem _ hx))
      (s.stored r.key r.value)
    refine ⟨s', ?_, hdb⟩
    rw [putAll, s.put_of_fits (hfit r List.mem_cons_self)]
    exact hall

/-- **A batch is its pairs.** For every batch of records that fit a request, from every
`BitCask` that calls have left and from every `CuckooDB`: `PutBatch` returns true, the `Put`s
return, and every `Get` then returns the same. -/
theorem putBatch_eq_puts (b : Batch) (hfit : ∀ r ∈ b.items, r.length ≤ maxRequest) :
    (∀ db : DBImpl, db.Sound → ∃ db₁ db₂,
      db.putBatch (b.items.map Item.key) (Item.index 0 b.items) (Item.bytes b.items) =
        some (true, db₁) ∧
      putAll DBImpl.put b.items db = some db₂ ∧ ∀ p key, db₁.get p key = db₂.get p key) ∧
    (∀ s : CuckooDB, ∃ s₁ s₂,
      s.putBatch (b.items.map Item.key) (Item.index 0 b.items) (Item.bytes b.items) =
        (true, s₁) ∧
      putAll CuckooDB.put b.items s = some s₂ ∧ ∀ key, s₁.get key = s₂.get key) := by
  refine ⟨fun db h => bitCask_putBatch_get h b, ?_⟩
  intro s
  obtain ⟨s₂, hall, hdb⟩ := cuckoo_putAll hfit s
  refine ⟨_, s₂, rfl, hall, ?_⟩
  intro key
  unfold CuckooDB.get
  rw [hdb]
  exact congrArg (fun db : DB => (true, (db key).getD [])) (putBatch_items s.db b)

/-- A key twice, in a fresh `BitCask` over an entry that `Recover` has left. -/
theorem putBatch_eq_puts_twice : ∃ db db₁ db₂,
    db = (DBImpl.create false).above
      (Function.update (fun _ => none) [7] (some ⟨.mem 64, 1, 1⟩)) ∧
    db.putBatch [[1], [1]] [⟨.file 0 8, 1, 1⟩, ⟨.file 0 18, 1, 2⟩]
      [0, 1, 0, 0, 1, 0, 0, 0, 1, 5, 2, 1, 0, 0, 2, 0, 0, 0, 1, 6, 6] = some (true, db₁) ∧
    putAll DBImpl.put [⟨.put, [1], [5]⟩, ⟨.update, [1], [6, 6]⟩] db = some db₂ ∧
    ∀ p key, db₁.get p key = db₂.get p key := by
  have hold : ∀ (key : Bytes) (idx : DBIndex),
      Function.update (fun _ => none) [7] (some ⟨.mem 64, 1, 1⟩) key = some idx →
        Index.flag idx = 0 := by
    intro key idx hkey
    by_cases hk : key = [7]
    · rw [hk, Function.update_self] at hkey
      cases hkey
      rfl
    · rw [Function.update_of_ne hk] at hkey
      cases hkey
  obtain ⟨db₁, db₂, h⟩ :=
    (putBatch_eq_puts ⟨[⟨.put, [1], [5]⟩, ⟨.update, [1], [6, 6]⟩], by decide⟩ (by decide)).1 _
      ((DBImpl.create_represents false).sound_above hold)
  exact ⟨_, db₁, db₂, rfl, h⟩

/-! ## The batches of the front ends -/

/-- A record of a client as one of a batch. -/
def recordItem {b : Room} (r : Record b) : Item := ⟨r.op, r.key, r.val⟩

theorem index_recordItem {b : Room} (rs : List (Record b)) (off : Nat) :
    Batch.index off rs = Item.index off (rs.map recordItem) := by
  induction rs generalizing off with
  | nil => rfl
  | cons r rs ih =>
    have hsize := r.length_lt
    rw [Batch.index, ih, List.map_cons, Item.index, DBImpl.ofFile_eq]
    · rfl
    · simp only [Record.length, recordItem, sizeofRequest, maxRwCount] at hsize ⊢
      omega

/-- What `HybridClerk::Run` hands to `PutBatch`: the records of its open batch. -/
theorem hybrid_batch_items {k : Hybrid.Clerk} {m : Mem} (h : k.Laid m) :
    k.keyBatch = ((Hybrid.records k.openRecs).map recordItem).map Item.key ∧
    k.indexBatch = Item.index 0 ((Hybrid.records k.openRecs).map recordItem) ∧
    m.read (k.writeBuf + k.bufTail) k.batchLength =
      Item.bytes ((Hybrid.records k.openRecs).map recordItem) := by
  refine ⟨?_, ?_, ?_⟩
  · rw [h.keys, List.map_map]
    rfl
  · rw [h.index, index_recordItem]
  · rw [h.ring, Item.bytes, List.flatMap_map]
    rfl

section Group

variable {ι : Type} {request : ι → Mem} {item : ι → Item}

/-- The fields of a request that holds a record. -/
theorem request_fields {m : Mem} {r : Item} (h : m.read 0 r.length = r.encode)
    (hfit : r.length ≤ maxRequest) : Request.keySize m = r.key.length ∧
      Request.valSize m = r.value.length ∧ Request.key m = r.key ∧
      Request.length m = r.length := by
  simp only [Item.length, sizeofRequest, maxRequest] at hfit
  have hread : m.read 0 (sizeofRequest + (r.key ++ r.value).length) =
      Request.header r.op r.key.length r.value.length ++ (r.key ++ r.value) := by
    rw [List.length_append, ← Nat.add_assoc, ← List.append_assoc]
    exact h
  obtain ⟨-, hkey, hval, hrest⟩ := Request.fields_of_read _ hread (by omega) (by omega)
  rw [List.length_append] at hrest
  refine ⟨hkey, hval, ?_, ?_⟩
  · rw [Request.key, hkey]
    exact Mem.read_left r.key r.value hrest
  · rw [Request.length, hkey, hval]
    exact Nat.mod_eq_of_lt (by simp only [sizeofRequest]; omega)

/-- The entries of requests that hold records. -/
theorem gather_dbIndexes {ws : List ι}
    (h : ∀ w ∈ ws, (request w).read 0 (item w).length = (item w).encode)
    (hfit : ∀ w ∈ ws, (item w).length ≤ maxRequest) (b : Group.WriteBatch) :
    (Group.gather request b ws).dbIndexes =
      b.dbIndexes ++ Item.index b.batchLength (ws.map item) := by
  induction ws generalizing b with
  | nil => exact (List.append_nil _).symm
  | cons w ws ih =>
    have hsize := hfit w List.mem_cons_self
    obtain ⟨hkey, hval, -, hlen⟩ := request_fields (h w List.mem_cons_self) hsize
    rw [Group.gather, List.foldl_cons, ← Group.gather,
      ih (fun x hx => h x (List.mem_cons_of_mem _ hx))
        fun x hx => hfit x (List.mem_cons_of_mem _ hx), List.map_cons, Item.index,
      DBImpl.ofFile_eq, ← hkey, ← hval, ← hlen]
    · exact List.append_assoc ..
    · simp only [Item.length, sizeofRequest, maxRequest, maxRwCount] at hsize ⊢
      omega

/-- What `BuildBatchGroup` leaves for `PutBatch`: the records of the first writers. -/
theorem group_batch_items (batch : Group.WriteBatch) {queue : List ι}
    (h : ∀ w ∈ queue, (request w).read 0 (item w).length = (item w).encode)
    (hfit : ∀ w ∈ queue, (item w).length ≤ maxRequest) :
    ∃ grp rest b last, queue = grp ++ rest ∧
      Group.buildBatchGroup request batch queue = (b, last) ∧
      b.keys = (grp.map item).map Item.key ∧ b.dbIndexes = Item.index 0 (grp.map item) ∧
      b.bytes = Item.bytes (grp.map item) := by
  obtain ⟨grp, rest, rfl, -, hbuild, -⟩ := Group.buildBatchGroup_eq request batch queue
  have h : ∀ w ∈ grp, (request w).read 0 (item w).length = (item w).encode :=
    fun w hw => h w (List.mem_append_left _ hw)
  have hfit : ∀ w ∈ grp, (item w).length ≤ maxRequest :=
    fun w hw => hfit w (List.mem_append_left _ hw)
  have hfields := fun w hw => request_fields (h w hw) (hfit w hw)
  refine ⟨grp, rest, _, _, rfl, hbuild, ?_, gather_dbIndexes h hfit _, ?_⟩
  · rw [Group.gather_keys, List.map_map]
    exact List.map_congr_left fun w hw => (hfields w hw).2.2.1
  · have hbytes : grp.flatMap (fun w => (request w).read 0 (Request.length (request w))) =
        grp.flatMap fun w => (item w).encode := by
      refine List.flatMap_congr fun w hw => ?_
      rw [(hfields w hw).2.2.2, h w hw]
    rw [Group.gather_bytes, hbytes, Item.bytes, List.flatMap_map]
    rfl

end Group

end Store

end LogDirect
