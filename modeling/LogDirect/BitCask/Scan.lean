import LogDirect.BitCask.Map
import LogDirect.BitCask.Recover
import LogDirect.Lib.Frames

/-!
# BitCask: what the index files hold

Every `Put` and `PutBatch` appends one record for each pair to the index file of
its key, so the file of slot `s` is the encoding of the records of that slot in
the order of the calls (`Logs`). A scan of such a file, as long as its size fits
the 32-bit `file_offset_`, decodes the records one by one (`turn_record`).
-/

namespace LogDirect.BitCask

open Lib

/-! ## One turn of a scan -/

variable {held pre post : Bytes} {r : IndexRecord} {l : List (Bytes × DBIndex)}

/-- A read at the start of a record gives its size field. -/
theorem read_size (stack : Mem) (hr : r.Fits) (hheld : held = pre ++ r.encode ++ post)
    (hoff : pre.length ≤ (File.new held).fileOffset) :
    (File.new held).read stack pre.length 4 =
      some (true, stack.write 0 (leBytes 4 (r.key.length + 16))) := by
  rw [File.read_of_le stack _ hoff, File.bytes_new, hheld, IndexRecord.encode_eq hr,
    List.append_assoc, List.drop_left' rfl, List.append_assoc, List.take_left' (by simp)]

theorem decode_size (stack : Mem) (hr : r.Fits) :
    decodeFixed32 (stack.write 0 (leBytes 4 (r.key.length + 16))) 0 = r.body.length := by
  have hread : (stack.write 0 (leBytes 4 (r.key.length + 16))).read 0 4 =
      leBytes 4 (r.key.length + 16) := by
    have h := Mem.read_write stack 0 (leBytes 4 (r.key.length + 16))
    rwa [length_leBytes] at h
  rw [decodeFixed32, hread, leNat_leBytes_four, u32_eq hr.small, IndexRecord.length_body]

/-- A turn at the start of a record whose two reads are not behind `file_offset_`. -/
theorem turn_reads (stack : Mem) (hr : r.Fits) (hheld : held = pre ++ r.encode ++ post)
    (hoff : pre.length ≤ (File.new held).fileOffset)
    (hbody : u32 (pre.length + 4) ≤ (File.new held).fileOffset) :
    turn stack (File.new held) pre.length =
      some (u32 (u32 (pre.length + 4) + r.body.length), some (decodeIndex
        (stack.write 0 ((held.drop (u32 (pre.length + 4))).take r.body.length)))) := by
  unfold turn
  simp only [read_size stack hr hheld hoff, decode_size stack hr, File.read_of_le stack _ hbody,
    File.bytes_new]

/-- A turn at the start of a record that ends below 4 GiB decodes it and ends behind it. -/
theorem turn_record_at (stack : Mem) (hr : r.Fits) (hheld : held = pre ++ r.encode ++ post)
    (hoff : pre.length + 4 ≤ (File.new held).fileOffset)
    (hend : (pre ++ r.encode).length < 2 ^ 32) :
    turn stack (File.new held) pre.length =
      some ((pre ++ r.encode).length, some r.stored) := by
  have hlen : (pre ++ r.encode).length = pre.length + 4 + r.body.length := by
    rw [IndexRecord.encode_eq hr]
    simp only [List.length_append, length_leBytes]
    omega
  have hpos : u32 (pre.length + 4) = pre.length + 4 := u32_eq (by omega)
  have hslice : (held.drop (pre.length + 4)).take r.body.length = r.body := by
    have hsplit : held = (pre ++ leBytes 4 (r.key.length + 16)) ++ (r.body ++ post) := by
      rw [hheld, IndexRecord.encode_eq hr]
      simp
    rw [hsplit, List.drop_left' (by simp), List.take_left' rfl]
  rw [turn_reads stack hr hheld (by omega) (by rw [hpos]; exact hoff), hpos, hslice, ← hlen,
    u32_eq hend, IndexRecord.decodeIndex_body hr (Mem.read_write stack 0 r.body)]

/-- In a file below 4 GiB a turn at the start of a record decodes it and ends
behind it. -/
theorem turn_record (stack : Mem) (hr : r.Fits) (hheld : held = pre ++ r.encode ++ post)
    (hsmall : held.length < 2 ^ 32) :
    turn stack (File.new held) pre.length =
      some ((pre ++ r.encode).length, some r.stored) := by
  have hlen : held.length = (pre ++ r.encode).length + post.length := by
    rw [hheld, List.length_append]
  have hrecord : (pre ++ r.encode).length = pre.length + (r.key.length + 20) := by
    rw [List.length_append, IndexRecord.length_encode hr]
  have hoff : (File.new held).fileOffset = held.length := u32_eq hsmall
  exact turn_record_at stack hr hheld (by omega) (by omega)

/-- The records of one slot among entries stored in order. -/
def slotRecords (l : List (Bytes × DBIndex)) (s : Nat) : List IndexRecord :=
  (l.filter fun p => slot p.1 = s).map fun p => indexRecord p.1 p.2

/-- The bytes of index records. -/
def encodeAll (rs : List IndexRecord) : Bytes := rs.flatMap IndexRecord.encode

@[simp] theorem encodeAll_append (rs rs' : List IndexRecord) :
    encodeAll (rs ++ rs') = encodeAll rs ++ encodeAll rs' := by
  simp [encodeAll]

theorem encodeAll_cons (r : IndexRecord) (rs : List IndexRecord) :
    encodeAll (r :: rs) = r.encode ++ encodeAll rs := rfl

theorem encodeAll_snoc (rs : List IndexRecord) (r : IndexRecord) :
    encodeAll (rs ++ [r]) = encodeAll rs ++ r.encode := by
  rw [encodeAll_append, encodeAll_cons]
  exact congrArg _ (List.append_nil _)

theorem length_encodeAll {rs : List IndexRecord} (h : ∀ r ∈ rs, r.Fits) :
    (encodeAll rs).length = (rs.map fun r => r.key.length + 4 * 5).sum := by
  induction rs with
  | nil => rfl
  | cons r rs ih =>
    have ih := ih fun x hx => h x (List.mem_cons_of_mem _ hx)
    simp only [encodeAll, List.flatMap_cons, List.length_append] at ih ⊢
    rw [ih, IndexRecord.length_encode (h r List.mem_cons_self), List.map_cons, List.sum_cons]

/-- A record is cut off a stream in one way. -/
theorem encode_append_inj {r' : IndexRecord} (h : r.Fits) (h' : r'.Fits) {post' : Bytes}
    (heq : r.encode ++ post = r'.encode ++ post') : r.stored = r'.stored ∧ post = post' := by
  rw [IndexRecord.encode_eq h, IndexRecord.encode_eq h', List.append_assoc,
    List.append_assoc] at heq
  obtain ⟨hsize, hrest⟩ := List.append_inj heq (by simp)
  have hlen : r.body.length = r'.body.length := by
    have hword := congrArg leNat hsize
    rwa [leNat_leBytes_four, leNat_leBytes_four, u32_eq h.small, u32_eq h'.small,
      ← IndexRecord.length_body, ← IndexRecord.length_body] at hword
  obtain ⟨hbody, hpost⟩ := List.append_inj hrest hlen
  refine ⟨?_, hpost⟩
  -- both are what a buffer with this body decodes to
  obtain ⟨buf, hbuf⟩ : ∃ buf : Mem, buf.read 0 r.body.length = r.body :=
    ⟨_, Mem.read_write (fun _ => 0) 0 r.body⟩
  rw [← IndexRecord.decodeIndex_body h hbuf]
  rw [hbody] at hbuf
  exact IndexRecord.decodeIndex_body h' hbuf

/-- The records of a file can be read off it. -/
theorem encodeAll_inj {rs rs' : List IndexRecord} (hfits : ∀ r ∈ rs, r.Fits)
    (hfits' : ∀ r ∈ rs', r.Fits) (heq : encodeAll rs = encodeAll rs') :
    rs.map IndexRecord.stored = rs'.map IndexRecord.stored := by
  refine map_eq_of_flatMap_eq (fun _ => ()) ?_ ?_ rs rs' hfits hfits'
    (comparable_unit _ _) heq
  · intro r hr hnil
    have hlen := congrArg List.length hnil
    rw [IndexRecord.length_encode hr] at hlen
    simp at hlen
  · intro r r' x y hr hr' _ h
    exact encode_append_inj hr hr' h

theorem slotRecords_snoc (l : List (Bytes × DBIndex)) (key : Bytes) (idx : DBIndex) (s : Nat) :
    slotRecords (l ++ [(key, idx)]) s =
      slotRecords l s ++ if slot key = s then [indexRecord key idx] else [] := by
  unfold slotRecords
  rw [List.filter_append, List.map_append]
  by_cases h : slot key = s
  · simp [h]
  · simp [h]

/-- The key of a record of a slot hashes to the slot. -/
theorem slot_of_mem {s : Nat} (h : r ∈ slotRecords l s) : slot r.key = s := by
  unfold slotRecords at h
  obtain ⟨p, hp, rfl⟩ := List.mem_map.mp h
  have hs := (List.mem_filter.mp hp).2
  simpa [indexRecord] using hs

namespace DBImpl

/-- The index files are the records of the entries `l`, appended in this order. -/
structure Logs (db : DBImpl) (l : List (Bytes × DBIndex)) : Prop where
  file : ∀ s < maxIndexCount, ∃ off,
    db.indexFiles s = some ⟨[], (slotRecords l s).map IndexRecord.encode, off, 0⟩
  fits : ∀ p ∈ l, (indexRecord p.1 p.2).Fits

variable {db : DBImpl} {l : List (Bytes × DBIndex)}

/-- What they hold. -/
theorem Logs.bytes (h : db.Logs l) {s : Nat} (hs : s < maxIndexCount) :
    ∃ f, db.indexFiles s = some f ∧ f.bytes = encodeAll (slotRecords l s) := by
  obtain ⟨off, hf⟩ := h.file s hs
  exact ⟨_, hf, by rw [File.bytes, List.nil_append, encodeAll, List.flatMap_def]⟩

theorem create_logs (sync : Bool) : (create sync).Logs [] := by
  refine ⟨?_, by simp⟩
  intro s hs
  exact ⟨0, if_pos hs⟩

theorem Logs.congr {db' : DBImpl} (h : db.Logs l) (hindex : db'.indexFiles = db.indexFiles) :
    db'.Logs l :=
  ⟨hindex ▸ h.file, h.fits⟩

/-- An entry appended. -/
theorem Logs.insert (h : db.Logs l) {key : Bytes} {idx : DBIndex} {f : File}
    (hf : db.indexFiles (slot key) = some f) (hfits : (indexRecord key idx).Fits) :
    (db.insert key idx f).Logs (l ++ [(key, idx)]) := by
  refine ⟨?_, ?_⟩
  · intro s hs
    obtain ⟨off, hg⟩ := h.file s hs
    rw [slotRecords_snoc]
    by_cases hslot : s = slot key
    · subst hslot
      rw [hf] at hg
      cases hg
      rw [if_pos rfl, List.map_append]
      exact ⟨_, Function.update_self ..⟩
    · rw [if_neg (fun h => hslot h.symm), List.append_nil]
      exact ⟨off, (Function.update_of_ne hslot ..).trans hg⟩
  · intro p hp
    rcases List.mem_append.mp hp with hp | hp
    · exact h.fits p hp
    · rw [List.mem_singleton.mp hp]
      exact hfits

theorem storeIndex_inv {db' : DBImpl} {key : Bytes} {idx : DBIndex}
    (h : db.storeIndex key idx = some db') :
    ∃ f, db.indexFiles (slot key) = some f ∧ db' = db.insert key idx f := by
  unfold storeIndex at h
  obtain ⟨f, hf, hdb⟩ := Option.map_eq_some_iff.mp h
  exact ⟨f, hf, hdb.symm⟩

/-- The retry loop leaves the index and the table alone, and the record begins
inside the segment. -/
theorem append_inv {write : File → Option (Nat × File)} {bs : Bytes} (hw : Writes write bs)
    (n : Nat) : ∀ {db db' : DBImpl} {fi off : Nat}, append write n db = some (db', fi, off) →
    off < segmentSize ∧ db'.indexFiles = db.indexFiles ∧ db'.hashTable = db.hashTable := by
  induction n with
  | zero =>
    intro db db' fi off h
    cases h
  | succ n ih =>
    intro db db' fi off h
    unfold append at h
    split at h
    · cases h
    · rename_i f hf
      split at h
      · rename_i off' f' hwr
        cases h
        rw [hw f] at hwr
        split at hwr
        · cases hwr
        · rename_i hroom
          cases hwr
          exact ⟨by omega, rfl, rfl⟩
      · obtain ⟨hoff, hindex, htable⟩ := ih h
        exact ⟨hoff, hindex, htable⟩

end DBImpl

/-- The partition of the records among the index files: the file of slot `s` holds
the records `rs s`, and these are of keys that hash to `s`. -/
structure DBImpl.Indexed (db : DBImpl) (rs : Nat → List IndexRecord) : Prop where
  file : ∀ s < maxIndexCount, ∃ f, db.indexFiles s = some f ∧ f.bytes = encodeAll (rs s)
  fits : ∀ s, ∀ r ∈ rs s, r.Fits
  slot : ∀ s, ∀ r ∈ rs s, slot r.key = s

theorem DBImpl.Logs.indexed {db : DBImpl} (h : db.Logs l) : db.Indexed (slotRecords l) := by
  refine ⟨fun s hs => h.bytes hs, ?_, fun s r hr => slot_of_mem hr⟩
  intro s r hr
  obtain ⟨p, hp, rfl⟩ := List.mem_map.mp hr
  exact h.fits p (List.mem_of_mem_filter hp)

/-! ## The records of a history -/

/-- The pairs a call stores, in order. -/
def Op.puts : Op → List (Bytes × Bytes)
  | .put r => [(r.key, r.value)]
  | .putBatch b => b.items.map fun r => (r.key, r.value)
  | .get _ _ => []
  | .delete _ => []

/-- The pairs a history stores, in order. -/
def puts (ops : List Op) : List (Bytes × Bytes) := ops.flatMap Op.puts

/-- The entries stored for pairs: the same keys, and the sizes of the values. -/
def Sized (l : List (Bytes × DBIndex)) (kvs : List (Bytes × Bytes)) : Prop :=
  l.map (fun p => (p.1, p.2.valueSize)) = kvs.map fun p => (p.1, p.2.length)

theorem Sized.append {l' : List (Bytes × DBIndex)} {kvs kvs' : List (Bytes × Bytes)}
    (h : Sized l kvs) (h' : Sized l' kvs') : Sized (l ++ l') (kvs ++ kvs') := by
  unfold Sized at *
  rw [List.map_append, List.map_append, h, h']

/-- The record of a pair one `pwrite` wrote. -/
theorem fits_file (fi : Nat) {off : Nat} {key value : Bytes} (hoff : off < 2 ^ 32)
    (h : key.length + value.length ≤ maxRwCount) :
    (indexRecord key ⟨.file fi off, key.length, value.length⟩).Fits := by
  simp only [maxRwCount] at h
  refine ⟨rfl, ?_, hoff, ?_⟩
  · show key.length + 16 < 2 ^ 32
    omega
  · show value.length < 2 ^ 32
    omega

namespace DBImpl

/-- The loop of `PutBatch` logs its records in order. -/
theorem storeBatch_logs {fi off : Nat} {items : List Item} :
    ∀ {n : Nat} {db db' : DBImpl} {l : List (Bytes × DBIndex)},
    (∀ r ∈ items, r.key.length + r.value.length ≤ maxRwCount) → db.Logs l →
    storeBatch fi off ((items.map Item.key).zip (Item.index n items)) db = some db' →
    ∃ l', db'.Logs (l ++ l') ∧ Sized l' (items.map fun r => (r.key, r.value)) := by
  induction items with
  | nil =>
    intro n db db' l _ hl h
    cases h
    exact ⟨[], by rwa [List.append_nil], rfl⟩
  | cons r items ih =>
    intro n db db' l hsize hl h
    have hr := hsize r List.mem_cons_self
    simp only [List.map_cons, Item.index, List.zip_cons_cons, storeBatch, ofFile_eq _ _ hr,
      Index.setFileaddr, bind] at h
    obtain ⟨db₁, hst, hrest⟩ := Option.bind_eq_some_iff.mp h
    obtain ⟨f, hf, rfl⟩ := storeIndex_inv hst
    have hfits := fits_file fi (u32_lt (off + (n + sizeofRequest))) hr
    have hl₁ := hl.insert hf hfits
    obtain ⟨l', hl', hsized⟩ := ih (fun x hx => hsize x (List.mem_cons_of_mem _ hx)) hl₁ hrest
    rw [List.append_assoc, List.singleton_append] at hl'
    refine ⟨_, hl', ?_⟩
    unfold Sized at hsized ⊢
    rw [List.map_cons, List.map_cons, List.map_cons, hsized]

/-- A call logs the pairs it stores. -/
theorem exec_logs {db db' : DBImpl} {l : List (Bytes × DBIndex)} {op : Op} {ret : Ret}
    (hl : db.Logs l) (h : db.exec op = some (ret, db')) :
    ∃ l', db'.Logs (l ++ l') ∧ Sized l' op.puts := by
  cases op with
  | put r =>
    simp only [exec, put, bind, Option.map_eq_some_iff] at h
    obtain ⟨x, h, heq⟩ := h
    cases heq
    obtain ⟨⟨db₁, fi, off⟩, happ, h⟩ := Option.bind_eq_some_iff.mp h
    obtain ⟨db₂, hst, h⟩ := Option.bind_eq_some_iff.mp h
    cases h
    obtain ⟨hoff, hindex, -⟩ := append_inv (writes_appendData r) 2 happ
    rw [ofFile_eq fi off r.whole] at hst
    obtain ⟨f, hf, rfl⟩ := storeIndex_inv hst
    have hoff : off < 2 ^ 32 := by
      simp only [segmentSize] at hoff
      omega
    exact ⟨_, (hl.congr hindex).insert hf (fits_file fi hoff r.whole), rfl⟩
  | putBatch b =>
    simp only [exec, putBatch, bind, Option.map_eq_some_iff] at h
    obtain ⟨x, h, heq⟩ := h
    cases heq
    obtain ⟨⟨db₁, fi, off⟩, happ, h⟩ := Option.bind_eq_some_iff.mp h
    obtain ⟨db₂, hst, h⟩ := Option.bind_eq_some_iff.mp h
    cases h
    obtain ⟨-, hindex, -⟩ := append_inv (writes_appendDataBatch _) 2 happ
    exact storeBatch_logs (fun r hr => b.item_whole hr) (hl.congr hindex) hst
  | get p key =>
    simp only [exec, Option.map_eq_some_iff] at h
    obtain ⟨v, -, heq⟩ := h
    cases heq
    exact ⟨[], by rwa [List.append_nil], rfl⟩
  | delete key =>
    cases h
    refine ⟨[], ?_, rfl⟩
    rw [List.append_nil]
    apply hl.congr
    unfold delete
    split <;> rfl

/-- A history logs the pairs it stores. -/
theorem run_logs {ops : List Op} : ∀ {db db' : DBImpl} {l : List (Bytes × DBIndex)}
    {rets : List Ret}, db.Logs l → db.run ops = some (rets, db') →
    ∃ l', db'.Logs (l ++ l') ∧ Sized l' (puts ops) := by
  induction ops with
  | nil =>
    intro db db' l rets hl h
    cases h
    exact ⟨[], by rwa [List.append_nil], rfl⟩
  | cons op ops ih =>
    intro db db' l rets hl h
    obtain ⟨ret, db₁, rets', hop, hops, -⟩ := history_cons.mp h
    obtain ⟨l₁, hl₁, hs₁⟩ := exec_logs hl hop
    obtain ⟨l₂, hl₂, hs₂⟩ := ih hl₁ hops
    refine ⟨l₁ ++ l₂, by rwa [← List.append_assoc], ?_⟩
    exact hs₁.append hs₂

end DBImpl

end LogDirect.BitCask
