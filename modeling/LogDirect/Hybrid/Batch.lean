import LogDirect.Hybrid.Model

/-!
# The open batch

Between two flushes the ring bytes from `buf_tail_` on are the records the
clerk has taken, one after another; the key and index vectors describe the same
records (`Laid`). Taking a record extends the batch, a flush hands it over and
starts an empty one at the next position.
-/

namespace LogDirect.Hybrid

open Lib

/-- The records lie one behind the other from position `p` on. -/
def PlacedFrom : Nat → List Stored → Prop
  | _, [] => True
  | p, w :: ws => w.pos = p ∧ PlacedFrom (p + w.record.length) ws

variable {p : Nat} {l : List Stored}

theorem placedFrom_append {l' : List Stored} :
    PlacedFrom p (l ++ l') ↔
      PlacedFrom p l ∧ PlacedFrom (p + Batch.total (records l)) l' := by
  induction l generalizing p with
  | nil => simp [PlacedFrom, records]
  | cons w l ih =>
    simp only [List.cons_append, PlacedFrom, ih, records, List.map_cons, Batch.total_cons,
      Nat.add_assoc, and_assoc]

/-- A record of a batch that starts at `p` lies inside the batch. -/
theorem PlacedFrom.bounds (h : PlacedFrom p l) :
    ∀ w ∈ l, p ≤ w.pos ∧ w.pos + w.record.length ≤ p + Batch.total (records l) := by
  induction l generalizing p with
  | nil => simp
  | cons w l ih =>
    obtain ⟨hpos, hrest⟩ := h
    intro x hx
    simp only [records, List.map_cons, Batch.total_cons]
    rcases List.mem_cons.mp hx with rfl | hx
    · omega
    · have := ih hrest x hx
      simp only [records] at this
      omega

/-- Where the batch reads as its records, each record reads as itself. -/
theorem PlacedFrom.read {m : Mem} {base : Nat} (h : PlacedFrom p l)
    (hread : m.read (base + p) (Batch.total (records l)) = Batch.bytes (records l)) :
    ∀ w ∈ l, m.read (base + w.pos) w.record.length = w.record.encode := by
  induction l generalizing p with
  | nil => simp
  | cons w l ih =>
    obtain ⟨hpos, hrest⟩ := h
    simp only [records, List.map_cons, Batch.total_cons, Batch.bytes_cons] at hread
    rw [← Record.length_encode, ← Batch.length_bytes] at hread
    have hhead := Mem.read_left _ _ hread
    have htail := Mem.read_right _ _ hread
    rw [Record.length_encode] at hhead htail
    intro x hx
    rcases List.mem_cons.mp hx with rfl | hx
    · rw [hpos]
      exact hhead
    · refine ih hrest ?_ x hx
      rw [← Nat.add_assoc]
      simpa [records] using htail

namespace Clerk

/-- The open batch of a clerk, in the ring and in its vectors. -/
structure Laid (k : Clerk) (m : Mem) : Prop where
  tail_ge : ringHeader ≤ k.bufTail
  head_lt : k.bufTail + k.batchLength < maxAsyncSize
  len_eq : k.batchLength = Batch.total (records k.openRecs)
  keys : k.keyBatch = (records k.openRecs).map Record.key
  index : k.indexBatch = Batch.index 0 (records k.openRecs)
  placed : PlacedFrom k.bufTail k.openRecs
  ring : m.read (k.writeBuf + k.bufTail) k.batchLength = Batch.bytes (records k.openRecs)
  recent : k.openRecs <:+ k.placed

/-- The open batch between two requests: too short to be flushed. -/
structure BatchInv (k : Clerk) (m : Mem) : Prop where
  laid : k.Laid m
  len_lt : k.batchLength < batchSize

/-- The part of a clerk its open batch lives in. -/
def batch (k : Clerk) :
    Nat × Nat × Nat × List Bytes × List DBIndex × List Stored × List Stored :=
  (k.writeBuf, k.bufTail, k.batchLength, k.keyBatch, k.indexBatch, k.openRecs, k.placed)

variable {k : Clerk}

/-- The invariant speaks of that part only. -/
theorem Laid.congr {k' : Clerk} {m : Mem} (h : k.Laid m) (he : k'.batch = k.batch) : k'.Laid m := by
  simp only [batch, Prod.mk.injEq] at he
  obtain ⟨h1, h2, h3, h4, h5, h6, h7⟩ := he
  refine ⟨?_, ?_, ?_, ?_, ?_, ?_, ?_, ?_⟩
  · rw [h2]
    exact h.tail_ge
  · rw [h2, h3]
    exact h.head_lt
  · rw [h3, h6]
    exact h.len_eq
  · rw [h4, h6]
    exact h.keys
  · rw [h5, h6]
    exact h.index
  · rw [h2, h6]
    exact h.placed
  · rw [h1, h2, h3, h6]
    exact h.ring
  · rw [h6, h7]
    exact h.recent

theorem BatchInv.congr {k' : Clerk} {m : Mem} (h : k.BatchInv m) (he : k'.batch = k.batch) :
    k'.BatchInv m := by
  refine ⟨h.laid.congr he, ?_⟩
  have hlen : k'.batchLength = k.batchLength := congrArg (fun b => b.2.2.1) he
  rw [hlen]
  exact h.len_lt

/-- The request area holds the header and the key of `r`. -/
structure Holds (k : Clerk) (r : Record) : Prop where
  op : Request.op k.msg = some r.op
  keySize : Request.keySize k.msg = r.key.length
  valSize : Request.valSize k.msg = r.val.length
  key : Request.key k.msg = r.key

/-- The message area reads as a header and a key. -/
theorem holds_of_read {r : Record} (h : k.msg.read 0 r.metaPart.length = r.metaPart) :
    k.Holds r := by
  have hks : r.key.length < 2 ^ 24 := Nat.lt_trans r.key_lt (by decide)
  have hvs : r.val.length < 2 ^ 32 := Nat.lt_trans r.val_lt (by decide)
  rw [Record.length_metaPart] at h
  obtain ⟨hop, hk, hv, hkey⟩ := Request.fields_of_read _ h hks hvs
  refine ⟨hop, hk, hv, ?_⟩
  unfold Request.key
  rw [hk]
  exact hkey

/-- A flush makes the tail move: back to the start of the ring, or past the
batch. -/
theorem nextTail_cases (k : Clerk) :
    (k.Rewinds ∧ k.nextTail = ringHeader) ∨
      (¬ k.Rewinds ∧ k.nextTail = k.bufTail + k.batchLength) := by
  by_cases h : k.Rewinds
  · exact .inl ⟨h, by simp [nextTail, h]⟩
  · exact .inr ⟨h, by simp [nextTail, h]⟩

end Clerk

/-! ## Taking a record -/

/-- The `im_index_` entry of a record in the ring at `writeBuf`. -/
def Stored.entry (w : Stored) (writeBuf : Nat) : DBIndex :=
  ⟨.mem (writeBuf + w.pos + sizeofRequest), w.record.key.length, w.record.val.length⟩

/-- The clerk after it has taken a record. -/
def Clerk.take (k : Clerk) (w : Stored) : Clerk :=
  { k with
    keyBatch := k.keyBatch ++ [w.record.key]
    indexBatch := k.indexBatch ++
      [⟨.file 0 (k.batchLength + sizeofRequest), w.record.key.length, w.record.val.length⟩]
    batchLength := k.batchLength + w.record.length
    openRecs := k.openRecs ++ [w]
    placed := k.placed ++ [w] }

/-- The shared state after a clerk has taken a record. -/
def Shared.take (sh : Shared) (writeBuf : Nat) (w : Stored) : Shared :=
  { sh with
    index := Function.update sh.index w.record.key (some (w.entry writeBuf))
    muts := sh.muts ++ [(w.record.key, some w.record.val)] }

namespace Clerk

theorem append_eq {k : Clerk} (sh : Shared) {w : Stored} (hh : k.Holds w.record)
    (hpos : w.pos = k.bufTail + k.batchLength) :
    k.append sh [w] = (k.take w, sh.take k.writeBuf w) := by
  have hlen : Request.length k.msg = w.record.length := by
    rw [Request.length, hh.keySize, hh.valSize]
    exact Nat.mod_eq_of_lt (w.record.fits.trans_lt (by decide))
  unfold append take Shared.take Stored.entry
  simp only [hh.key, hh.keySize, hh.valSize, hlen, hpos, List.map_cons, List.map_nil,
    Nat.add_assoc]

/-- Taking a record extends the batch. -/
theorem Laid.take {k : Clerk} {m : Mem} {w : Stored} (hl : k.Laid m)
    (hpos : w.pos = k.bufTail + k.batchLength)
    (hfit : k.bufTail + k.batchLength + w.record.length < maxAsyncSize)
    (hring : m.read (k.writeBuf + w.pos) w.record.length = w.record.encode) :
    (k.take w).Laid m := by
  constructor
  · exact hl.tail_ge
  · show k.bufTail + (k.batchLength + w.record.length) < maxAsyncSize
    omega
  · show k.batchLength + w.record.length = Batch.total (records (k.openRecs ++ [w]))
    rw [hl.len_eq]
    simp [records]
  · show k.keyBatch ++ [w.record.key] = (records (k.openRecs ++ [w])).map Record.key
    rw [hl.keys]
    simp [records]
  · show k.indexBatch ++ [_] = Batch.index 0 (records (k.openRecs ++ [w]))
    rw [records_append, Batch.index_append, ← hl.index, ← hl.len_eq]
    simp [records, Batch.index]
  · show PlacedFrom k.bufTail (k.openRecs ++ [w])
    rw [placedFrom_append, ← hl.len_eq]
    exact ⟨hl.placed, hpos, trivial⟩
  · show m.read (k.writeBuf + k.bufTail) (k.batchLength + w.record.length) =
      Batch.bytes (records (k.openRecs ++ [w]))
    rw [Mem.read_add, hl.ring, Nat.add_assoc, ← hpos, hring]
    simp [records]
  · obtain ⟨older, h⟩ := hl.recent
    refine ⟨older, ?_⟩
    show older ++ (k.openRecs ++ [w]) = k.placed ++ [w]
    rw [← List.append_assoc, h]

end Clerk

/-! ## Flushing -/

/-- The clerk after a flush. -/
def Clerk.flushed (k : Clerk) : Clerk :=
  { k.spawn (Batch.bytes (records k.openRecs)) with
    keyBatch := [], indexBatch := [], batchLength := 0 }

/-- The shared state after a flush of the records `rs`. -/
def Shared.flushed (sh : Shared) (rs : List Record) : Shared :=
  { sh with
    db := replay sh.db (Batch.puts rs)
    index := eraseAll sh.index (rs.map Record.key) }

namespace Clerk

variable {k : Clerk} {m : Mem} {sh : Shared}

/-- After a flush the batch is empty. -/
theorem Laid.flushed (hl : k.Laid m) : k.flushed.BatchInv m := by
  have htail : ringHeader ≤ k.nextTail ∧ k.nextTail < maxAsyncSize := by
    have h1 := hl.tail_ge
    have h2 := hl.head_lt
    rcases k.nextTail_cases with ⟨_, h⟩ | ⟨_, h⟩
    · rw [h]
      simp [ringHeader, maxAsyncSize]
    · rw [h]
      omega
  constructor
  · constructor
    · exact htail.1
    · exact htail.2
    · rfl
    · rfl
    · rfl
    · trivial
    · rfl
    · exact List.nil_suffix
  · show 0 < batchSize
    simp [batchSize]

/-- The copy a flush makes is the batch. -/
theorem Laid.tmpBuf (hl : k.Laid sh.mem) :
    k.tmpBuf sh = Batch.bytes (records k.openRecs) := hl.ring

/-- A flush stores the records of the batch in order. -/
theorem Laid.putBatch (hl : k.Laid sh.mem) :
    sh.db.putBatch k.keyBatch k.indexBatch (k.tmpBuf sh) =
      replay sh.db (Batch.puts (records k.openRecs)) := by
  rw [hl.tmpBuf, hl.keys, hl.index, Batch.putBatch_batch]

theorem Laid.flush_eq (hl : k.Laid sh.mem) :
    k.flush sh = (k.flushed, sh.flushed (records k.openRecs)) := by
  unfold flush Clerk.flushed Shared.flushed
  rw [hl.putBatch, hl.tmpBuf, hl.keys]

/-- A record of the open batch is intact in the ring. -/
theorem Laid.intact (hl : k.Laid m) :
    ∀ w ∈ k.openRecs, m.read (k.writeBuf + w.pos) w.record.length = w.record.encode := by
  have h := hl.ring
  rw [hl.len_eq] at h
  exact hl.placed.read h

/-- The open batch is framed by the ring: a write that misses it keeps it. -/
theorem Laid.frame {a : Nat} {bs : Bytes} (hl : k.Laid m)
    (h : k.writeBuf + k.bufTail + k.batchLength ≤ a ∨ a + bs.length ≤ k.writeBuf + k.bufTail) :
    k.Laid (m.write a bs) := by
  refine ⟨hl.tail_ge, hl.head_lt, hl.len_eq, hl.keys, hl.index, hl.placed, ?_, hl.recent⟩
  rw [Mem.read_write_of_disjoint _ h]
  exact hl.ring

/-! ## The write labels on an open batch -/

/-- A record that does not fill the batch is only taken into it. -/
theorem write_short {w : Stored} (hl : (k.take w).Laid sh.mem) (hh : k.Holds w.record)
    (hpos : w.pos = k.bufTail + k.batchLength) (hlt : k.batchLength + w.record.length < batchSize) :
    k.write sh w.record.op [w] = ((k.take w).reply .ok 0 [], sh.take k.writeBuf w) := by
  have hop : w.record.op ≠ .nop := by
    rcases w.record.isWrite with h | h <;> simp [h]
  have hhead : k.bufTail + (k.batchLength + w.record.length) < maxAsyncSize := hl.head_lt
  unfold write
  simp only [if_neg hop, append_eq sh hh hpos]
  rw [if_neg]
  simp only [hop, or_false, not_or, take]
  omega

/-- A record that fills the batch makes the clerk flush it. -/
theorem write_full {w : Stored} (hl : (k.take w).Laid sh.mem) (hh : k.Holds w.record)
    (hpos : w.pos = k.bufTail + k.batchLength) (hge : batchSize ≤ k.batchLength + w.record.length) :
    k.write sh w.record.op [w] = ((k.take w).flushed.reply .ok 0 [],
      (sh.take k.writeBuf w).flushed (records (k.openRecs ++ [w]))) := by
  have hop : w.record.op ≠ .nop := by
    rcases w.record.isWrite with h | h <;> simp [h]
  have hflush : (k.take w).flush (sh.take k.writeBuf w) = _ := Laid.flush_eq hl
  unfold write
  simp only [if_neg hop, append_eq sh hh hpos]
  rw [if_pos (.inl hge), hflush]
  rfl

/-- `NOP` makes the clerk flush whatever is there. -/
theorem write_nop (hl : k.Laid sh.mem) (tag : List Stored) :
    k.write sh .nop tag = (k.flushed.reply .ok 0 [], sh.flushed (records k.openRecs)) := by
  unfold write
  simp [hl.flush_eq]

end Clerk

end LogDirect.Hybrid
