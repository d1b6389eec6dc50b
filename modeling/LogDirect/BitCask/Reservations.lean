import LogDirect.BitCask.Agree
import LogDirect.Lib.Extents

/-!
# BitCask: what the appends reserve

`AppendData` and `AppendDataBatch` (`posix_file.cc`) move `file_offset_` forward and
own what lies between the old value and the new one. The reservations and the stores
of a run are read off its steps; `Placed` says that the reservations in a file tile
it up to `file_offset_` and that an entry of `hash_table_` lies in the last
reservation of the call that stored it.

A `pwrite` may also write less than its record, or nothing: after `AppendData` the
call retries with a new segment and reserves a second time, `AppendDataBatch` ends the
process. Neither gives back what was reserved.
-/

namespace LogDirect.BitCask

open Lib

/-! ## Appends that fail -/

/-- The calls, and whether `exit` was called. -/
structure Disk where
  writers : Writers
  exited : Bool

/-- A step of the calls, or a `pwrite` of call `i` that writes `n` bytes only. -/
inductive DiskLabel
  | run (l : WriterLabel)
  | short (i n : Nat)

namespace Disk

/-- A short `pwrite`; `n` is 0 for an error. -/
def shortWrite (s : Writers) (i n : Nat) : Option Disk :=
  match s.calls[i]? with
  | some (m, .reserved fi _) =>
      match s.db.dataFiles fi with
      | none => none
      | some f =>
          if n < m.bytes.length then
            let db := s.db.setDataFile fi (f.pwrite (m.bytes.take n))
            match m with
            | .put _ => some ⟨⟨db, s.lock, s.calls.set i (m, .full fi)⟩, false⟩
            | _ => some ⟨⟨db, s.lock, s.calls⟩, true⟩
          else none
  | _ => none

def step (s : Disk) : DiskLabel → Option Disk
  | .run l => if s.exited then none else (s.writers.step l).map fun w => ⟨w, false⟩
  | .short i n => if s.exited then none else shortWrite s.writers i n

end Disk

/-- Concurrent calls on a new database, on a disk that may fail. -/
def disk (sync : Bool) : TSys Disk DiskLabel where
  init s := s = ⟨.start (.create sync), false⟩
  step := Disk.step

variable {s : Writers} {i n fi off : Nat} {pc pc' : WriterPc} {db db' : DBImpl} {f : File}
  {m : Mutation} {lock lock' : Bool} {st : List (Bytes × Nat × DBIndex)}

theorem Disk.shortWrite_cases {s' : Disk} (h : shortWrite s i n = some s') :
    ∃ m fi off f, s.calls[i]? = some (m, .reserved fi off) ∧ s.db.dataFiles fi = some f ∧
      s'.writers.db = s.db.setDataFile fi (f.pwrite (m.bytes.take n)) ∧
      (s'.writers.calls = s.calls.set i (m, .full fi) ∨ s'.writers.calls = s.calls) := by
  unfold shortWrite at h
  split at h
  · rename_i m fi off hc
    split at h
    · cases h
    · rename_i f hf
      split at h
      · cases m with
        | put r =>
          cases h
          exact ⟨_, fi, off, f, hc, hf, rfl, .inl rfl⟩
        | putBatch b =>
          cases h
          exact ⟨_, fi, off, f, hc, hf, rfl, .inr rfl⟩
        | delete key =>
          cases h
          exact ⟨_, fi, off, f, hc, hf, rfl, .inr rfl⟩
      · cases h
  · cases h

/-! ## Reservations and stores of a run -/

/-- What a compare-exchange on `file_offset_` gave to a call. -/
structure Reservation where
  file : Nat
  extent : Extent

/-- The file a call is about to append to. -/
def WriterPc.choice : WriterPc → Option Nat
  | .chosen fi => some fi
  | _ => none

/-- The entry a call is about to insert. -/
def WriterPc.next : WriterPc → Option (Bytes × DBIndex)
  | .storing (e :: _) => some e
  | _ => none

theorem WriterPc.storing_of_next {e : Bytes × DBIndex} (h : pc.next = some e) :
    ∃ todo, pc = .storing (e :: todo) := by
  cases pc with
  | storing todo =>
    cases todo with
    | nil => cases h
    | cons e todo =>
      cases h
      exact ⟨todo, rfl⟩
  | _ => cases h

/-- What the next step of a call reserves. -/
def reserves (m : Mutation) (db : DBImpl) (pc : WriterPc) : Option Reservation :=
  pc.choice.bind fun fi => (db.dataFiles fi).bind fun f =>
    (f.reserve m.size).map fun r => ⟨fi, ⟨r.1, m.size⟩⟩

/-- The call and what a step reserves for it. -/
def reservedBy : Disk × DiskLabel → Option (Nat × Reservation)
  | (s, .run (.go i)) => s.writers.calls[i]?.bind fun c =>
      (reserves c.1 s.writers.db c.2).map fun r => (i, r)
  | _ => none

/-- The key a step stores, with the call and the entry. -/
def storedBy : Disk × DiskLabel → Option (Bytes × Nat × DBIndex)
  | (s, .run (.go i)) => s.writers.calls[i]?.bind fun c => c.2.next.map fun e => (e.1, i, e.2)
  | _ => none

/-- The reservations of a run, in order. -/
def reservationsOf (tr : List (Disk × DiskLabel)) : List (Nat × Reservation) :=
  tr.filterMap reservedBy

/-- The stores of a run, in order. -/
def stored (tr : List (Disk × DiskLabel)) : List (Bytes × Nat × DBIndex) := tr.filterMap storedBy

/-- What was reserved in a file. -/
def reservedIn (rs : List (Nat × Reservation)) (fi : Nat) : List Extent :=
  (rs.filter fun r => r.2.file = fi).map fun r => r.2.extent

/-- The entry names the file and a part of the reservation. -/
def Reservation.Contains (r : Reservation) (idx : DBIndex) : Prop :=
  Index.fileIndex idx = r.file ∧
    (⟨idx.fileOffset, idx.keySize + idx.valueSize⟩ : Extent).Within r.extent

/-- `Read` copies from `base_buf_`. -/
def File.ReadsBaseBuf (f : File) (offset : Nat) : Prop := offset > f.fileOffset

/-! ## The files -/

/-- The data files are numbered without gaps, and what was reserved in each tiles it up
to `file_offset_`. -/
structure Tiled (rs : List (Nat × Reservation)) (db : DBImpl) : Prop where
  pos : 0 < db.fileNum
  there : ∀ fi, fi < db.fileNum ↔ ∃ f, db.dataFiles fi = some f
  tiles : ∀ fi f, db.dataFiles fi = some f → Tiles 0 (reservedIn rs fi) f.fileOffset
  within : ∀ r ∈ rs, r.2.file < db.fileNum

theorem reservedIn_snoc (rs : List (Nat × Reservation)) (i fi fi' : Nat) (e : Extent) :
    reservedIn (rs ++ [(i, ⟨fi, e⟩)]) fi' =
      if fi = fi' then reservedIn rs fi' ++ [e] else reservedIn rs fi' := by
  unfold reservedIn
  by_cases h : fi = fi' <;> simp [List.filter_append, h]

variable {rs : List (Nat × Reservation)}

/-- Nothing is reserved in a file that is not there. -/
theorem Tiled.reservedIn_of_le (h : Tiled rs db) (hfi : db.fileNum ≤ fi) :
    reservedIn rs fi = [] := by
  unfold reservedIn
  rw [List.map_eq_nil_iff, List.filter_eq_nil_iff]
  intro r hr heq
  have hfile : r.2.file = fi := by simpa using heq
  have := h.within r hr
  omega

/-- What was reserved lies below `file_offset_`. -/
theorem Tiled.below (h : Tiled rs db) {r : Nat × Reservation} (hr : r ∈ rs) :
    ∃ f, db.dataFiles r.2.file = some f ∧ r.2.extent.stop ≤ f.fileOffset := by
  obtain ⟨f, hf⟩ := (h.there r.2.file).mp (h.within r hr)
  have hmem : r.2.extent ∈ reservedIn rs r.2.file :=
    List.mem_map_of_mem (List.mem_filter.mpr ⟨hr, decide_eq_true rfl⟩)
  exact ⟨f, hf, ((h.tiles _ f hf).between.2 _ hmem).2⟩

theorem Tiled.congr (h : Tiled rs db) (hdata : db'.dataFiles = db.dataFiles)
    (hnum : db'.fileNum = db.fileNum) : Tiled rs db' := by
  refine ⟨hnum ▸ h.pos, ?_, ?_, hnum ▸ h.within⟩
  · rw [hnum, hdata]
    exact h.there
  · rw [hdata]
    exact h.tiles

/-- A file that is replaced is still there. -/
theorem Tiled.set_there (h : Tiled rs db) (hf : db.dataFiles fi = some f) (g : File) (fi' : Nat) :
    fi' < db.fileNum ↔ ∃ f, (db.setDataFile fi g).dataFiles fi' = some f := by
  by_cases hfi : fi' = fi
  · subst hfi
    exact ⟨fun _ => ⟨g, Function.update_self ..⟩, fun _ => (h.there fi').mpr ⟨f, hf⟩⟩
  · have hother : (db.setDataFile fi g).dataFiles fi' = db.dataFiles fi' :=
      Function.update_of_ne hfi ..
    rw [hother]
    exact h.there fi'

/-- The bytes of a file play no part. -/
theorem Tiled.rewrite (h : Tiled rs db) {g : File} (hf : db.dataFiles fi = some f)
    (hg : g.fileOffset = f.fileOffset) : Tiled rs (db.setDataFile fi g) := by
  refine ⟨h.pos, h.set_there hf g, ?_, h.within⟩
  intro fi' f' hf'
  by_cases hfi : fi' = fi
  · subst hfi
    have hself : (db.setDataFile fi' g).dataFiles fi' = some g := Function.update_self ..
    cases hself.symm.trans hf'
    rw [hg]
    exact h.tiles fi' f hf
  · exact h.tiles fi' f' ((Function.update_of_ne hfi ..).symm.trans hf')

/-- A record behind the reserved part of a segment does not wrap `file_offset_`. -/
theorem u32_reserve (hroom : off < segmentSize) (m : Mutation) :
    u32 (off + m.size) = off + m.size := by
  rw [m.size_eq]
  exact u32_append hroom m.length_bytes_le

/-- The compare-exchange. -/
theorem Tiled.reserve (h : Tiled rs db) (hf : db.dataFiles fi = some f)
    (hroom : f.fileOffset < segmentSize) (m : Mutation) (i : Nat) :
    Tiled (rs ++ [(i, ⟨fi, ⟨f.fileOffset, m.size⟩⟩)])
      (db.setDataFile fi { f with fileOffset := u32 (f.fileOffset + m.size) }) := by
  refine ⟨h.pos, h.set_there hf _, ?_, ?_⟩
  · intro fi' f' hf'
    rw [reservedIn_snoc]
    by_cases hfi : fi' = fi
    · subst hfi
      have hself : (db.setDataFile fi'
          { f with fileOffset := u32 (f.fileOffset + m.size) }).dataFiles fi' =
          some { f with fileOffset := u32 (f.fileOffset + m.size) } := Function.update_self ..
      cases hself.symm.trans hf'
      rw [if_pos rfl, u32_reserve hroom]
      exact (h.tiles fi' f hf).snoc m.size
    · rw [if_neg (Ne.symm hfi)]
      exact h.tiles fi' f' ((Function.update_of_ne hfi ..).symm.trans hf')
  · intro r hr
    rcases List.mem_append.mp hr with hr | hr
    · exact h.within r hr
    · rw [List.mem_singleton.mp hr]
      exact (h.there fi).mpr ⟨f, hf⟩

/-- A new segment. -/
theorem Tiled.newSegment (h : Tiled rs db) : Tiled rs db.newSegment := by
  have hnew : db.newSegment.dataFiles db.fileNum = some (.new []) := Function.update_self ..
  refine ⟨Nat.succ_pos _, ?_, ?_, ?_⟩
  · intro fi
    by_cases hfi : fi = db.fileNum
    · subst hfi
      exact ⟨fun _ => ⟨_, hnew⟩, fun _ => Nat.lt_succ_self _⟩
    · have hold : db.newSegment.dataFiles fi = db.dataFiles fi := Function.update_of_ne hfi ..
      rw [hold, ← h.there]
      show fi < db.fileNum + 1 ↔ _
      omega
  · intro fi f hf
    by_cases hfi : fi = db.fileNum
    · subst hfi
      cases hnew.symm.trans hf
      rw [h.reservedIn_of_le (Nat.le_refl _)]
      exact .nil
    · exact h.tiles fi f ((Function.update_of_ne hfi ..).symm.trans hf)
  · intro r hr
    exact (h.within r hr).trans (Nat.lt_succ_self _)

/-! ## The calls -/

/-- The entries of consecutive records lie in a reservation that takes the records from
offset `n` of the buffer on. -/
theorem entries_contained {size : Nat} (hroom : off < segmentSize) (hsize : size ≤ maxRwCount)
    (items : List Item) : ∀ n, n + Item.total items ≤ size →
      ∀ p ∈ ((items.map Item.key).zip (Item.index n items)).map fun p =>
        (p.1, Index.setFileaddr p.2 fi (u32 (off + p.2.fileOffset))),
      Reservation.Contains ⟨fi, ⟨off, size⟩⟩ p.2 := by
  rw [segmentSize] at hroom
  induction items with
  | nil =>
    intro n _ p hp
    cases hp
  | cons r items ih =>
    intro n hn p hp
    have htotal : Item.total (r :: items) = r.length + Item.total items := by simp [Item.total]
    have hr : r.length = sizeofRequest + r.key.length + r.value.length := rfl
    rcases List.mem_cons.mp hp with rfl | hp
    · have hwhole : r.key.length + r.value.length ≤ maxRwCount := by omega
      rw [DBImpl.ofFile_eq _ _ hwhole]
      refine ⟨rfl, ?_⟩
      rw [maxRwCount] at hsize
      show off ≤ u32 (off + (n + sizeofRequest)) ∧
        u32 (off + (n + sizeofRequest)) + (r.key.length + r.value.length) ≤ off + size
      rw [u32_eq (by omega)]
      omega
    · exact ih (n + r.length) (by omega) p hp

/-- The entries of a call lie in what it reserved. -/
theorem Mutation.entries_contained (m : Mutation) (hroom : off < segmentSize) :
    ∀ p ∈ m.entries fi off, Reservation.Contains ⟨fi, ⟨off, m.size⟩⟩ p.2 := by
  cases m with
  | delete key =>
    intro p hp
    cases hp
  | put r =>
    intro p hp
    cases List.mem_singleton.mp hp
    rw [DBImpl.ofFile_eq fi off r.whole, Mutation.size_eq, bytes, append, Append.bytes, encodeData,
      List.length_append]
    exact ⟨rfl, Nat.le_refl _, Nat.le_refl _⟩
  | putBatch b =>
    rw [Mutation.size_eq, bytes, append, Append.bytes, Item.length_bytes]
    exact BitCask.entries_contained hroom b.whole b.items 0 (Nat.zero_add _).le

/-- What a call knows about its last reservation. -/
def WriterPc.Holds (m : Mutation) (fileNum : Nat) (last : Option Reservation) : WriterPc → Prop
  | .chosen fi => fi < fileNum
  | .reserved fi off => last = some ⟨fi, ⟨off, m.size⟩⟩ ∧ off < segmentSize
  | .written fi off => last = some ⟨fi, ⟨off, m.size⟩⟩ ∧ off < segmentSize
  | .storing todo => ∃ r, last = some r ∧ ∀ e ∈ todo, r.Contains e.2
  | .logging _ _ todo => ∃ r, last = some r ∧ ∀ e ∈ todo, r.Contains e.2
  | _ => True

theorem WriterPc.Holds.mono {n' : Nat} {last : Option Reservation} (h : pc.Holds m n last)
    (hn : n ≤ n') : pc.Holds m n' last := by
  cases pc with
  | chosen fi => exact Nat.lt_of_lt_of_le h hn
  | _ => exact h

/-- The call has made its last reservation. -/
def WriterPc.Settled : WriterPc → Prop
  | .storing _ => True
  | .logging _ _ _ => True
  | .returned _ => True
  | _ => False

/-- A call that has made its last reservation makes no other. -/
theorem Moves.settled (hmove : Moves m db lock pc pc' db' lock') (h : pc.Settled) :
    pc'.Settled ∧ reserves m db pc = none := by
  cases hmove with
  | finish | insert | log => exact ⟨trivial, rfl⟩
  | _ => cases h

/-- What a step of a call does to the table. -/
theorem Moves.entry (hmove : Moves m db lock pc pc' db' lock') {key : Bytes} {idx : DBIndex}
    (h : db'.hashTable key = some idx) :
    (pc.next = some (key, idx) ∧ pc'.Settled) ∨
      db.hashTable key = some idx ∧ ∀ e, pc.next = some e → e.1 ≠ key := by
  cases hmove with
  | @insert _ key' idx' todo =>
    by_cases hkey : key = key'
    · subst hkey
      have hself : (db.assign key (some idx')).hashTable key = some idx' := Function.update_self ..
      cases hself.symm.trans h
      exact .inl ⟨rfl, trivial⟩
    · refine .inr ⟨(Function.update_of_ne hkey ..).symm.trans h, ?_⟩
      intro e he
      cases he
      exact Ne.symm hkey
  | @erase _ key' =>
    by_cases hkey : key = key'
    · subst hkey
      have hself : (db.assign key none).hashTable key = none := Function.update_self ..
      cases hself.symm.trans h
    · exact .inr ⟨(Function.update_of_ne hkey ..).symm.trans h, by simp [WriterPc.next]⟩
  | _ => exact .inr ⟨h, by simp [WriterPc.next]⟩

/-- What a step of call `i` does to the files and to the call. -/
theorem Moves.tiled (hmove : Moves m db lock pc pc' db' lock') (htiled : Tiled rs db)
    (hpc : pc.Holds m db.fileNum (lastOf rs i)) :
    Tiled (rs ++ ((reserves m db pc).map fun r => (i, r)).toList) db' ∧
      pc'.Holds m db'.fileNum
        (lastOf (rs ++ ((reserves m db pc).map fun r => (i, r)).toList) i) ∧
      db.fileNum ≤ db'.fileNum := by
  -- only the compare-exchange reserves
  have keep : reserves m db pc = none → Tiled rs db' → pc'.Holds m db'.fileNum (lastOf rs i) →
      db.fileNum ≤ db'.fileNum →
      Tiled (rs ++ ((reserves m db pc).map fun r => (i, r)).toList) db' ∧
        pc'.Holds m db'.fileNum
          (lastOf (rs ++ ((reserves m db pc).map fun r => (i, r)).toList) i) ∧
        db.fileNum ≤ db'.fileNum := by
    intro hnone htiled' hpc' hnum
    rw [hnone, Option.map_none, Option.toList_none, List.append_nil]
    exact ⟨htiled', hpc', hnum⟩
  cases hmove with
  | absent | found | acquire | retry | tryLock | finish | erase =>
    exact keep rfl (htiled.congr rfl rfl) trivial (Nat.le_refl _)
  | choose =>
    exact keep rfl htiled (Nat.sub_lt htiled.pos Nat.one_pos) (Nat.le_refl _)
  | @reserve _ fi f hf hroom =>
    have hres : reserves m db (.chosen fi) = some ⟨fi, ⟨f.fileOffset, m.size⟩⟩ := by
      simp [reserves, WriterPc.choice, hf, File.reserve, Nat.not_le_of_lt hroom]
    rw [hres]
    refine ⟨htiled.reserve hf hroom m i, ⟨?_, hroom⟩, Nat.le_refl _⟩
    exact (lastOf_snoc rs i _ i).trans (if_pos rfl)
  | @refused _ fi f hf hfull =>
    have hres : reserves m db (.chosen fi) = none := by
      simp [reserves, WriterPc.choice, hf, File.reserve, hfull]
    exact keep hres htiled trivial (Nat.le_refl _)
  | @pwrite _ fi off f hf =>
    have hsame : (f.pwrite m.bytes).fileOffset = f.fileOffset := rfl
    exact keep rfl (htiled.rewrite hf hsame) hpc (Nat.le_refl _)
  | @sync _ fi off f hf =>
    have hsame : (db.syncData f).fileOffset = f.fileOffset := by
      unfold DBImpl.syncData
      split <;> rfl
    obtain ⟨hlast, hroom⟩ := hpc
    exact keep rfl (htiled.rewrite hf hsame) ⟨_, hlast, m.entries_contained hroom⟩ (Nat.le_refl _)
  | create => exact keep rfl htiled.newSegment trivial (Nat.le_succ _)
  | insert =>
    obtain ⟨r, hlast, htodo⟩ := hpc
    exact keep rfl (htiled.congr rfl rfl)
      ⟨r, hlast, fun e he => htodo e (List.mem_cons_of_mem _ he)⟩ (Nat.le_refl _)
  | log => exact keep rfl (htiled.congr rfl rfl) hpc (Nat.le_refl _)

/-! ## Runs -/

/-- The reservations tile the files, and an entry of the table lies in the last
reservation of the call that stored it. -/
structure Placed (rs : List (Nat × Reservation)) (st : List (Bytes × Nat × DBIndex)) (s : Writers) :
    Prop where
  tiled : Tiled rs s.db
  calls : ∀ i m (pc : WriterPc), s.calls[i]? = some (m, pc) → pc.Holds m s.db.fileNum (lastOf rs i)
  table : ∀ key idx, s.db.hashTable key = some idx → ∃ i m, ∃ pc : WriterPc, ∃ r,
    lastOf st key = some (i, idx) ∧ s.calls[i]? = some (m, pc) ∧ pc.Settled ∧ lastOf rs i = some r ∧
      r.Contains idx

theorem start_placed (sync : Bool) : Placed [] [] (.start (.create sync)) where
  tiled := by
    refine ⟨Nat.one_pos, ?_, ?_, by simp⟩
    · intro fi
      show fi < 1 ↔ ∃ f, (if fi = 0 then some (File.new []) else none) = some f
      by_cases hfi : fi = 0 <;> simp [hfi]
    · intro fi f hf
      have hf : (if fi = 0 then some (File.new []) else none) = some f := hf
      split at hf
      · cases hf
        exact .nil
      · cases hf
  calls := by simp [Writers.start]
  table := by simp [Writers.start, DBImpl.create]

/-- A new call. -/
theorem Placed.call (h : Placed rs st s) (m : Mutation) :
    Placed rs st { s with calls := s.calls ++ [(m, .entered)] } where
  tiled := h.tiled
  calls := by
    intro i m' pc hc
    have hc : (s.calls ++ [(m, WriterPc.entered)])[i]? = some (m', pc) := hc
    by_cases hi : i < s.calls.length
    · rw [List.getElem?_append_left hi] at hc
      exact h.calls i m' pc hc
    · rw [List.getElem?_append_right (Nat.le_of_not_lt hi)] at hc
      cases List.mem_singleton.mp (List.mem_of_getElem? hc)
      trivial
  table := by
    intro key idx hidx
    obtain ⟨i, m', pc, r, hst, hc, hrest⟩ := h.table key idx hidx
    have hi : i < s.calls.length := (List.getElem?_eq_some_iff.mp hc).1
    exact ⟨i, m', pc, r, hst, (List.getElem?_append_left hi).trans hc, hrest⟩

/-- A step of one call says nothing about another. -/
theorem lastOf_other (rs : List (Nat × Reservation)) {j : Nat} (hij : i ≠ j)
    (o : Option Reservation) : lastOf (rs ++ (o.map fun r => (i, r)).toList) j = lastOf rs j := by
  cases o with
  | none => rw [Option.map_none, Option.toList_none, List.append_nil]
  | some r => exact (lastOf_snoc rs i r j).trans (if_neg hij)

/-- A step of a call. -/
theorem Placed.go {s' : Writers} (h : Placed rs st s) (hc : s.calls[i]? = some (m, pc))
    (hmove : Moves m s.db s.lock pc pc' s'.db s'.lock)
    (hcalls : s'.calls = s.calls.set i (m, pc')) :
    Placed (rs ++ ((reserves m s.db pc).map fun r => (i, r)).toList)
      (st ++ (pc.next.map fun e => (e.1, i, e.2)).toList) s' := by
  obtain ⟨htiled, hpc, hnum⟩ := hmove.tiled h.tiled (h.calls i m pc hc)
  have hi : i < s.calls.length := (List.getElem?_eq_some_iff.mp hc).1
  have hself : s'.calls[i]? = some (m, pc') := by
    rw [hcalls]
    exact List.getElem?_set_self hi
  have hother : ∀ j, i ≠ j → s'.calls[j]? = s.calls[j]? := by
    intro j hij
    rw [hcalls]
    exact List.getElem?_set_ne hij
  refine ⟨htiled, ?_, ?_⟩
  · intro j m₁ pc₁ hj
    by_cases hij : i = j
    · subst hij
      cases hself.symm.trans hj
      exact hpc
    · rw [lastOf_other rs hij]
      exact (h.calls j m₁ pc₁ ((hother j hij).symm.trans hj)).mono hnum
  · intro key idx hidx
    rcases hmove.entry hidx with ⟨hnext, hsettled⟩ | ⟨hold, hkey⟩
    · -- the entry this step inserts
      obtain ⟨todo, rfl⟩ := WriterPc.storing_of_next hnext
      obtain ⟨r, hlast, htodo⟩ := h.calls i m _ hc
      refine ⟨i, m, pc', r, ?_, hself, hsettled, ?_, htodo _ List.mem_cons_self⟩
      · exact (lastOf_snoc st key (i, idx) key).trans (if_pos rfl)
      · exact (congrArg (fun l => lastOf l i) (List.append_nil rs)).trans hlast
    · -- an older one, of this call or of another
      obtain ⟨j, m₁, pc₁, r, hst, hj, hset, hlast, hr⟩ := h.table key idx hold
      have hst' : lastOf (st ++ (pc.next.map fun e => (e.1, i, e.2)).toList) key =
          some (j, idx) := by
        cases hnext : pc.next with
        | none =>
          rw [Option.map_none, Option.toList_none, List.append_nil]
          exact hst
        | some e => exact (lastOf_snoc st e.1 _ key).trans ((if_neg (hkey e hnext)).trans hst)
      by_cases hij : i = j
      · subst hij
        cases hc.symm.trans hj
        obtain ⟨hset', hnone⟩ := hmove.settled hset
        refine ⟨i, m, pc', r, hst', hself, hset', ?_, hr⟩
        rw [hnone, Option.map_none, Option.toList_none, List.append_nil]
        exact hlast
      · exact ⟨j, m₁, pc₁, r, hst', (hother j hij).trans hj, hset,
          (lastOf_other rs hij _).trans hlast, hr⟩

/-- A `pwrite` that fails. -/
theorem Placed.short {s' : Disk} (h : Placed rs st s) (hstep : Disk.shortWrite s i n = some s') :
    Placed rs st s'.writers := by
  obtain ⟨m, fi, off, f, hc, hf, hdb, hcalls⟩ := Disk.shortWrite_cases hstep
  have hsame : (f.pwrite (m.bytes.take n)).fileOffset = f.fileOffset := rfl
  have htiled : Tiled rs s'.writers.db := hdb ▸ h.tiled.rewrite hf hsame
  have hnum : s'.writers.db.fileNum = s.db.fileNum := hdb ▸ rfl
  have htable : s'.writers.db.hashTable = s.db.hashTable := hdb ▸ rfl
  -- the call that fails has no entry to insert, and stores nothing before it reserves again
  have hback : ∀ (j : Nat) (m₁ : Mutation) (pc₁ : WriterPc), s'.writers.calls[j]? = some (m₁, pc₁) →
      pc₁ = .full fi ∨ s.calls[j]? = some (m₁, pc₁) := by
    intro j m₁ pc₁ hj
    rcases hcalls with hcalls | hcalls
    · rw [hcalls, List.getElem?_set] at hj
      split at hj
      · split at hj
        · cases hj
          exact .inl rfl
        · cases hj
      · exact .inr hj
    · exact .inr (hcalls ▸ hj)
  have hkept : ∀ (j : Nat) (m₁ : Mutation) (pc₁ : WriterPc), s.calls[j]? = some (m₁, pc₁) →
      pc₁.Settled → s'.writers.calls[j]? = some (m₁, pc₁) := by
    intro j m₁ pc₁ hj hset
    rcases hcalls with hcalls | hcalls
    · rw [hcalls, List.getElem?_set]
      split
      · rename_i hij
        subst hij
        cases hc.symm.trans hj
        cases hset
      · exact hj
    · exact hcalls ▸ hj
  refine ⟨htiled, ?_, ?_⟩
  · intro j m₁ pc₁ hj
    rw [hnum]
    rcases hback j m₁ pc₁ hj with rfl | hj
    · trivial
    · exact h.calls j m₁ pc₁ hj
  · intro key idx hidx
    rw [htable] at hidx
    obtain ⟨j, m₁, pc₁, r, hst, hj, hset, hlast, hr⟩ := h.table key idx hidx
    exact ⟨j, m₁, pc₁, r, hst, hkept j m₁ pc₁ hj hset, hset, hlast, hr⟩

theorem reservationsOf_snoc (tr : List (Disk × DiskLabel)) (p : Disk × DiskLabel) :
    reservationsOf (tr ++ [p]) = reservationsOf tr ++ (reservedBy p).toList := by
  rw [reservationsOf, List.filterMap_append]
  cases h : reservedBy p <;> simp [reservationsOf, h]

theorem stored_snoc (tr : List (Disk × DiskLabel)) (p : Disk × DiskLabel) :
    stored (tr ++ [p]) = stored tr ++ (storedBy p).toList := by
  rw [stored, List.filterMap_append]
  cases h : storedBy p <;> simp [stored, h]

theorem disk_placed {sync : Bool} {tr : List (Disk × DiskLabel)} {s : Disk}
    (hrun : (disk sync).Run ⟨.start (.create sync), false⟩ tr s) :
    Placed (reservationsOf tr) (stored tr) s.writers := by
  induction hrun with
  | nil => exact start_placed sync
  | @snoc tr s l s' _ hstep ih =>
    rw [reservationsOf_snoc, stored_snoc]
    have hstep : s.step l = some s' := hstep
    cases l with
    | short i n =>
      simp only [Disk.step] at hstep
      split at hstep
      · cases hstep
      · simp only [reservedBy, storedBy, Option.toList_none, List.append_nil]
        exact ih.short hstep
    | run l =>
      simp only [Disk.step] at hstep
      split at hstep
      · cases hstep
      · obtain ⟨w, hw, rfl⟩ := Option.map_eq_some_iff.mp hstep
        cases l with
        | call m =>
          cases hw
          simp only [reservedBy, storedBy, Option.toList_none, List.append_nil]
          exact ih.call m
        | go i =>
          obtain ⟨m, pc, pc', hc, hmove, hcalls⟩ := Writers.step_go hw
          simp only [reservedBy, storedBy, hc, Option.bind_some]
          exact ih.go hc hmove hcalls

/-- **What the appends reserve.** In every run of concurrent `Put`, `PutBatch` and `Delete`
calls the reservations in a data file are pairwise disjoint and make up the offsets below its
`file_offset_`; an entry of `hash_table_` that is in a file names a file that is there and a
part of the last reservation of the call that stored it; and a `Get` that has found an entry
does not read from `base_buf_`, however long it waits before it reads. -/
theorem reservations_tile {sync : Bool} {tr : List (Disk × DiskLabel)} {s : Disk}
    (hrun : (disk sync).Run ⟨.start (.create sync), false⟩ tr s) :
    (∀ fi f, s.writers.db.dataFiles fi = some f →
      (reservedIn (reservationsOf tr) fi).Pairwise Extent.Apart ∧
      ∀ p, p < f.fileOffset ↔ ∃ e ∈ reservedIn (reservationsOf tr) fi, e.Holds p) ∧
    (∀ key idx, s.writers.db.hashTable key = some idx → Index.flag idx = 1 →
      Index.fileIndex idx < s.writers.db.fileNum ∧
      ∃ i r, lastOf (stored tr) key = some (i, idx) ∧ lastOf (reservationsOf tr) i = some r ∧
        r.Contains idx) ∧
    (∀ key idx, s.writers.db.hashTable key = some idx → ∀ tr' s', (disk sync).Run s tr' s' →
      ∃ f, s'.writers.db.dataFiles (Index.fileIndex idx) = some f ∧
        ¬ f.ReadsBaseBuf idx.fileOffset) := by
  have h := disk_placed hrun
  refine ⟨?_, ?_, ?_⟩
  · intro fi f hf
    have htiles := h.tiled.tiles fi f hf
    exact ⟨htiles.pairwise, htiles.lt_iff⟩
  · intro key idx hidx _
    obtain ⟨i, -, -, r, hst, -, -, hlast, hr⟩ := h.table key idx hidx
    refine ⟨?_, i, r, hst, hlast, hr⟩
    rw [hr.1]
    exact h.tiled.within _ (mem_of_lastOf hlast)
  · intro key idx hidx tr' s' hrun'
    obtain ⟨i, -, -, r, -, -, -, hlast, hr⟩ := h.table key idx hidx
    have hmem : (i, r) ∈ reservationsOf (tr ++ tr') := by
      rw [reservationsOf, List.filterMap_append]
      exact List.mem_append_left _ (mem_of_lastOf hlast)
    obtain ⟨f, hf, hstop⟩ := (disk_placed (hrun.trans hrun')).tiled.below hmem
    obtain ⟨hfile, -, hend⟩ := hr
    refine ⟨f, hfile ▸ hf, ?_⟩
    have hle : idx.fileOffset ≤ f.fileOffset :=
      (Nat.le_add_right _ _).trans (hend.trans hstop)
    exact Nat.not_lt_of_le hle

/-- Two `Put`s of one key, the first of which loses its `pwrite` once and goes to a new
segment: it reserves twice, and the entry is in the second reservation of the last call. -/
theorem two_puts_reserve : ∃ tr s f, (disk false).Run ⟨.start (.create false), false⟩ tr s ∧
    reservedIn (reservationsOf tr) 0 = [⟨0, 2⟩] ∧
    reservedIn (reservationsOf tr) 1 = [⟨0, 2⟩, ⟨2, 2⟩] ∧
    s.writers.db.dataFiles 1 = some f ∧ (∀ p, p < f.fileOffset ↔
      ∃ e ∈ reservedIn (reservationsOf tr) 1, e.Holds p) ∧ Index.fileIndex ⟨.file 1 2, 1, 1⟩ < 2 ∧
    ∃ r, lastOf (reservationsOf tr) 1 = some r ∧ r.Contains ⟨.file 1 2, 1, 1⟩ := by
  obtain ⟨tr, s, f, htr, hfirst, hsecond, hf, hnum, hentry, hstored⟩ : ∃ tr s f,
      (disk false).trace ⟨.start (.create false), false⟩
        (.run (.call (putByte 1)) :: .run (.call (putByte 2)) ::
          (List.replicate 3 (.run (.go 0)) ++ [.short 0 1] ++ List.replicate 10 (.run (.go 0)) ++
          List.replicate 8 (.run (.go 1)))) = some (tr, s) ∧
      reservedIn (reservationsOf tr) 0 = [⟨0, 2⟩] ∧
      reservedIn (reservationsOf tr) 1 = [⟨0, 2⟩, ⟨2, 2⟩] ∧ s.writers.db.dataFiles 1 = some f ∧
      s.writers.db.fileNum = 2 ∧
      s.writers.db.hashTable [1] = some ⟨.file 1 2, 1, 1⟩ ∧
      lastOf (stored tr) [1] = some (1, ⟨.file 1 2, 1, 1⟩) :=
    ⟨_, _, _, rfl, rfl, rfl, rfl, rfl, rfl, rfl⟩
  have hrun := TSys.run_of_trace htr
  obtain ⟨htile, hentries, -⟩ := reservations_tile hrun
  obtain ⟨hlt, i, r, hst, hlast, hr⟩ := hentries [1] _ hentry rfl
  cases hstored.symm.trans hst
  exact ⟨tr, s, f, hrun, hfirst, hsecond, hf, (htile 1 f hf).2, hnum ▸ hlt, r, hlast, hr⟩

end LogDirect.BitCask
