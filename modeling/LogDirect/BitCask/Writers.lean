import LogDirect.BitCask.Scan
import LogDirect.Lib.Pool

/-!
# BitCask: concurrent calls

`Put`, `PutBatch` and `Delete` (`db_impl.cc`, lines 37–118 and 146–156) by any
number of threads on one database, step by step: what one step does is what the
code does without another thread being able to see a part of it. `global_lock_`
protects `file_num_` only; between its append, its `insert_or_assign` and its
`AppendIndex` a call holds nothing.

The load and the compare-exchange loop of an append are one step, and so is
`AppendIndex`: nothing else reads the `file_offset_` of an index file. The
creation of a data file is the step that ends it, since `file_num_` and the end
of `data_files_` are looked at under the lock.
-/

namespace LogDirect.BitCask

open Lib

/-- The calls that change the database. -/
inductive Mutation
  | put (r : Pair)
  | putBatch (b : Batch)
  | delete (key : Bytes)

namespace Mutation

/-- What the call appends to the data file; `Delete` appends nothing. -/
def append : Mutation → Append
  | put r => .data r
  | putBatch b => .batch (Item.bytes b.items) b.length_bytes_le
  | delete _ => .batch [] (Nat.zero_le maxRwCount)

def bytes (m : Mutation) : Bytes := m.append.bytes

/-- What the call adds to `file_offset_`. -/
def size (m : Mutation) : Nat := m.append.size

/-- The entries the call stores for a record at an offset of a file (lines 50 and 93–95). -/
def entries (fileIndex fileOffset : Nat) : Mutation → List (Bytes × DBIndex)
  | put r => [(r.key, Index.ofFile fileIndex fileOffset r.key.length r.value.length)]
  | putBatch b =>
      ((b.items.map Item.key).zip (Item.index 0 b.items)).map fun p =>
        (p.1, Index.setFileaddr p.2 fileIndex (u32 (fileOffset + p.2.fileOffset)))
  | delete _ => []

theorem length_bytes_le (m : Mutation) : m.bytes.length ≤ maxRwCount := m.append.length_bytes_le

theorem size_eq (m : Mutation) : m.size = m.bytes.length := m.append.size_eq

end Mutation

/-- Where a call is. -/
inductive WriterPc
  -- the start of the function, and the target of the `goto`
  | entered
  -- inside the lock, before `file_num_` is read
  | locked
  | chosen (fileIndex : Nat)
  | reserved (fileIndex fileOffset : Nat)
  | written (fileIndex fileOffset : Nat)
  -- the append failed, before `TryLock`
  | full (fileIndex : Nat)
  -- inside the lock, before the new file is there
  | creating (fileIndex : Nat)
  -- before `insert_or_assign` of the first of the entries
  | storing (todo : List (Bytes × DBIndex))
  -- after it, before `AppendIndex`
  | logging (key : Bytes) (idx : DBIndex) (todo : List (Bytes × DBIndex))
  -- `Delete` has found its key
  | erasing
  | returned (ok : Bool)

/-- What a call that has returned returned. -/
def WriterPc.result : WriterPc → Option Bool
  | .returned ok => some ok
  | _ => none

/-- `insert_or_assign` and `erase`. -/
def DBImpl.assign (db : DBImpl) (key : Bytes) (e : Option DBIndex) : DBImpl :=
  { db with hashTable := Function.update db.hashTable key e }

/-- Replace an index file. -/
def DBImpl.setIndexFile (db : DBImpl) (i : Nat) (f : File) : DBImpl :=
  { db with indexFiles := Function.update db.indexFiles i (some f) }

/-- One step of a call on the database and the lock. -/
def advance (m : Mutation) (db : DBImpl) (lock : Bool) :
    WriterPc → Option (WriterPc × DBImpl × Bool)
  | .entered =>
      match m with
      | .delete key =>
          if Index.differs (db.find key) notFound then some (.erasing, db, lock)
          else some (.returned false, db, lock)
      | _ => if lock then none else some (.locked, db, true)
  | .locked => some (.chosen (db.fileNum - 1), db, false)
  | .chosen fi =>
      match db.dataFiles fi with
      | none => none
      | some f =>
          match f.reserve m.size with
          | some (off, f) => some (.reserved fi off, db.setDataFile fi f, lock)
          | none => some (.full fi, db, lock)
  | .reserved fi off =>
      match db.dataFiles fi with
      | none => none
      | some f => some (.written fi off, db.setDataFile fi (f.pwrite m.bytes), lock)
  | .written fi off =>
      match db.dataFiles fi with
      | none => none
      | some f => some (.storing (m.entries fi off), db.setDataFile fi (db.syncData f), lock)
  | .full fi => if lock then some (.entered, db, lock) else some (.creating fi, db, true)
  | .creating _ => some (.entered, db.newSegment, false)
  | .storing [] => some (.returned true, db, lock)
  | .storing ((key, idx) :: todo) => some (.logging key idx todo, db.assign key (some idx), lock)
  | .logging key idx todo =>
      match db.indexFiles (slot key) with
      | none => none
      | some f =>
          some (.storing todo, db.setIndexFile (slot key) (f.appendIndex (indexRecord key idx)),
            lock)
  | .erasing =>
      match m with
      | .delete key => some (.returned true, db.assign key none, lock)
      | _ => none
  | .returned _ => none

/-- The database, `global_lock_`, and the calls made so far. -/
structure Writers where
  db : DBImpl
  lock : Bool
  calls : List (Mutation × WriterPc)

/-- A thread enters a call, or a call makes a step. -/
inductive WriterLabel
  | call (m : Mutation)
  | go (i : Nat)

namespace Writers

/-- A database nobody has called yet. -/
def start (db : DBImpl) : Writers := ⟨db, false, []⟩

def step (s : Writers) : WriterLabel → Option Writers
  | .call m => some { s with calls := s.calls ++ [(m, .entered)] }
  | .go i =>
      match s.calls[i]? with
      | none => none
      | some (m, pc) =>
          (advance m s.db s.lock pc).map fun p => ⟨p.2.1, p.2.2, s.calls.set i (m, p.1)⟩

/-- All calls have returned. -/
def Returned (s : Writers) : Prop := ∀ c ∈ s.calls, c.2.result.isSome

end Writers

/-- Concurrent calls on a new database. -/
def writers (sync : Bool) : TSys Writers WriterLabel where
  init s := s = .start (.create sync)
  step := Writers.step

/-! ## What a step does -/

/-- The steps of a call, case by case. -/
inductive Moves (m : Mutation) (db : DBImpl) : Bool → WriterPc → WriterPc → DBImpl → Bool → Prop
  | absent {lock key} : m = .delete key → ¬ Index.differs (db.find key) notFound →
      Moves m db lock .entered (.returned false) db lock
  | found {lock key} : m = .delete key → Index.differs (db.find key) notFound →
      Moves m db lock .entered .erasing db lock
  | acquire : (∀ key, m ≠ .delete key) → Moves m db false .entered .locked db true
  | choose {lock} : Moves m db lock .locked (.chosen (db.fileNum - 1)) db false
  | reserve {lock fi f} : db.dataFiles fi = some f → f.fileOffset < segmentSize →
      Moves m db lock (.chosen fi) (.reserved fi f.fileOffset)
        (db.setDataFile fi { f with fileOffset := u32 (f.fileOffset + m.size) }) lock
  | refused {lock fi f} : db.dataFiles fi = some f → segmentSize ≤ f.fileOffset →
      Moves m db lock (.chosen fi) (.full fi) db lock
  | pwrite {lock fi off f} : db.dataFiles fi = some f →
      Moves m db lock (.reserved fi off) (.written fi off)
        (db.setDataFile fi (f.pwrite m.bytes)) lock
  | sync {lock fi off f} : db.dataFiles fi = some f →
      Moves m db lock (.written fi off) (.storing (m.entries fi off))
        (db.setDataFile fi (db.syncData f)) lock
  | retry {fi} : Moves m db true (.full fi) .entered db true
  | tryLock {fi} : Moves m db false (.full fi) (.creating fi) db true
  | create {lock fi} : Moves m db lock (.creating fi) .entered db.newSegment false
  | finish {lock} : Moves m db lock (.storing []) (.returned true) db lock
  | insert {lock key idx todo} : Moves m db lock (.storing ((key, idx) :: todo))
      (.logging key idx todo) (db.assign key (some idx)) lock
  | log {lock key idx todo f} : db.indexFiles (slot key) = some f →
      Moves m db lock (.logging key idx todo) (.storing todo)
        (db.setIndexFile (slot key) (f.appendIndex (indexRecord key idx))) lock
  | erase {lock key} : m = .delete key →
      Moves m db lock .erasing (.returned true) (db.assign key none) lock

variable {db db' : DBImpl} {pc : WriterPc} {s : Writers} {l : List (Bytes × DBIndex)}

theorem advance_moves {m : Mutation} {lock lock' : Bool} {pc' : WriterPc}
    (h : advance m db lock pc = some (pc', db', lock')) : Moves m db lock pc pc' db' lock' := by
  cases pc with
  | entered =>
    cases m with
    | delete key =>
      simp only [advance] at h
      split at h
      · rename_i hfound
        cases h
        exact .found rfl hfound
      · rename_i habsent
        cases h
        exact .absent rfl habsent
    | put r =>
      cases lock <;> cases h
      exact .acquire (by simp)
    | putBatch b =>
      cases lock <;> cases h
      exact .acquire (by simp)
  | locked =>
    cases h
    exact .choose
  | chosen fi =>
    simp only [advance] at h
    split at h
    · cases h
    · rename_i f hf
      split at h
      · rename_i off f' hres
        obtain ⟨hroom, rfl, rfl⟩ := File.reserve_eq_some hres
        cases h
        exact .reserve hf hroom
      · rename_i hres
        cases h
        exact .refused hf (File.reserve_eq_none hres)
  | reserved fi off =>
    simp only [advance] at h
    split at h
    · cases h
    · rename_i f hf
      cases h
      exact .pwrite hf
  | written fi off =>
    simp only [advance] at h
    split at h
    · cases h
    · rename_i f hf
      cases h
      exact .sync hf
  | full =>
    cases lock <;> cases h
    · exact .tryLock
    · exact .retry
  | creating =>
    cases h
    exact .create
  | storing todo =>
    cases todo with
    | nil =>
      cases h
      exact .finish
    | cons p todo =>
      cases h
      exact .insert
  | logging key idx todo =>
    simp only [advance] at h
    split at h
    · cases h
    · rename_i f hf
      cases h
      exact .log hf
  | erasing =>
    cases m with
    | delete key =>
      cases h
      exact .erase rfl
    | put r => cases h
    | putBatch b => cases h
  | returned ok => cases h

theorem Writers.step_go {s' : Writers} {i : Nat} (h : s.step (.go i) = some s') :
    ∃ m pc pc', s.calls[i]? = some (m, pc) ∧ Moves m s.db s.lock pc pc' s'.db s'.lock ∧
      s'.calls = s.calls.set i (m, pc') := by
  simp only [step] at h
  split at h
  · cases h
  · rename_i m pc hc
    obtain ⟨⟨pc', db', lock'⟩, hadv, rfl⟩ := Option.map_eq_some_iff.mp h
    exact ⟨m, pc, pc', hc, advance_moves hadv, rfl⟩

/-! ## The invariant -/

/-- The entries a call has yet to log fit a record. -/
def WriterPc.Fits : WriterPc → Prop
  | .reserved _ off => off < 2 ^ 32
  | .written _ off => off < 2 ^ 32
  | .storing todo => ∀ p ∈ todo, (indexRecord p.1 p.2).Fits
  | .logging key idx todo => (indexRecord key idx).Fits ∧ ∀ p ∈ todo, (indexRecord p.1 p.2).Fits
  | _ => True

/-- The entry a call has inserted and not logged. -/
def WriterPc.pending : WriterPc → Option (Bytes × DBIndex)
  | .logging key idx _ => some (key, idx)
  | _ => none

theorem WriterPc.pending_of_result (h : pc.result.isSome) : pc.pending = none := by
  cases pc <;> first | rfl | cases h

/-- The entry a step appends to an index file. -/
def loggedBy : Writers × WriterLabel → Option (Bytes × DBIndex)
  | (s, .go i) => s.calls[i]?.bind fun c => c.2.pending
  | _ => none

/-- The entries a run has appended to index files, in order. -/
def logged (tr : List (Writers × WriterLabel)) : List (Bytes × DBIndex) := tr.filterMap loggedBy

theorem logged_snoc (tr : List (Writers × WriterLabel)) (p : Writers × WriterLabel) :
    logged (tr ++ [p]) = logged tr ++ (loggedBy p).toList := by
  rw [logged, List.filterMap_append]
  cases h : loggedBy p <;> simp [logged, h]

/-- What holds whatever the calls do: the index files hold whole records in the order
of the appends, and every data file is there. -/
structure Writers.Sound (l : List (Bytes × DBIndex)) (s : Writers) : Prop where
  logs : s.db.Logs l
  pos : 0 < s.db.fileNum
  data : ∀ i < s.db.fileNum, ∃ f, s.db.dataFiles i = some f
  fits : ∀ c ∈ s.calls, c.2.Fits

/-- The entries of a call fit. -/
theorem Mutation.entries_fits (m : Mutation) {fi off : Nat} (hoff : off < 2 ^ 32) :
    ∀ p ∈ m.entries fi off, (indexRecord p.1 p.2).Fits := by
  cases m with
  | delete key =>
    intro p hp
    cases hp
  | put r =>
    intro p hp
    cases List.mem_singleton.mp hp
    rw [DBImpl.ofFile_eq fi off r.whole]
    exact fits_file fi hoff r.whole
  | putBatch b =>
    -- the entries of a batch, wherever it begins in the buffer
    have hitems : ∀ items : List Item, (∀ r ∈ items, r.key.length + r.value.length ≤ maxRwCount) →
        ∀ n, ∀ p ∈ ((items.map Item.key).zip (Item.index n items)).map fun p =>
          (p.1, Index.setFileaddr p.2 fi (u32 (off + p.2.fileOffset))),
        (indexRecord p.1 p.2).Fits := by
      intro items
      induction items with
      | nil =>
        intro _ n p hp
        cases hp
      | cons r items ih =>
        intro hsize n p hp
        have hr := hsize r List.mem_cons_self
        rcases List.mem_cons.mp hp with rfl | hp
        · rw [DBImpl.ofFile_eq _ _ hr]
          exact fits_file fi (u32_lt _) hr
        · exact ih (fun x hx => hsize x (List.mem_cons_of_mem _ hx)) _ p hp
    exact hitems b.items (fun r hr => b.item_whole hr) 0

theorem start_sound (sync : Bool) : Writers.Sound [] (.start (.create sync)) where
  logs := DBImpl.create_logs sync
  pos := Nat.one_pos
  data := by
    intro i hi
    have hi : i = 0 := by simpa [Writers.start, DBImpl.create] using hi
    exact ⟨.new [], if_pos hi⟩
  fits := by simp [Writers.start]

/-- Replacing a data file keeps the others. -/
theorem DBImpl.setDataFile_data (h : ∀ i < db.fileNum, ∃ f, db.dataFiles i = some f) (fi : Nat)
    (g : File) : ∀ i < db.fileNum, ∃ f, (db.setDataFile fi g).dataFiles i = some f := by
  intro i hi
  by_cases hfi : i = fi
  · subst hfi
    exact ⟨g, Function.update_self ..⟩
  · obtain ⟨f, hf⟩ := h i hi
    exact ⟨f, (Function.update_of_ne hfi ..).trans hf⟩

theorem DBImpl.newSegment_data (h : ∀ i < db.fileNum, ∃ f, db.dataFiles i = some f) :
    ∀ i < db.newSegment.fileNum, ∃ f, db.newSegment.dataFiles i = some f := by
  intro i hi
  by_cases hnew : i = db.fileNum
  · subst hnew
    exact ⟨.new [], Function.update_self ..⟩
  · have hi : i < db.fileNum + 1 := hi
    obtain ⟨f, hf⟩ := h i (by omega)
    exact ⟨f, (Function.update_of_ne hnew ..).trans hf⟩

theorem DBImpl.Logs.keep (h : db.Logs l) (hindex : db'.indexFiles = db.indexFiles) :
    db'.Logs (l ++ []) := by
  rw [List.append_nil]
  exact h.congr hindex

/-- One step of a call. -/
theorem Moves.sound {m : Mutation} {lock lock' : Bool} {pc' : WriterPc}
    (hmove : Moves m db lock pc pc' db' lock') (hlogs : db.Logs l) (hpos : 0 < db.fileNum)
    (hdata : ∀ i < db.fileNum, ∃ f, db.dataFiles i = some f) (hfits : pc.Fits) :
    pc'.Fits ∧ 0 < db'.fileNum ∧ (∀ i < db'.fileNum, ∃ f, db'.dataFiles i = some f) ∧
      db'.Logs (l ++ pc.pending.toList) := by
  cases hmove with
  | absent | found | acquire | choose | refused | retry | tryLock | finish =>
    exact ⟨by trivial, hpos, hdata, hlogs.keep rfl⟩
  | reserve hf hroom =>
    refine ⟨?_, hpos, DBImpl.setDataFile_data hdata _ _, hlogs.keep rfl⟩
    rw [segmentSize] at hroom
    show _ < 2 ^ 32
    omega
  | pwrite hf =>
    exact ⟨hfits, hpos, DBImpl.setDataFile_data hdata _ _, hlogs.keep rfl⟩
  | sync hf =>
    exact ⟨m.entries_fits hfits, hpos, DBImpl.setDataFile_data hdata _ _, hlogs.keep rfl⟩
  | create =>
    exact ⟨trivial, Nat.succ_pos _, DBImpl.newSegment_data hdata, hlogs.keep rfl⟩
  | insert =>
    exact ⟨⟨hfits _ List.mem_cons_self, fun p hp => hfits p (List.mem_cons_of_mem _ hp)⟩, hpos,
      hdata, hlogs.keep rfl⟩
  | log hf => exact ⟨hfits.2, hpos, hdata, (hlogs.insert hf hfits.1).congr rfl⟩
  | erase =>
    exact ⟨trivial, hpos, hdata, hlogs.keep rfl⟩

/-- One step. -/
theorem Writers.Sound.step {s' : Writers} {label : WriterLabel} (h : s.Sound l)
    (hstep : s.step label = some s') : s'.Sound (l ++ (loggedBy (s, label)).toList) := by
  cases label with
  | call m =>
    cases hstep
    refine ⟨h.logs.keep rfl, h.pos, h.data, ?_⟩
    intro c hc
    rcases List.mem_append.mp hc with hc | hc
    · exact h.fits c hc
    · cases List.mem_singleton.mp hc
      trivial
  | go i =>
    obtain ⟨m, pc, pc', hc, hmove, hcalls⟩ := Writers.step_go hstep
    obtain ⟨hfits, hpos, hdata, hlogs⟩ :=
      hmove.sound h.logs h.pos h.data (h.fits _ (List.mem_of_getElem? hc))
    rw [loggedBy, hc]
    refine ⟨hlogs, hpos, hdata, ?_⟩
    intro c hmem
    rw [hcalls] at hmem
    rcases mem_of_mem_set hmem with rfl | hmem
    · exact hfits
    · exact h.fits c hmem

/-- The invariant of concurrent calls. -/
theorem writers_sound {sync : Bool} {tr : List (Writers × WriterLabel)}
    (hrun : (writers sync).Run (.start (.create sync)) tr s) : s.Sound (logged tr) := by
  induction hrun with
  | nil => exact start_sound sync
  | snoc _ hstep ih =>
    rw [logged_snoc]
    exact ih.step hstep

end LogDirect.BitCask
