import LogDirect.BitCask.Reopen

/-!
# BitCask: what a restart keeps

Close and `DB::Open` after a sequential history. The entry recovery makes of a
record has the right sizes and the right file address, but its `flag_` says
"memory" (`run_entries`), so no `Get` finds a value again. Which keys are present
is decided by the values: `Delete` logs nothing, and recovery takes an empty value
for a deletion.
-/

namespace LogDirect.BitCask

open Lib

/-! ## The history -/

/-- What a call does to the map, in order. -/
def Op.muts : Op → List (Bytes × Option Bytes)
  | .put r => [(r.key, some r.value)]
  | .putBatch b => b.items.map fun r => (r.key, some r.value)
  | .get _ _ => []
  | .delete key => [(key, none)]

/-- What a history does to the map, in order. -/
def muts (ops : List Op) : List (Bytes × Option Bytes) := ops.flatMap Op.muts

theorem mapExec_muts (m : Bytes → Option Bytes) (op : Op) :
    (mapExec m op).2 = replay m op.muts := by
  cases op <;> rfl

theorem mapRun_muts (ops : List Op) : ∀ m, (mapRun ops m).2 = replay m (muts ops) := by
  induction ops with
  | nil =>
    intro m
    rfl
  | cons op ops ih =>
    intro m
    show (mapRun ops (mapExec m op).2).2 = _
    rw [ih, mapExec_muts, ← replay_append]
    rfl

theorem stores_muts (ops : List Op) : stores (muts ops) = puts ops := by
  unfold stores muts puts
  rw [List.filterMap_flatMap]
  congr 1
  funext op
  cases op <;> simp [Op.muts, Op.puts]

/-- The bytes pairs add to an index file. -/
def indexBytes (kvs : List (Bytes × Bytes)) (s : Nat) : Nat :=
  (((kvs.map Prod.fst).filter fun key => slot key = s).map fun key => key.length + 4 * 5).sum

/-- No index file of the history reaches 4 GiB. -/
def SmallIndex (ops : List Op) : Prop := ∀ s < maxIndexCount, indexBytes (puts ops) s < 2 ^ 32

instance (ops : List Op) : Decidable (SmallIndex ops) :=
  inferInstanceAs (Decidable (∀ s < maxIndexCount, indexBytes (puts ops) s < 2 ^ 32))

variable {l : List (Bytes × DBIndex)} {kvs : List (Bytes × Bytes)} {ops : List Op}
  {key value : Bytes}

theorem Sized.keys (h : Sized l kvs) : l.map Prod.fst = kvs.map Prod.fst := by
  have := congrArg (List.map Prod.fst) h
  simpa [List.map_map, Function.comp_def] using this

theorem Sized.lastOf (h : Sized l kvs) (key : Bytes) :
    (lastOf l key).map DBIndex.valueSize = (Lib.lastOf kvs key).map List.length := by
  rw [← lastOf_map, ← lastOf_map]
  exact congrArg (Lib.lastOf · key) h

/-- The size of an index file is a matter of the pairs stored. -/
theorem DBImpl.Logs.length {db : DBImpl} (h : db.Logs l) (hsized : Sized l kvs) {s : Nat} {f : File}
    (hs : s < maxIndexCount) (hf : db.indexFiles s = some f) :
    f.bytes.length = indexBytes kvs s := by
  obtain ⟨g, hg, hbytes⟩ := h.bytes hs
  rw [hf] at hg
  cases hg
  rw [hbytes, length_encodeAll (h.indexed.fits s), indexBytes, ← hsized.keys, slotRecords,
    List.filter_map, List.map_map, List.map_map]
  rfl

/-- A history of calls and what it leaves. -/
structure History (sync : Bool) (ops : List Op) (db : DBImpl) (l : List (Bytes × DBIndex)) :
    Prop where
  run : ∃ rets, (DBImpl.create sync).run ops = some (rets, db)
  represents : db.Represents (replay (fun _ => none) (muts ops))
  logs : db.Logs l
  sized : Sized l (puts ops)

/-- Every history runs to its end. -/
theorem history (sync : Bool) (ops : List Op) : ∃ db l, History sync ops db l := by
  obtain ⟨db, hrun, hrep⟩ := DBImpl.run_spec ops (DBImpl.create_represents sync)
  obtain ⟨l, hlogs, hsized⟩ := DBImpl.run_logs (DBImpl.create_logs sync) hrun
  rw [mapRun_muts] at hrep
  exact ⟨db, l, ⟨_, hrun⟩, hrep, hlogs, hsized⟩

/-! ## The keys -/

/-- The last record of a key decides its entry. -/
theorem lastOf_assignments (l : List (Bytes × DBIndex)) (key : Bytes) :
    lastOf ((slotRecords l (slot key)).map fun r => assignment r.stored) key =
      (lastOf l key).map fun idx => (assignment (indexRecord key idx).stored).2 := by
  induction l with
  | nil => rfl
  | cons p l ih =>
    obtain ⟨k, idx⟩ := p
    by_cases hslot : slot k = slot key
    · have hcons : slotRecords ((k, idx) :: l) (slot key) =
          indexRecord k idx :: slotRecords l (slot key) := by
        simp [slotRecords, hslot]
      rw [hcons]
      show (lastOf ((slotRecords l (slot key)).map fun r => assignment r.stored) key).or
        (if k = key then some (assignment (indexRecord k idx).stored).2 else none) = _
      rw [ih, lastOf]
      cases lastOf l key <;> by_cases hk : k = key <;> simp [hk]
    · have hskip : slotRecords ((k, idx) :: l) (slot key) = slotRecords l (slot key) := by
        simp [slotRecords, hslot]
      have hk : k ≠ key := by
        rintro rfl
        exact hslot rfl
      rw [hskip, ih, lastOf, if_neg hk, Option.or_none]

section Keys

variable {sync : Bool} {ops : List Op} {db db' : DBImpl} {l : List (Bytes × DBIndex)}

theorem History.small (h : History sync ops db l) (hsmall : SmallIndex ops) : db.Small := by
  intro s hs f hf
  rw [h.logs.length h.sized hs hf]
  exact hsmall s hs

theorem History.dataFiles (h : History sync ops db l) :
    ∀ i < db.fileNum, ∃ f, db.dataFiles i = some f := by
  intro i hi
  obtain ⟨f, hf, -⟩ := h.represents.files.data i hi
  exact ⟨f, hf⟩

theorem History.reopens_iff (h : History sync ops db l) (hsmall : SmallIndex ops) :
    db.Reopens db' ↔ db' = db.restored (slotRecords l) :=
  DBImpl.reopens_iff h.logs.indexed (h.small hsmall) h.dataFiles

/-- The keys of the database are those of the map. -/
theorem History.live (h : History sync ops db l) (key : Bytes) :
    (db.hashTable key).isSome = ((lastOf (muts ops) key).getD none).isSome := by
  have hm := replay_apply (fun _ => none) (muts ops) key
  cases hkey : db.hashTable key with
  | none =>
    rw [← hm, h.represents.absent key hkey]
    rfl
  | some idx =>
    obtain ⟨value, -, -, -, hvalue, -⟩ := h.represents.present key idx hkey
    rw [← hm, hvalue]
    rfl

/-- The keys of the reopened database are those last stored with a value that is not
empty. -/
theorem History.restored (h : History sync ops db l) (key : Bytes) :
    ((db.restored (slotRecords l)).hashTable key).isSome =
      ((lastOf (puts ops) key).map fun value => decide (value ≠ [])).getD false := by
  show (replay (fun _ => none) _ key).isSome = _
  rw [replay_apply, lastOf_assignments]
  have hsize := h.sized.lastOf key
  cases hl : lastOf l key with
  | none =>
    rw [hl] at hsize
    have hp : lastOf (puts ops) key = none := by simpa using hsize.symm
    simp [hp]
  | some idx =>
    rw [hl] at hsize
    obtain ⟨value, hvalue, hlen⟩ := Option.map_eq_some_iff.mp hsize.symm
    have hstored : (indexRecord key idx).stored.valueSize = value.length := hlen.symm
    rw [hvalue]
    by_cases hnil : value = []
    · simp [assignment, hstored, hnil]
    · have hpos : 0 < value.length := List.length_pos_iff.mpr hnil
      simp [assignment, hstored, hnil, hpos]

end Keys

/-- A `Put` of a one-byte key. -/
def putOne (value : Bytes) (h : value.length ≤ 1) : Op :=
  .put ⟨[1], value, whole_of_length_le (Nat.le_refl 1) h⟩

/-- A `Put` or `PutBatch` of values that are not empty. -/
def Op.PutsValues : Op → Prop
  | .put r => r.value ≠ []
  | .putBatch b => ∀ r ∈ b.items, r.value ≠ []
  | .get _ _ => False
  | .delete _ => False

/-- Every entry recovery makes says that its record is in memory. -/
theorem run_entries {stack : Mem} {entries : List Entry} {tr : List (Recovery × RecoverLabel)}
    {s : Recovery} (hrun : (recovery stack entries).Run (Recovery.start entries) tr s) :
    ∀ key idx, s.hashTable key = some idx → (∃ a, idx.addr = .mem a) ∧ 0 < idx.valueSize := by
  induction hrun with
  | nil =>
    intro key idx h
    cases h
  | @snoc tr s l s' _ hstep ih =>
    intro key idx hkey
    cases l with
    | walk =>
      have hstep : s.step stack .walk = some s' := hstep
      obtain ⟨e, todo, -, rfl⟩ := Recovery.step_walk hstep
      cases e <;> exact ih key idx hkey
    | scan i =>
      have hstep : s.step stack (.scan i) = some s' := hstep
      obtain ⟨t, pos, r, -, -, -, rfl⟩ := Recovery.step_scan hstep
      cases r with
      | none => exact ih key idx hkey
      | some r =>
        have hkey : Function.update s.hashTable r.key (assignment r).2 key = some idx := hkey
        by_cases hk : key = r.key
        · subst hk
          rw [Function.update_self, assignment] at hkey
          simp only at hkey
          split at hkey
          · rename_i hpos
            cases hkey
            exact ⟨⟨_, rfl⟩, hpos⟩
          · cases hkey
        · rw [Function.update_of_ne hk] at hkey
          exact ih key idx hkey

/-- A copy out of memory that is not mapped faults. -/
theorem copy_unmapped {p : Process} (hp : ∀ a, p.heap a = none) (addr : Nat) {n : Nat}
    (hn : 0 < n) : p.copy addr n = none := by
  obtain ⟨m, rfl⟩ : ∃ m, n = m + 1 := ⟨n - 1, by omega⟩
  rw [Process.copy, List.range_succ_eq_map, List.mapM_cons, hp]
  rfl

/-- What an entry that says "memory" gives is up to the memory. -/
theorem get_memory {db : DBImpl}
    (hmem : ∀ idx, db.hashTable key = some idx → (∃ a, idx.addr = .mem a) ∧ 0 < idx.valueSize)
    (hvalue : value ≠ []) : ∃ p, db.get p key ≠ some (some value) := by
  obtain ⟨b, bs, rfl⟩ := List.exists_cons_of_ne_nil hvalue
  obtain ⟨c, hc⟩ : ∃ c : UInt8, c ≠ b := by
    by_cases hb : b = 0
    · exact ⟨1, by simp [hb]⟩
    · exact ⟨0, fun h => hb h.symm⟩
  -- a stack that does not begin with the value, and nothing mapped
  obtain ⟨p, hstack, hheap⟩ : ∃ p : Process, (∀ a, p.stack a = c) ∧ ∀ a, p.heap a = none :=
    ⟨⟨fun _ => c, fun _ => none⟩, fun _ => rfl, fun _ => rfl⟩
  refine ⟨p, ?_⟩
  unfold DBImpl.get DBImpl.find
  cases hkey : db.hashTable key with
  | none => simp [Index.differs, Index.default, notFound]
  | some idx =>
    obtain ⟨⟨a, ha⟩, hpos⟩ := hmem idx hkey
    have hflag : Index.flag idx = 0 := by
      rw [Index.flag, ha]
    simp only [Option.getD_some, hflag, if_true]
    split
    · by_cases hsize : 0 < Index.dataSize idx
      · rw [copy_unmapped hheap _ hsize]
        simp
      · have hzero : Index.dataSize idx = 0 := by omega
        obtain ⟨n, hn⟩ : ∃ n, idx.valueSize = n + 1 := ⟨idx.valueSize - 1, by omega⟩
        have hread : decodeData (p.stack.write 0 []) idx.keySize idx.valueSize =
            c :: p.stack.read (idx.keySize + 1) n := by
          rw [decodeData, hn, Nat.add_comm n 1, Mem.read_add]
          simp [Mem.read, Mem.write, hstack]
        rw [hzero]
        show some (some (decodeData (p.stack.write 0 []) idx.keySize idx.valueSize)) ≠ _
        rw [hread]
        simp [hc]
    · simp

/-- After the history the database reopens, and every `Get` returns what it did. -/
def KeepsValues (sync : Bool) (ops : List Op) : Prop :=
  ∃ rets db, (DBImpl.create sync).run ops = some (rets, db) ∧ (∃ db', db.Reopens db') ∧
    ∀ db', db.Reopens db' → ∀ p p' key, db'.get p' key = db.get p key

/-- Histories of `Put` and `PutBatch` store and erase nothing else. -/
theorem muts_of_putsValues (hops : ∀ op ∈ ops, op.PutsValues) :
    muts ops = (puts ops).map fun p => (p.1, some p.2) := by
  induction ops with
  | nil => rfl
  | cons op ops ih =>
    have ih := ih fun o ho => hops o (List.mem_cons_of_mem _ ho)
    have hop : op.muts = op.puts.map fun p => (p.1, some p.2) := by
      cases op with
      | put r => rfl
      | putBatch b => simp [Op.muts, Op.puts]
      | get p key => rfl
      | delete key => exact absurd (hops _ List.mem_cons_self) id
    simp only [muts, puts, List.flatMap_cons, List.map_append] at ih ⊢
    rw [ih, hop]

theorem value_of_putsValues (hops : ∀ op ∈ ops, op.PutsValues) (h : (key, value) ∈ puts ops) :
    value ≠ [] := by
  obtain ⟨op, hop, hmem⟩ := List.mem_flatMap.mp h
  have hvalues := hops op hop
  cases op with
  | put r =>
    rw [(Prod.mk.inj (List.mem_singleton.mp hmem)).2]
    exact hvalues
  | putBatch b =>
    obtain ⟨r, hr, heq⟩ := List.mem_map.mp hmem
    rw [← (Prod.mk.inj heq).2]
    exact hvalues r hr
  | get p key => cases hmem
  | delete key => cases hmem

/-- Of the histories of `Put` and `PutBatch` with values that are not empty, a restart
keeps the values exactly of those that store nothing. -/
theorem keepsValues_iff (sync : Bool) (hops : ∀ op ∈ ops, op.PutsValues) :
    KeepsValues sync ops ↔ puts ops = [] := by
  obtain ⟨db, l, h⟩ := history sync ops
  obtain ⟨rets, hrun⟩ := h.run
  constructor
  · rintro ⟨rets', db₁, hrun', ⟨db', hdb'⟩, hsame⟩
    rw [hrun] at hrun'
    cases hrun'
    by_contra hne
    obtain ⟨⟨key, v⟩, rest, hputs⟩ := List.exists_cons_of_ne_nil hne
    -- the key has a value before the restart
    obtain ⟨value, hlast⟩ : ∃ value, lastOf (puts ops) key = some value := by
      apply Option.isSome_iff_exists.mp
      rw [lastOf_isSome, hputs]
      simp
    have hget : ∀ p, db.get p key = some (some value) := by
      intro p
      rw [DBImpl.get_spec h.represents, replay_apply, muts_of_putsValues hops, lastOf_map, hlast]
      rfl
    -- and some memory in which it has another one after it
    obtain ⟨stack, entries, tr, s, -, hrec, -, hs⟩ := id hdb'
    have hmem : ∀ idx, db'.hashTable key = some idx →
        (∃ a, idx.addr = .mem a) ∧ 0 < idx.valueSize := by
      rw [hs]
      exact run_entries hrec key
    obtain ⟨p, hp⟩ := get_memory hmem (value_of_putsValues hops (mem_of_lastOf hlast))
    exact hp ((hsame _ hdb' p p key).trans (hget p))
  · intro hnil
    have hsmall : SmallIndex ops := by
      intro s _
      rw [hnil]
      show 0 < 2 ^ 32
      norm_num
    have hmuts : muts ops = [] := by
      rw [muts_of_putsValues hops, hnil]
      rfl
    refine ⟨rets, db, hrun, ⟨_, (h.reopens_iff hsmall).mpr rfl⟩, ?_⟩
    intro db' hdb' p p' key
    have hlive : db.hashTable key = none := by
      have := h.live key
      rw [hmuts] at this
      simpa [lastOf] using this
    have hrestored : (db.restored (slotRecords l)).hashTable key = none := by
      have := h.restored key
      rw [hnil] at this
      simpa [lastOf] using this
    rw [(h.reopens_iff hsmall).mp hdb', DBImpl.get_absent hlive, DBImpl.get_absent hrestored]

theorem keepsValues_iff_one : (∀ op ∈ [putOne [1] (by decide)], op.PutsValues) ∧
    ¬ KeepsValues false [putOne [1] (by decide)] := by
  have hops : ∀ op ∈ [putOne [1] (by decide)], op.PutsValues := by simp [putOne, Op.PutsValues]
  refine ⟨hops, fun h => ?_⟩
  exact absurd ((keepsValues_iff false hops).mp h) (by decide)

/-- The first record of the first file. -/
theorem putOne_history :
    ∃ db, History false [putOne [1] (by decide)] db [([1], ⟨.file 0 0, 1, 1⟩)] := by
  obtain ⟨db, hrun, hrep⟩ :=
    DBImpl.run_spec [putOne [1] (by decide)] (DBImpl.create_represents false)
  have hlogs : ((DBImpl.create false).setDataFile 0 ⟨[], [[1, 1]], 2, 0⟩).Logs [] :=
    (DBImpl.create_logs false).congr rfl
  have hfits : (indexRecord [1] ⟨.file 0 0, 1, 1⟩).Fits := ⟨rfl, by decide, by decide, by decide⟩
  have hdb : (DBImpl.create false).run [putOne [1] (by decide)] = some ([.stored true], _) := rfl
  have hlogs := hlogs.insert rfl hfits
  rw [mapRun_muts] at hrep
  refine ⟨db, ⟨_, hrun⟩, hrep, ?_, rfl⟩
  cases hdb.symm.trans hrun
  exact hlogs

/-- One `Put`: the value is found before the restart, and the key is reported absent
after it, since its file address, taken for a pointer, is null. -/
theorem restart_loses_value : ∃ db, (DBImpl.create false).run [putOne [1] (by decide)] =
    some ([.stored true], db) ∧ (∀ p, db.get p [1] = some (some [1])) ∧ (∃ db', db.Reopens db') ∧
      ∀ db', db.Reopens db' → ∀ p, db'.get p [1] = some none := by
  obtain ⟨db, h⟩ := putOne_history
  obtain ⟨rets, hrun⟩ := h.run
  have hsmall : SmallIndex [putOne [1] (by decide)] := by decide
  refine ⟨db, ?_, ?_, ⟨_, (h.reopens_iff hsmall).mpr rfl⟩, ?_⟩
  · cases hrun
    rfl
  · intro p
    rw [DBImpl.get_spec h.represents]
    rfl
  · intro db' hdb' p
    rw [(h.reopens_iff hsmall).mp hdb']
    have hentry : (db.restored (slotRecords [([1], ⟨.file 0 0, 1, 1⟩)])).hashTable [1] =
        some ⟨.mem 0, 1, 1⟩ := by
      show replayed (slotRecords [([1], ⟨.file 0 0, 1, 1⟩)] (slot [1])) [1] = _
      decide
    rw [DBImpl.get, DBImpl.find, hentry]
    rfl

end LogDirect.BitCask
