import LogDirect.BitCask.Restart
import LogDirect.Store.Cuckoo

/-!
# What the log of CuckooDB says

Two kinds of records go to `log.db`: `Put` writes the two sizes as words of four bytes,
`PutBatch` writes `struct Request`, whose first word has the operation in one byte and
the size of the key in the other three. Nothing tells the kinds apart, and `Delete`
writes nothing.

A history that has stored anything therefore leaves a log from which its pairs cannot be
told (`log_determines_iff`, first part). A reader who knows of which kind each record is
finds the pairs in the order in which they were stored (`stores_eq_of_log`), and only the
deletions are left open (second part).
-/

namespace LogDirect.Store

open Lib BitCask

/-! ## Records -/

/-- What a call writes to the log, record by record. -/
inductive LogRecord
  | put (key val : Bytes)
  | request (r : Item)

namespace LogRecord

def encode : LogRecord → Bytes
  | put key val => LogFileDB.record key val
  | request r => r.encode

/-- The pair the record stores. -/
def pair : LogRecord → Bytes × Bytes
  | put key val => (key, val)
  | request r => (r.key, r.value)

/-- The record was written by `PutBatch`. -/
def batched : LogRecord → Bool
  | put _ _ => false
  | request _ => true

/-- The sizes fit the words of the header. -/
def Sized : LogRecord → Prop
  | put key val => key.length < 256 ^ 4 ∧ val.length < 256 ^ 4
  | request r => r.key.length < 256 ^ 3 ∧ r.value.length < 256 ^ 4

theorem length_encode (r : LogRecord) :
    r.encode.length = 8 + r.pair.1.length + r.pair.2.length := by
  cases r with
  | put key val =>
    simp only [encode, pair, LogFileDB.record, List.length_append, length_leBytes]
  | request r => exact Item.length_encode r

theorem encode_ne_nil (r : LogRecord) : r.encode ≠ [] := by
  intro h
  have := congrArg List.length h
  rw [length_encode, List.length_nil] at this
  omega

/-- Words tell the numbers they hold. -/
theorem leBytes_inj {n a b : Nat} (ha : a < 256 ^ n) (hb : b < 256 ^ n)
    (h : leBytes n a = leBytes n b) : a = b := by
  rw [← leNat_leBytes_of_lt ha, h, leNat_leBytes_of_lt hb]

/-- A key and a value behind their sizes. -/
theorem sized_inj {n : Nat} {key val key' val' x y : Bytes} (hkey : key.length < 256 ^ n)
    (hval : val.length < 256 ^ 4) (hkey' : key'.length < 256 ^ n) (hval' : val'.length < 256 ^ 4)
    (h : leBytes n key.length ++ (leBytes 4 val.length ++ (key ++ (val ++ x))) =
      leBytes n key'.length ++ (leBytes 4 val'.length ++ (key' ++ (val' ++ y)))) :
    key = key' ∧ val = val' ∧ x = y := by
  obtain ⟨hk, h⟩ := List.append_inj h (by simp)
  obtain ⟨hv, h⟩ := List.append_inj h (by simp)
  obtain ⟨hk, h⟩ := List.append_inj h (leBytes_inj hkey hkey' hk)
  obtain ⟨hv, h⟩ := List.append_inj h (leBytes_inj hval hval' hv)
  exact ⟨hk, hv, h⟩

/-- A record whose kind is known tells where it ends. -/
theorem encode_inj {r r' : LogRecord} {x y : Bytes} (hr : r.Sized) (hr' : r'.Sized)
    (hkind : r.batched = r'.batched) (h : r.encode ++ x = r'.encode ++ y) :
    r.pair = r'.pair ∧ x = y := by
  cases r with
  | put key val =>
    cases r' with
    | put key' val' =>
      simp only [encode, LogFileDB.record, List.append_assoc] at h
      obtain ⟨rfl, rfl, rfl⟩ := sized_inj hr.1 hr.2 hr'.1 hr'.2 h
      exact ⟨rfl, rfl⟩
    | request r' => cases hkind
  | request r =>
    cases r' with
    | put key' val' => cases hkind
    | request r' =>
      simp only [encode, Item.encode, Request.header, List.append_assoc] at h
      obtain ⟨-, h⟩ := List.append_inj h (by simp)
      obtain ⟨hkey, hval, rfl⟩ := sized_inj hr.1 hr.2 hr'.1 hr'.2 h
      exact ⟨Prod.ext hkey hval, rfl⟩

end LogRecord

/-! ## Histories -/

/-- What a call writes. -/
def Call.records : Call → List LogRecord
  | .put r => [.put r.key r.value]
  | .update r => [.put r.key r.value]
  | .get _ _ => []
  | .delete _ => []
  | .putBatch b => b.items.map .request

/-- What a history writes. -/
def records (calls : List Call) : List LogRecord := calls.flatMap Call.records

/-- What a history does to the pairs. -/
def mutations (calls : List Call) : List (Bytes × Option Bytes) := muts (calls.map Call.op)

/-- The history runs from a new store to `s`. -/
def Reaches (calls : List Call) (s : CuckooDB) : Prop :=
  ∃ rets, Lib.history CuckooDB.exec calls .create = some (rets, s)

theorem LogRecord.pair_request (items : List Item) :
    (items.map LogRecord.request).map LogRecord.pair = items.map fun r => (r.key, r.value) := by
  rw [List.map_map]
  rfl

/-- The pairs of the records are the pairs that are stored. -/
theorem pairs_records (calls : List Call) :
    (records calls).map LogRecord.pair = stores (mutations calls) := by
  unfold mutations records
  rw [stores_muts, puts, List.map_flatMap, List.flatMap_map]
  congr 1
  funext c
  cases c with
  | putBatch b => exact LogRecord.pair_request b.items
  | _ => rfl

/-- The records of `Put` and `Update` fit the buffer. -/
def Buffered (rs : List LogRecord) : Prop :=
  ∀ key val, .put key val ∈ rs → 8 + key.length + val.length ≤ LogFileDB.bufferSize

theorem buffered_append {rs rs' : List LogRecord} :
    Buffered (rs ++ rs') ↔ Buffered rs ∧ Buffered rs' := by
  constructor
  · intro h
    exact ⟨fun k v hm => h k v (List.mem_append_left _ hm),
      fun k v hm => h k v (List.mem_append_right _ hm)⟩
  · rintro ⟨h, h'⟩ k v hm
    rcases List.mem_append.mp hm with hm | hm
    · exact h k v hm
    · exact h' k v hm

theorem buffered_put {key val : Bytes} :
    Buffered [.put key val] ↔ 8 + key.length + val.length ≤ LogFileDB.bufferSize := by
  constructor
  · intro h
    exact h key val List.mem_cons_self
  · intro h k v hm
    cases List.mem_singleton.mp hm
    exact h

theorem buffered_nil : Buffered [] := by
  intro k v hm
  cases hm

theorem buffered_request (items : List Item) : Buffered (items.map .request) := by
  intro k v hm
  obtain ⟨r, -, hr⟩ := List.mem_map.mp hm
  cases hr

/-- The store after the mutations, with the records at the end of the log. -/
def CuckooDB.after (s : CuckooDB) (ms : List (Bytes × Option Bytes)) (rs : List LogRecord) :
    CuckooDB := ⟨replay s.db ms, ⟨s.log.file ++ rs.flatMap LogRecord.encode⟩⟩

theorem CuckooDB.after_after (s : CuckooDB) (ms ms' : List (Bytes × Option Bytes))
    (rs rs' : List LogRecord) :
    (s.after ms rs).after ms' rs' = s.after (ms ++ ms') (rs ++ rs') := by
  simp only [after, replay_append, List.flatMap_append, List.append_assoc]

theorem CuckooDB.after_nil (s : CuckooDB) : s.after [] [] = s := by
  simp [after, replay]

/-- One call: it faults on a record that does not fit the buffer, and on nothing else. -/
theorem put_after (s : CuckooDB) {key val : Bytes} (h : Buffered [.put key val]) :
    s.put key val = some (true, s.after [(key, some val)] [.put key val]) := by
  rw [s.put_of_fits (buffered_put.mp h)]
  simp only [CuckooDB.after, CuckooDB.stored, List.flatMap_cons, List.flatMap_nil, List.append_nil]
  rfl

theorem exec_after (s : CuckooDB) (c : Call) :
    (Buffered c.records → ∃ ret, s.exec c = some (ret, s.after c.op.muts c.records)) ∧
      (¬ Buffered c.records → s.exec c = none) := by
  cases c with
  | put r =>
    refine ⟨fun h => ⟨.stored true, ?_⟩, fun h => ?_⟩
    · rw [CuckooDB.exec, put_after s h]
      rfl
    · rw [CuckooDB.exec, s.put_of_overrun (mt buffered_put.mpr h)]
      rfl
  | update r =>
    refine ⟨fun h => ⟨.stored true, ?_⟩, fun h => ?_⟩
    · rw [CuckooDB.exec, CuckooDB.update, put_after s h]
      rfl
    · rw [CuckooDB.exec, CuckooDB.update, s.put_of_overrun (mt buffered_put.mpr h)]
      rfl
  | get p key =>
    refine ⟨fun _ => ⟨.value (some ((s.db key).getD [])), ?_⟩, fun h => absurd buffered_nil h⟩
    exact (congrArg (fun x => some (BitCask.Ret.value (some ((s.db key).getD [])), x))
      s.after_nil).symm
  | delete key =>
    refine ⟨fun _ => ⟨.deleted true, ?_⟩, fun h => absurd buffered_nil h⟩
    show some (_, CuckooDB.mk _ s.log) = some (_, CuckooDB.mk _ ⟨s.log.file ++ []⟩)
    rw [List.append_nil]
    rfl
  | putBatch b =>
    refine ⟨fun _ => ⟨.stored true, ?_⟩, fun h => absurd (buffered_request b.items) h⟩
    have hbytes : (b.items.map LogRecord.request).flatMap LogRecord.encode =
        Item.bytes b.items := by
      rw [List.flatMap_map]
      rfl
    show some (_, CuckooDB.mk (s.db.putBatch _ _ _) ⟨s.log.file ++ Item.bytes b.items⟩) =
      some (_, CuckooDB.mk _ ⟨s.log.file ++
        (b.items.map LogRecord.request).flatMap LogRecord.encode⟩)
    rw [putBatch_items, hbytes]
    rfl

/-- A history from any store. -/
theorem history_after (calls : List Call) : ∀ s : CuckooDB,
    (Buffered (records calls) → ∃ rets, Lib.history CuckooDB.exec calls s =
      some (rets, s.after (mutations calls) (records calls))) ∧
    (¬ Buffered (records calls) → Lib.history CuckooDB.exec calls s = none) := by
  induction calls with
  | nil =>
    intro s
    refine ⟨fun _ => ⟨[], ?_⟩, fun h => absurd buffered_nil h⟩
    exact (congrArg (fun x => some ([], x)) s.after_nil).symm
  | cons c calls ih =>
    intro s
    have hrecords : records (c :: calls) = c.records ++ records calls := rfl
    have hmuts : mutations (c :: calls) = c.op.muts ++ mutations calls := rfl
    rw [hrecords, hmuts, buffered_append]
    by_cases hc : Buffered c.records
    · obtain ⟨ret, hret⟩ := (exec_after s c).1 hc
      rw [Lib.history, hret, Option.bind_some]
      obtain ⟨hsome, hnone⟩ := ih (s.after c.op.muts c.records)
      refine ⟨fun h => ?_, fun h => ?_⟩
      · obtain ⟨rets, hrets⟩ := hsome h.2
        rw [hrets, CuckooDB.after_after]
        exact ⟨ret :: rets, rfl⟩
      · rw [hnone fun hcalls => h ⟨hc, hcalls⟩]
        rfl
    · refine ⟨fun h => absurd h.1 hc, fun _ => ?_⟩
      rw [Lib.history, (exec_after s c).2 hc]
      rfl

variable {calls : List Call} {s : CuckooDB}

/-- What a history leads to. -/
theorem reaches_iff :
    Reaches calls s ↔ Buffered (records calls) ∧
      s = CuckooDB.create.after (mutations calls) (records calls) := by
  obtain ⟨hsome, hnone⟩ := history_after calls .create
  constructor
  · rintro ⟨rets, hrun⟩
    have hbuf : Buffered (records calls) := by
      by_contra h
      rw [hnone h] at hrun
      cases hrun
    obtain ⟨rets', hrun'⟩ := hsome hbuf
    rw [hrun] at hrun'
    cases hrun'
    exact ⟨hbuf, rfl⟩
  · rintro ⟨hbuf, rfl⟩
    exact hsome hbuf

theorem Reaches.db (h : Reaches calls s) (key : Bytes) :
    s.db key = (lastOf (mutations calls) key).getD none := by
  obtain ⟨-, rfl⟩ := reaches_iff.mp h
  exact replay_apply _ _ _

theorem Reaches.log (h : Reaches calls s) :
    s.log.file = (records calls).flatMap LogRecord.encode := by
  obtain ⟨-, rfl⟩ := reaches_iff.mp h
  rfl

/-- A key that was never stored is not there; one that was has its last value, or has been
deleted since. -/
theorem Reaches.cases (h : Reaches calls s) (key : Bytes) :
    (lastOf (stores (mutations calls)) key = none ∧ s.db key = none) ∨
    ∃ v, lastOf (stores (mutations calls)) key = some v ∧
      (lastOf (mutations calls) key = some none ∧ s.db key = none ∨
        lastOf (mutations calls) key = some (some v) ∧ s.db key = some v) := by
  cases hst : lastOf (stores (mutations calls)) key with
  | none => exact .inl ⟨rfl, (h.db key).trans (lastOf_stores_none hst)⟩
  | some v =>
    refine .inr ⟨v, rfl, ?_⟩
    rcases lastOf_stores_some hst with hlast | hlast
    · exact .inl ⟨hlast, by rw [h.db, hlast]; rfl⟩
    · exact .inr ⟨hlast, by rw [h.db, hlast]; rfl⟩

/-! ## One history -/

/-- Every history with the same log has the same pairs. -/
def Determines (s : CuckooDB) : Prop :=
  ∀ calls s', Reaches calls s' → s'.log = s.log → s'.db = s.db

theorem records_eq_nil (h : Reaches calls s) (hlog : s.log.file = []) : records calls = [] := by
  rw [h.log, List.flatMap_eq_nil_iff] at hlog
  rw [List.eq_nil_iff_forall_not_mem]
  intro r hr
  exact r.encode_ne_nil (hlog r hr)

/-- The call stores nothing: it is neither a `Put` nor an `Update`, and a batch is empty. -/
def Call.silent : Call → Bool
  | .put _ => false
  | .update _ => false
  | .putBatch b => b.items.isEmpty
  | .get _ _ => true
  | .delete _ => true

theorem Call.records_eq_nil_iff (c : Call) : c.records = [] ↔ c.silent = true := by
  cases c <;> simp [Call.records, Call.silent]

/-- The log is empty exactly if no call has stored anything. -/
theorem Reaches.log_eq_nil_iff (h : Reaches calls s) :
    s.log.file = [] ↔ ∀ c ∈ calls, c.silent = true := by
  constructor
  · intro hlog c hc
    exact c.records_eq_nil_iff.mp (List.flatMap_eq_nil_iff.mp (records_eq_nil h hlog) c hc)
  · intro hsilent
    have hnil : records calls = [] :=
      List.flatMap_eq_nil_iff.mpr fun c hc => c.records_eq_nil_iff.mpr (hsilent c hc)
    rw [h.log, hnil]
    rfl

/-- A history that has logged nothing has stored nothing. -/
theorem db_of_log_nil (h : Reaches calls s) (hlog : s.log.file = []) : s.db = fun _ => none := by
  have hstores : stores (mutations calls) = [] := by
    rw [← pairs_records, records_eq_nil h hlog]
    rfl
  funext key
  rcases h.cases key with ⟨-, hdb⟩ | ⟨v, hv, -⟩
  · exact hdb
  · rw [hstores] at hv
    cases hv

/-- The call is not a `Delete`. -/
def Call.keeps : Call → Bool
  | .delete _ => false
  | _ => true

/-- Leaving out the deletions does not show in the log. -/
theorem records_filter_keeps (calls : List Call) :
    records (calls.filter Call.keeps) = records calls := by
  induction calls with
  | nil => rfl
  | cons c calls ih =>
    cases c with
    | delete key => exact ih
    | _ => exact congrArg (_ ++ ·) ih

theorem not_deleted_of_keeps (calls : List Call) (key : Bytes) :
    (key, none) ∉ mutations (calls.filter Call.keeps) := by
  intro hmem
  obtain ⟨op, hop, hnone⟩ := List.mem_flatMap.mp hmem
  obtain ⟨c, hc, rfl⟩ := List.mem_map.mp hop
  have hkeeps := (List.mem_filter.mp hc).2
  cases c with
  | delete key => cases hkeeps
  | put r => simp [Call.op, Op.muts] at hnone
  | update r => simp [Call.op, Op.muts] at hnone
  | get p key => simp [Call.op, Op.muts] at hnone
  | putBatch b => simp [Call.op, Op.muts] at hnone

/-- A log that is not empty leaves the pairs open: the same history without its deletions
has the key that was stored first, with a deletion of that key at the end it has not. -/
theorem not_determines (h : Reaches calls s) (hlog : s.log.file ≠ []) : ¬ Determines s := by
  intro hdet
  obtain ⟨hbuf, rfl⟩ := reaches_iff.mp h
  obtain ⟨key, v, hkey⟩ : ∃ key v, lastOf (stores (mutations calls)) key = some v := by
    cases hrecords : records calls with
    | nil => exact absurd (h.log.trans (by rw [hrecords]; rfl)) hlog
    | cons r rs =>
      refine ⟨r.pair.1, Option.isSome_iff_exists.mp ?_⟩
      rw [lastOf_isSome, ← pairs_records, hrecords]
      simp
  -- without the deletions
  have hkept : Reaches (calls.filter Call.keeps)
      (CuckooDB.create.after (mutations (calls.filter Call.keeps)) (records calls)) := by
    rw [reaches_iff, records_filter_keeps]
    exact ⟨hbuf, rfl⟩
  have hthere := congrFun (hdet _ _ hkept rfl) key
  -- with one more
  have hgone : Reaches (calls ++ [.delete key])
      (CuckooDB.create.after (mutations calls ++ [(key, none)]) (records calls)) := by
    have hrecords : records (calls ++ [.delete key]) = records calls := by
      simp [records, Call.records]
    have hmuts : mutations (calls ++ [.delete key]) = mutations calls ++ [(key, none)] := by
      simp [mutations, muts, Call.op, Op.muts]
    rw [reaches_iff, hrecords, hmuts]
    exact ⟨hbuf, rfl⟩
  have habsent := congrFun (hdet _ _ hgone rfl) key
  have hnone : CuckooDB.db (CuckooDB.create.after (mutations calls ++ [(key, none)])
      (records calls)) key = none := by
    show replay _ (mutations calls ++ [(key, none)]) key = none
    rw [replay_snoc, Function.update_self]
  rw [hnone] at habsent
  rw [← habsent] at hthere
  rcases hkept.cases key with ⟨hst, -⟩ | ⟨w, -, ⟨hlast, -⟩ | ⟨-, hdb⟩⟩
  · rw [← pairs_records, records_filter_keeps, pairs_records, hkey] at hst
    cases hst
  · exact not_deleted_of_keeps calls key (mem_of_lastOf hlast)
  · rw [hdb] at hthere
    cases hthere

/-! ## Two histories -/

/-- The histories write records of the same kinds in the same order, as far as both go. -/
def SameKinds (calls calls' : List Call) : Prop :=
  Comparable ((records calls).map LogRecord.batched) ((records calls').map LogRecord.batched)

/-- The keys of batches fit the 24 bits of `key_size`. -/
def NarrowKeys (calls : List Call) : Prop :=
  ∀ r, .request r ∈ records calls → r.key.length < 256 ^ 3

/-- The key was stored, and has been deleted since. -/
def Erased (calls : List Call) (key : Bytes) : Prop :=
  (lastOf (stores (mutations calls)) key).isSome ∧ lastOf (mutations calls) key = some none

/-- A record of a batch is no longer than the batch. -/
theorem request_whole {r : Item} (h : .request r ∈ records calls) :
    r.key.length + r.value.length ≤ maxRwCount := by
  obtain ⟨c, -, hr⟩ := List.mem_flatMap.mp h
  cases c with
  | putBatch b =>
    obtain ⟨r', hr', heq⟩ := List.mem_map.mp hr
    cases heq
    exact b.item_whole hr'
  | put r' => simp [Call.records] at hr
  | update r' => simp [Call.records] at hr
  | get p key => cases hr
  | delete key => cases hr

theorem records_sized (h : Reaches calls s) (hnarrow : NarrowKeys calls) :
    ∀ r ∈ records calls, r.Sized := by
  intro r hr
  cases r with
  | put key val =>
    have hfits := (reaches_iff.mp h).1 key val hr
    rw [LogFileDB.bufferSize] at hfits
    show _ < 256 ^ 4 ∧ _ < 256 ^ 4
    omega
  | request r =>
    have hwhole := request_whole hr
    rw [maxRwCount] at hwhole
    refine ⟨hnarrow r hr, ?_⟩
    omega

/-- The pairs that were stored can be read off the log by one who knows the kinds. -/
theorem stores_eq_of_log {calls' : List Call} {s' : CuckooDB} (h : Reaches calls s)
    (h' : Reaches calls' s') (hkinds : SameKinds calls calls') (hnarrow : NarrowKeys calls)
    (hnarrow' : NarrowKeys calls') (hlog : s.log = s'.log) :
    stores (mutations calls) = stores (mutations calls') := by
  rw [← pairs_records, ← pairs_records]
  refine map_eq_of_flatMap_eq LogRecord.batched (fun r _ => r.encode_ne_nil)
    (fun _ _ _ _ hr hr' => LogRecord.encode_inj hr hr') _ _ (records_sized h hnarrow)
    (records_sized h' hnarrow') hkinds ?_
  rw [← h.log, ← h'.log, hlog]

/-- An erased key is one that is not there though it was stored. -/
theorem Reaches.erased_iff (h : Reaches calls s) (key : Bytes) :
    Erased calls key ↔ (lastOf (stores (mutations calls)) key).isSome ∧ s.db key = none := by
  unfold Erased
  rcases h.cases key with ⟨hst, -⟩ | ⟨v, -, ⟨hlast, hdb⟩ | ⟨hlast, hdb⟩⟩
  · rw [hst]
    simp
  · rw [hlast, hdb]
    simp
  · rw [hlast, hdb]
    simp

/-- Two histories that stored the same have the same pairs exactly if they erased the same. -/
theorem db_eq_iff_erased {calls' : List Call} {s' : CuckooDB} (h : Reaches calls s)
    (h' : Reaches calls' s') (hstores : stores (mutations calls) = stores (mutations calls')) :
    s.db = s'.db ↔ ∀ key, Erased calls key ↔ Erased calls' key := by
  constructor
  · intro hdb key
    rw [h.erased_iff, h'.erased_iff, hstores, hdb]
  · intro herased
    funext key
    have hiff := herased key
    rw [h.erased_iff, h'.erased_iff, hstores] at hiff
    rcases h.cases key with ⟨hst, hdb⟩ | ⟨v, hst, hv⟩
    · rcases h'.cases key with ⟨-, hdb'⟩ | ⟨v', hst', -⟩
      · rw [hdb, hdb']
      · rw [hstores, hst'] at hst
        cases hst
    · rcases h'.cases key with ⟨hst', -⟩ | ⟨v', hst', hv'⟩
      · rw [hstores, hst'] at hst
        cases hst
      · rw [hstores, hst'] at hst
        cases hst
        rw [hst'] at hiff
        rcases hv with ⟨-, hdb⟩ | ⟨-, hdb⟩ <;> rcases hv' with ⟨-, hdb'⟩ | ⟨-, hdb'⟩ <;>
          rw [hdb, hdb'] at hiff ⊢ <;> simp at hiff

/-- **What the log determines.** The log of a history determines its pairs exactly if there is
no `Put` and no `Update` in it and every batch is empty. Of two histories that write records
of the same kinds in the same order, with keys that fit their size fields, and that leave the same log, the pairs are the same exactly
if the same stored keys have been deleted since. -/
theorem log_determines_iff (h : Reaches calls s) :
    (Determines s ↔ ∀ c ∈ calls, c.silent = true) ∧
    ∀ calls' s', Reaches calls' s' → SameKinds calls calls' → NarrowKeys calls →
      NarrowKeys calls' → s.log = s'.log →
      (s.db = s'.db ↔ ∀ key, Erased calls key ↔ Erased calls' key) := by
  rw [← h.log_eq_nil_iff]
  refine ⟨⟨fun hdet => ?_, fun hlog => ?_⟩, ?_⟩
  · by_contra hlog
    exact not_determines h hlog hdet
  · intro calls' s' h' hlog'
    rw [db_of_log_nil h hlog, db_of_log_nil h' (by rw [hlog']; exact hlog)]
  · intro calls' s' h' hkinds hnarrow hnarrow' hlog
    exact db_eq_iff_erased h h' (stores_eq_of_log h h' hkinds hnarrow hnarrow' hlog)

theorem samplePair_whole : ([1] : Bytes).length + ([2] : Bytes).length ≤ maxRwCount := by decide

/-- A pair of one byte each. -/
def samplePair : Pair := ⟨[1], [2], samplePair_whole⟩

/-- A `Put` and an `Update` of one pair leave the same log and the same store. -/
theorem put_update_same_log :
    ∃ s s', Reaches [.put samplePair] s ∧ Reaches [.update samplePair] s' ∧
    s.log = s'.log ∧ s.log.file ≠ [] ∧ ¬ Determines s ∧ s.db = s'.db := by
  have hput : Reaches [.put samplePair] (CuckooDB.create.stored [1] [2]) := ⟨_, rfl⟩
  have hupdate : Reaches [.update samplePair] (CuckooDB.create.stored [1] [2]) := ⟨_, rfl⟩
  have hlog : (CuckooDB.create.stored [1] [2]).log.file ≠ [] := by decide
  have hnarrow : ∀ c : Call, c.records = [.put [1] [2]] → NarrowKeys [c] := by
    intro c hc r hr
    rw [records, List.flatMap_singleton, hc] at hr
    simp at hr
  obtain ⟨hdet, hpair⟩ := log_determines_iff hput
  have hloud : ¬ ∀ c ∈ [Call.put samplePair], c.silent = true := by decide
  refine ⟨_, _, hput, hupdate, rfl, hlog, mt hdet.mp hloud, ?_⟩
  refine (hpair _ _ hupdate (.inl (List.prefix_refl _)) (hnarrow _ rfl) (hnarrow _ rfl) rfl).mpr ?_
  exact fun _ => Iff.rfl

theorem hidingPair_whole : ([97, 98] : Bytes).length + ([0, 2] : Bytes).length ≤ maxRwCount := by
  decide

/-- A pair whose record begins like that of an update of the empty key. -/
def hidingPair : Pair := ⟨[97, 98], [0, 2], hidingPair_whole⟩

theorem emptyPair_whole : ([] : Bytes).length + ([] : Bytes).length ≤ maxRwCount := by decide

/-- The empty pair. -/
def emptyPair : Pair := ⟨[], [], emptyPair_whole⟩

/-- The requests the records of the two pairs read as. -/
def hiddenItems : List Item := [⟨.update, [], [97, 98]⟩, ⟨.put, [0, 0], []⟩]

theorem hiddenItems_whole : Item.total hiddenItems ≤ maxRwCount := by decide

/-- Two pairs of histories with equal logs and different stores: a `Put` with and without a
`Delete` behind it, and two `Put`s whose records read as a batch. -/
theorem equal_logs_differ :
    (∃ s s', Reaches [.put samplePair] s ∧ Reaches [.put samplePair, .delete [1]] s' ∧
      s.log = s'.log ∧ s.db ≠ s'.db) ∧
    ∃ s s', Reaches [.put hidingPair, .put emptyPair] s ∧
      Reaches [.putBatch ⟨hiddenItems, hiddenItems_whole⟩] s' ∧ s.log = s'.log ∧ s.db ≠ s'.db := by
  refine ⟨⟨_, _, ⟨_, rfl⟩, ⟨_, rfl⟩, rfl, ?_⟩, ⟨_, _, ⟨_, rfl⟩, ⟨_, rfl⟩, rfl, ?_⟩⟩
  · intro heq
    exact absurd (congrFun heq [1]) (by decide)
  · intro heq
    exact absurd (congrFun heq [97, 98]) (by decide)

end LogDirect.Store
