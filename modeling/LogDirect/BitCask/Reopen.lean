import LogDirect.BitCask.Scan
import Mathlib.Algebra.Order.BigOperators.Group.Finset

/-!
# BitCask: runs of recovery

What `Recover` makes of the directory of a closed database, whatever order
`readdir` lists it in and however the scans interleave. The invariant says how
far each scan has come: `done i` are the records of index file `i` that its
thread has applied. A key belongs to one index file, so the entry of a key is
decided by the progress of one thread (`Scanned.table`), and the interleaving of
the others does not matter.

All of it is for index files below 4 GiB (`Small`): `Env::NewFile` keeps the
size of a file in 32 bits.
-/

namespace LogDirect.BitCask

open Lib

/-! ## Listings -/

/-- The number of an index file. -/
def Entry.indexId : Entry → Option Nat
  | .index id _ => some id
  | _ => none

namespace DBImpl

/-- Every index file is below 4 GiB. -/
def Small (db : DBImpl) : Prop :=
  ∀ s < maxIndexCount, ∀ f, db.indexFiles s = some f → f.bytes.length < 2 ^ 32

variable {db : DBImpl}

theorem mem_close_index {i : Nat} {held : Bytes} :
    .index i held ∈ db.close ↔
      i < maxIndexCount ∧ ∃ f, db.indexFiles i = some f ∧ f.bytes = held := by
  simp [close]

theorem mem_close_data {i : Nat} {held : Bytes} :
    .data i held ∈ db.close ↔ i < db.fileNum ∧ ∃ f, db.dataFiles i = some f ∧ f.bytes = held := by
  simp [close]

theorem Lists.mem {entries : List Entry} (h : db.Lists entries) {e : Entry} (he : e ≠ .skipped) :
    e ∈ entries ↔ e ∈ db.close := by
  rw [← h.mem_iff, List.mem_filter]
  simp [he]

/-- No index file is listed twice. -/
theorem Lists.nodup {entries : List Entry} (h : db.Lists entries) :
    (entries.filterMap Entry.indexId).Nodup := by
  have hskip : entries.filterMap Entry.indexId =
      (entries.filter (· ≠ .skipped)).filterMap Entry.indexId := by
    rw [List.filterMap_filter]
    apply List.filterMap_congr
    intro e _
    cases e <;> simp [Entry.indexId]
  rw [hskip, (h.filterMap Entry.indexId).nodup_iff, close, List.filterMap_append,
    List.filterMap_filterMap, List.filterMap_filterMap]
  have hdata : ∀ i, ((db.dataFiles i).map fun f => Entry.data i f.bytes).bind Entry.indexId =
      none := by
    intro i
    cases db.dataFiles i <;> rfl
  simp only [hdata, List.filterMap_none, List.append_nil]
  apply List.nodup_range.filterMap
  intro i j b hi hj
  simp only [Option.mem_def, Option.bind_eq_some_iff, Option.map_eq_some_iff] at hi hj
  obtain ⟨e, ⟨f, -, rfl⟩, hi⟩ := hi
  obtain ⟨e', ⟨f', -, rfl⟩, hj⟩ := hj
  cases hi
  cases hj
  rfl

end DBImpl

/-- No two entries disagree on what a file holds. -/
structure Consistent (entries : List Entry) : Prop where
  data : ∀ {i : Nat} {held held' : Bytes}, Entry.data i held ∈ entries →
    Entry.data i held' ∈ entries → held = held'
  index : ∀ {i : Nat} {held held' : Bytes}, Entry.index i held ∈ entries →
    Entry.index i held' ∈ entries → held = held'

variable {pre : List Entry} {i : Nat} {e : Entry} {s : Recovery} {rs done : Nat → List IndexRecord}
  {t : Scan}

theorem Consistent.left {post : List Entry} (h : Consistent (pre ++ post)) : Consistent pre :=
  ⟨fun a b => h.data (List.mem_append_left _ a) (List.mem_append_left _ b),
    fun a b => h.index (List.mem_append_left _ a) (List.mem_append_left _ b)⟩

theorem DBImpl.Lists.consistent {db : DBImpl} {entries : List Entry} (h : db.Lists entries) :
    Consistent entries := by
  constructor
  · intro i held held' ha hb
    obtain ⟨-, f, hf, rfl⟩ := mem_close_data.mp ((h.mem (by simp)).mp ha)
    obtain ⟨-, f', hf', rfl⟩ := mem_close_data.mp ((h.mem (by simp)).mp hb)
    rw [hf] at hf'
    cases hf'
    rfl
  · intro i held held' ha hb
    obtain ⟨-, f, hf, rfl⟩ := mem_close_index.mp ((h.mem (by simp)).mp ha)
    obtain ⟨-, f', hf', rfl⟩ := mem_close_index.mp ((h.mem (by simp)).mp hb)
    rw [hf] at hf'
    cases hf'
    rfl

/-! ## What a step does -/

namespace Recovery

variable {stack : Mem} {s s' : Recovery}

theorem step_walk (h : s.step stack .walk = some s') :
    ∃ e todo, s.todo = e :: todo ∧ s' = visit { s with todo := todo } e := by
  simp only [step] at h
  split at h
  · cases h
  · rename_i e todo htodo
    cases h
    exact ⟨e, todo, htodo, rfl⟩

theorem step_scan {i : Nat} (h : s.step stack (.scan i) = some s') :
    ∃ t pos r, s.threads[i]? = some t ∧ t.pos < t.file.fileOffset ∧
      turn stack t.file t.pos = some (pos, r) ∧
      s' = { s with
        threads := s.threads.set i { t with pos := pos }, hashTable := s.hashTable.apply r } := by
  simp only [step] at h
  split at h
  · cases h
  · rename_i t ht
    split at h
    · rename_i hpos
      obtain ⟨⟨pos, r⟩, hturn, hs'⟩ := Option.map_eq_some_iff.mp h
      exact ⟨t, pos, r, ht, hpos, hturn, hs'.symm⟩
    · cases h

end Recovery

/-! ## The walk -/

/-- The files opened after the entries `pre`. -/
structure Walked (pre : List Entry) (s : Recovery) : Prop where
  data : ∀ i f, s.dataFiles i = some f ↔ ∃ held, .data i held ∈ pre ∧ f = .new held
  index : ∀ i f, s.indexFiles i = some f ↔ ∃ held, .index i held ∈ pre ∧ f = .new held
  above : ∀ i held, .data i held ∈ pre → i < s.fileNum
  last : s.fileNum = 0 ∨ ∃ held, .data (s.fileNum - 1) held ∈ pre

/-- Opening one more file of a table of files. -/
theorem update_new {g : Nat → Option File} {mk : Nat → Bytes → Entry} {held : Bytes}
    (hmk : ∀ {j b c}, mk j b = mk i c → j = i ∧ b = c)
    (hsame : ∀ held', mk i held' ∈ pre → held' = held)
    (h : ∀ j f, g j = some f ↔ ∃ b, mk j b ∈ pre ∧ f = .new b) (j : Nat) (f : File) :
    Function.update g i (some (.new held)) j = some f ↔
      ∃ b, mk j b ∈ pre ++ [mk i held] ∧ f = .new b := by
  by_cases hj : j = i
  · subst hj
    rw [Function.update_self]
    constructor
    · intro hf
      cases hf
      exact ⟨held, by simp, rfl⟩
    · rintro ⟨b, hb, rfl⟩
      rcases List.mem_append.mp hb with hb | hb
      · rw [hsame b hb]
      · rw [(hmk (List.mem_singleton.mp hb)).2]
  · rw [Function.update_of_ne hj, h]
    constructor
    · rintro ⟨b, hb, rfl⟩
      exact ⟨b, List.mem_append_left _ hb, rfl⟩
    · rintro ⟨b, hb, rfl⟩
      rcases List.mem_append.mp hb with hb | hb
      · exact ⟨b, hb, rfl⟩
      · exact absurd (hmk (List.mem_singleton.mp hb)).1 hj

/-- An entry that opens no file of a kind. -/
theorem keep_new {g : Nat → Option File} {mk : Nat → Bytes → Entry} (hmk : ∀ j b, mk j b ≠ e)
    (h : ∀ j f, g j = some f ↔ ∃ b, mk j b ∈ pre ∧ f = .new b) (j : Nat) (f : File) :
    g j = some f ↔ ∃ b, mk j b ∈ pre ++ [e] ∧ f = .new b := by
  simp only [h, List.mem_append, List.mem_singleton, hmk, or_false]

theorem start_walked (entries : List Entry) : Walked [] (Recovery.start entries) := by
  refine ⟨?_, ?_, ?_, .inl rfl⟩ <;> simp [Recovery.start]

/-- One entry more. -/
theorem Walked.visit (h : Walked pre s) (hc : Consistent (pre ++ [e])) :
    Walked (pre ++ [e]) (s.visit e) := by
  cases e with
  | skipped =>
    refine ⟨keep_new (by simp) h.data, keep_new (by simp) h.index, ?_, ?_⟩
    · intro i held hmem
      exact h.above i held (by simpa using hmem)
    · simpa [Recovery.visit] using h.last
  | index id held =>
    have hsame : ∀ held', .index id held' ∈ pre → held' = held := by
      intro held' hmem
      exact hc.index (List.mem_append_left _ hmem) (by simp)
    refine ⟨keep_new (by simp) h.data, update_new ?_ hsame h.index, ?_, ?_⟩
    · intro j b c heq
      exact ⟨Entry.index.inj heq |>.1, Entry.index.inj heq |>.2⟩
    · intro i held hmem
      exact h.above i held (by simpa using hmem)
    · simpa [Recovery.visit] using h.last
  | data id held =>
    have hsame : ∀ held', .data id held' ∈ pre → held' = held := by
      intro held' hmem
      exact hc.data (List.mem_append_left _ hmem) (by simp)
    refine ⟨update_new ?_ hsame h.data, keep_new (by simp) h.index, ?_, ?_⟩
    · intro j b c heq
      exact ⟨Entry.data.inj heq |>.1, Entry.data.inj heq |>.2⟩
    · intro i b hmem
      show i < if id + 1 > s.fileNum then id + 1 else s.fileNum
      rcases List.mem_append.mp hmem with hmem | hmem
      · have := h.above i b hmem
        split <;> omega
      · have := (Entry.data.inj (List.mem_singleton.mp hmem)).1
        split <;> omega
    · show (if id + 1 > s.fileNum then id + 1 else s.fileNum) = 0 ∨
        ∃ b, .data ((if id + 1 > s.fileNum then id + 1 else s.fileNum) - 1) b ∈ pre ++
          [.data id held]
      by_cases hmax : id + 1 > s.fileNum
      · rw [if_pos hmax]
        exact .inr ⟨held, by simp⟩
      · rw [if_neg hmax]
        rcases h.last with h0 | ⟨b, hb⟩
        · omega
        · exact .inr ⟨b, List.mem_append_left _ hb⟩

/-! ## The scans -/

/-- What the records of an index file, applied in order, make of a key. -/
def replayed (rs : List IndexRecord) : Table :=
  replay (fun _ => none) (rs.map fun r => assignment r.stored)

theorem replayed_snoc (rs : List IndexRecord) (r : IndexRecord) :
    replayed (rs ++ [r]) = (replayed rs).apply (some r.stored) := by
  unfold replayed Table.apply
  rw [List.map_append, List.map_singleton, replay_append]
  rfl

theorem encodeAll_length_pos {rs : List IndexRecord} (h : rs ≠ []) : 0 < (encodeAll rs).length := by
  cases rs with
  | nil => exact absurd rfl h
  | cons r rs =>
    simp only [encodeAll, List.flatMap_cons, IndexRecord.encode, encodeIndex, List.length_append,
      length_leBytes]
    omega

/-- After the entries `pre`, the threads have applied the records `done`. -/
structure Scanned (rs : Nat → List IndexRecord) (pre : List Entry)
    (done : Nat → List IndexRecord) (s : Recovery) : Prop where
  ids : s.threads.map Scan.id = pre.filterMap Entry.indexId
  file : ∀ t ∈ s.threads, t.file = .new (encodeAll (rs t.id))
  pos : ∀ t ∈ s.threads, t.pos = (encodeAll (done t.id)).length
  part : ∀ i, done i <+: rs i
  fresh : ∀ i, i ∉ s.threads.map Scan.id → done i = []
  table : ∀ key, s.hashTable key = replayed (done (slot key)) key

theorem start_scanned (rs : Nat → List IndexRecord) (entries : List Entry) :
    Scanned rs [] (fun _ => []) (Recovery.start entries) where
  ids := rfl
  file := by simp [Recovery.start]
  pos := by simp [Recovery.start]
  part _ := List.nil_prefix
  fresh _ _ := rfl
  table _ := rfl

/-- An entry starts a thread at most, which has applied nothing. -/
theorem Scanned.visit (h : Scanned rs pre done s)
    (hnodup : ((pre ++ [e]).filterMap Entry.indexId).Nodup)
    (hheld : ∀ id held, e = .index id held → held = encodeAll (rs id)) :
    Scanned rs (pre ++ [e]) done (s.visit e) := by
  cases e with
  | skipped =>
    refine ⟨?_, h.file, h.pos, h.part, h.fresh, h.table⟩
    rw [List.filterMap_append]
    exact h.ids.trans (List.append_nil _).symm
  | data id held =>
    refine ⟨?_, h.file, h.pos, h.part, h.fresh, h.table⟩
    rw [List.filterMap_append]
    exact h.ids.trans (List.append_nil _).symm
  | index id held =>
    have hnew : id ∉ s.threads.map Scan.id := by
      rw [h.ids]
      rw [List.filterMap_append] at hnodup
      intro hmem
      exact (List.nodup_append.mp hnodup).2.2 id hmem id (by simp [Entry.indexId]) rfl
    have hthread : ∀ t ∈ (s.visit (.index id held)).threads,
        t ∈ s.threads ∨ t = ⟨id, .new held, 0⟩ := by
      intro t ht
      simpa [Recovery.visit] using ht
    refine ⟨?_, ?_, ?_, h.part, ?_, h.table⟩
    · simp [Recovery.visit, h.ids, Entry.indexId]
    · intro t ht
      rcases hthread t ht with ht | rfl
      · exact h.file t ht
      · rw [hheld id held rfl]
    · intro t ht
      rcases hthread t ht with ht | rfl
      · exact h.pos t ht
      · rw [h.fresh id hnew]
        rfl
    · intro i hi
      apply h.fresh i
      intro hmem
      apply hi
      simp only [Recovery.visit, List.map_append]
      exact List.mem_append_left _ hmem

/-- A thread that goes on has a record left. -/
theorem Scanned.rest (h : Scanned rs pre done s) (ht : t ∈ s.threads)
    (hsmall : (encodeAll (rs t.id)).length < 2 ^ 32) (hgo : t.pos < t.file.fileOffset) :
    ∃ r rest, rs t.id = done t.id ++ r :: rest := by
  obtain ⟨rest, hrest⟩ := h.part t.id
  cases rest with
  | nil =>
    rw [List.append_nil] at hrest
    rw [h.pos t ht, h.file t ht, hrest] at hgo
    have hoff : (File.new (encodeAll (rs t.id))).fileOffset = (encodeAll (rs t.id)).length :=
      u32_eq hsmall
    omega
  | cons r rest => exact ⟨r, rest, hrest.symm⟩

/-- One turn of a thread applies its next record. -/
theorem Scanned.turn (h : Scanned rs pre done s) (ht : t ∈ s.threads) {r : IndexRecord}
    {rest : List IndexRecord} (hrest : rs t.id = done t.id ++ r :: rest) (hr : r.Fits)
    (hsmall : (encodeAll (rs t.id)).length < 2 ^ 32) (stack : Mem) :
    BitCask.turn stack t.file t.pos =
      some ((encodeAll (done t.id ++ [r])).length, some r.stored) := by
  have hheld : encodeAll (rs t.id) = encodeAll (done t.id) ++ r.encode ++ encodeAll rest := by
    rw [hrest, encodeAll_append, encodeAll_cons, List.append_assoc]
  have hturn := turn_record stack hr hheld hsmall
  rw [h.file t ht, h.pos t ht, hturn, encodeAll_snoc]

/-- The state after that turn. -/
theorem Scanned.scan (h : Scanned rs pre done s) (hnodup : (pre.filterMap Entry.indexId).Nodup)
    (ht : s.threads[i]? = some t) {r : IndexRecord} {rest : List IndexRecord}
    (hrest : rs t.id = done t.id ++ r :: rest) (hslot : slot r.key = t.id) :
    Scanned rs pre (Function.update done t.id (done t.id ++ [r]))
      { s with
        threads := s.threads.set i { t with pos := (encodeAll (done t.id ++ [r])).length }
        hashTable := s.hashTable.apply (some r.stored) } := by
  have hids : (s.threads.set i { t with pos := (encodeAll (done t.id ++ [r])).length }).map
      Scan.id = s.threads.map Scan.id := by
    obtain ⟨hi, hget⟩ := List.getElem?_eq_some_iff.mp ht
    have hself := List.set_getElem_self (by simpa using hi : i < (s.threads.map Scan.id).length)
    rw [List.getElem_map, hget] at hself
    rw [List.map_set]
    exact hself
  have hmem : t ∈ s.threads := List.mem_of_getElem? ht
  -- a thread of the new list is the one that moved, or one with another number
  have hthread : ∀ u ∈ s.threads.set i { t with pos := (encodeAll (done t.id ++ [r])).length },
      u = { t with pos := (encodeAll (done t.id ++ [r])).length } ∨ u ∈ s.threads ∧
        u.id ≠ t.id := by
    intro u hu
    obtain ⟨j, hj⟩ := List.mem_iff_getElem?.mp hu
    rw [List.getElem?_set] at hj
    split at hj
    · split at hj
      · cases hj
        exact .inl rfl
      · cases hj
    · rename_i hij
      refine .inr ⟨List.mem_of_getElem? hj, ?_⟩
      intro hid
      rw [← h.ids] at hnodup
      have hi : i < (s.threads.map Scan.id).length := by
        rw [List.length_map]
        exact (List.getElem?_eq_some_iff.mp ht).1
      apply hij
      apply (List.getElem?_inj hi hnodup).mp
      rw [List.getElem?_map, List.getElem?_map, ht, hj, Option.map_some, Option.map_some, hid]
  refine ⟨hids.trans h.ids, ?_, ?_, ?_, ?_, ?_⟩
  · intro u hu
    rcases hthread u hu with rfl | ⟨hu, -⟩
    · exact h.file t hmem
    · exact h.file u hu
  · intro u hu
    rcases hthread u hu with rfl | ⟨hu, hid⟩
    · rw [Function.update_self]
    · rw [Function.update_of_ne hid]
      exact h.pos u hu
  · intro j
    by_cases hj : j = t.id
    · subst hj
      rw [Function.update_self, hrest]
      exact ⟨rest, by simp⟩
    · rw [Function.update_of_ne hj]
      exact h.part j
  · intro j hj
    rw [hids] at hj
    have hne : j ≠ t.id := by
      rintro rfl
      exact hj (List.mem_map_of_mem hmem)
    rw [Function.update_of_ne hne]
    exact h.fresh j hj
  · intro key
    show Function.update s.hashTable r.key (assignment r.stored).2 key = _
    by_cases hkey : key = r.key
    · subst hkey
      rw [hslot, Function.update_self, Function.update_self, replayed_snoc]
      show _ = Function.update (replayed (done t.id)) r.key (assignment r.stored).2 r.key
      rw [Function.update_self]
    · rw [Function.update_of_ne hkey, h.table key]
      by_cases hsame : slot key = t.id
      · rw [hsame, Function.update_self, replayed_snoc]
        exact (Function.update_of_ne hkey ..).symm
      · rw [Function.update_of_ne hsame]

/-! ## Whole runs -/

/-- A run has seen the entries `pre` and applied the records `done`, in as many
steps as these are. -/
structure Progress (rs : Nat → List IndexRecord) (entries : List Entry)
    (tr : List (Recovery × RecoverLabel)) (s : Recovery) (pre : List Entry)
    (done : Nat → List IndexRecord) : Prop where
  split : entries = pre ++ s.todo
  walked : Walked pre s
  scanned : Scanned rs pre done s
  count : tr.length = pre.length + ∑ i ∈ Finset.range maxIndexCount, (done i).length

/-- One record more. -/
theorem sum_length_snoc {n : Nat} (hi : i < n) (done : Nat → List IndexRecord) (r : IndexRecord) :
    ∑ j ∈ Finset.range n, (Function.update done i (done i ++ [r]) j).length =
      ∑ j ∈ Finset.range n, (done j).length + 1 := by
  have hmem := Finset.mem_range.mpr hi
  rw [← Finset.add_sum_erase _ _ hmem,
    ← Finset.add_sum_erase _ (fun j => (done j).length) hmem, Function.update_self]
  have hrest : ∑ j ∈ (Finset.range n).erase i, (Function.update done i (done i ++ [r]) j).length =
      ∑ j ∈ (Finset.range n).erase i, (done j).length := by
    apply Finset.sum_congr rfl
    intro j hj
    rw [Function.update_of_ne (Finset.ne_of_mem_erase hj)]
  rw [hrest, List.length_append, List.length_singleton]
  omega

section Runs

variable {db : DBImpl} {rs : Nat → List IndexRecord} {entries : List Entry} {stack : Mem}
  {tr : List (Recovery × RecoverLabel)} {s : Recovery}

variable {id : Nat}

/-- The scans of the directory of `db` read what the index files of `db` hold. -/
theorem listed_index (hl : db.Lists entries) (hi : db.Indexed rs) {held : Bytes}
    (h : .index id held ∈ entries) : id < maxIndexCount ∧ held = encodeAll (rs id) := by
  obtain ⟨hid, f, hf, rfl⟩ := DBImpl.mem_close_index.mp ((hl.mem (by simp)).mp h)
  obtain ⟨g, hg, hbytes⟩ := hi.file id hid
  rw [hf] at hg
  cases hg
  exact ⟨hid, hbytes⟩

theorem length_lt (hi : db.Indexed rs) (hs : db.Small) (hid : id < maxIndexCount) :
    (encodeAll (rs id)).length < 2 ^ 32 := by
  obtain ⟨f, hf, hbytes⟩ := hi.file id hid
  rw [← hbytes]
  exact hs id hid f hf

/-- A thread scans a listed index file. -/
theorem Progress.thread {pre : List Entry} {done : Nat → List IndexRecord} (hl : db.Lists entries)
    (hi : db.Indexed rs) (h : Progress rs entries tr s pre done) {t : Scan} (ht : t ∈ s.threads) :
    t.id < maxIndexCount := by
  have hid : t.id ∈ s.threads.map Scan.id := List.mem_map_of_mem ht
  rw [h.scanned.ids] at hid
  obtain ⟨e, he, hid⟩ := List.mem_filterMap.mp hid
  cases e with
  | skipped => cases hid
  | data => cases hid
  | index id held =>
    cases hid
    apply (listed_index hl hi _).1
    · exact held
    · rw [h.split]
      exact List.mem_append_left _ he

/-- The invariant of recovery: every step sees an entry or applies a record. -/
theorem run_progress (hl : db.Lists entries) (hi : db.Indexed rs) (hs : db.Small)
    (hrun : (recovery stack entries).Run (Recovery.start entries) tr s) :
    ∃ pre done, Progress rs entries tr s pre done := by
  induction hrun with
  | nil =>
    refine ⟨[], fun _ => [], rfl, start_walked entries, start_scanned rs entries, ?_⟩
    simp
  | @snoc tr s l s' _ hstep ih =>
    obtain ⟨pre, done, h⟩ := ih
    cases l with
    | walk =>
      have hstep : s.step stack .walk = some s' := hstep
      obtain ⟨e, todo, htodo, rfl⟩ := Recovery.step_walk hstep
      have hsplit : entries = pre ++ [e] ++ todo := by
        rw [h.split, htodo]
        simp
      have hnodup : ((pre ++ [e]).filterMap Entry.indexId).Nodup := by
        have := hl.nodup
        rw [hsplit, List.filterMap_append] at this
        exact (List.nodup_append.mp this).1
      have hc := hl.consistent
      rw [hsplit] at hc
      have hw : Walked pre { s with todo := todo } :=
        ⟨h.walked.1, h.walked.2, h.walked.3, h.walked.4⟩
      have hsc : Scanned rs pre done { s with todo := todo } :=
        ⟨h.scanned.1, h.scanned.2, h.scanned.3, h.scanned.4, h.scanned.5, h.scanned.6⟩
      refine ⟨pre ++ [e], done, ?_, hw.visit hc.left, hsc.visit hnodup ?_, ?_⟩
      · cases e <;> exact hsplit
      · rintro id held rfl
        exact (listed_index hl hi (by rw [hsplit]; simp)).2
      · rw [List.length_append, List.length_append, h.count]
        simp only [List.length_singleton]
        omega
    | scan i =>
      have hstep : s.step stack (.scan i) = some s' := hstep
      obtain ⟨t, pos, r, ht, hgo, hturn, rfl⟩ := Recovery.step_scan hstep
      have hmem : t ∈ s.threads := List.mem_of_getElem? ht
      have hid := h.thread hl hi hmem
      have hsmall := length_lt hi hs hid
      obtain ⟨r', rest, hrest⟩ := h.scanned.rest hmem hsmall hgo
      have hr' : r' ∈ rs t.id := by
        rw [hrest]
        simp
      rw [h.scanned.turn hmem hrest (hi.fits _ r' hr') hsmall stack] at hturn
      cases hturn
      have hnodup : (pre.filterMap Entry.indexId).Nodup := by
        have := hl.nodup
        rw [h.split, List.filterMap_append] at this
        exact (List.nodup_append.mp this).1
      refine ⟨pre, _, h.split, ⟨h.walked.1, h.walked.2, h.walked.3, h.walked.4⟩,
        h.scanned.scan hnodup ht hrest (hi.slot _ r' hr'), ?_⟩
      rw [sum_length_snoc hid, List.length_append, List.length_singleton, h.count, Nat.add_assoc]

/-- Recovery takes a bounded number of steps. -/
theorem run_bound (hl : db.Lists entries) (hi : db.Indexed rs) (hs : db.Small)
    (hrun : (recovery stack entries).Run (Recovery.start entries) tr s) :
    tr.length ≤ entries.length + ∑ i ∈ Finset.range maxIndexCount, (rs i).length := by
  obtain ⟨pre, done, h⟩ := run_progress hl hi hs hrun
  have hpre : pre.length ≤ entries.length := by
    rw [h.split, List.length_append]
    omega
  have hsum : ∑ i ∈ Finset.range maxIndexCount, (done i).length ≤
      ∑ i ∈ Finset.range maxIndexCount, (rs i).length :=
    Finset.sum_le_sum fun i _ => (h.scanned.part i).length_le
  rw [h.count]
  omega

/-- Recovery that has not ended can go on. -/
theorem run_go (hl : db.Lists entries) (hi : db.Indexed rs) (hs : db.Small)
    (hrun : (recovery stack entries).Run (Recovery.start entries) tr s) :
    s.Done ∨ ∃ l s', (recovery stack entries).step s l = some s' := by
  obtain ⟨pre, done, h⟩ := run_progress hl hi hs hrun
  cases htodo : s.todo with
  | cons e todo =>
    refine .inr ⟨.walk, Recovery.visit { s with todo := todo } e, ?_⟩
    simp [recovery, Recovery.step, htodo]
  | nil =>
    by_cases hfin : ∀ t ∈ s.threads, t.Finished
    · exact .inl ⟨htodo, hfin⟩
    · push Not at hfin
      obtain ⟨t, hmem, hgo⟩ := hfin
      have hgo : t.pos < t.file.fileOffset := Nat.lt_of_not_le hgo
      have hsmall := length_lt hi hs (h.thread hl hi hmem)
      obtain ⟨r, rest, hrest⟩ := h.scanned.rest hmem hsmall hgo
      have hr : r ∈ rs t.id := by
        rw [hrest]
        simp
      obtain ⟨i, ht⟩ := List.mem_iff_getElem?.mp hmem
      refine .inr ⟨.scan i, ?_⟩
      simp [recovery, Recovery.step, ht, hgo,
        h.scanned.turn hmem hrest (hi.fits _ r hr) hsmall stack]

/-- The database that reopening the directory of `db` gives. -/
def DBImpl.restored (db : DBImpl) (rs : Nat → List IndexRecord) : DBImpl where
  hashTable key := replayed (rs (slot key)) key
  dataFiles i := if i < db.fileNum then (db.dataFiles i).map fun f => .new f.bytes else none
  indexFiles i := if i < maxIndexCount then (db.indexFiles i).map fun f => .new f.bytes else none
  fileNum := db.fileNum
  sync := db.sync

/-- A scan that has ended has applied every record of its file. -/
theorem Progress.done_eq {pre : List Entry} {done : Nat → List IndexRecord} (hl : db.Lists entries)
    (hi : db.Indexed rs) (hs : db.Small) (h : Progress rs entries tr s pre done) (hdone : s.Done)
    (hid : id < maxIndexCount) : done id = rs id := by
  obtain ⟨f, hf, hbytes⟩ := hi.file id hid
  have hlisted : .index id f.bytes ∈ pre := by
    have hmem := (hl.mem (by simp)).mpr (DBImpl.mem_close_index.mpr ⟨hid, f, hf, rfl⟩)
    rwa [h.split, hdone.1, List.append_nil] at hmem
  have hthread : id ∈ s.threads.map Scan.id := by
    rw [h.scanned.ids]
    exact List.mem_filterMap.mpr ⟨_, hlisted, rfl⟩
  obtain ⟨t, ht, rfl⟩ := List.mem_map.mp hthread
  have hfin : t.file.fileOffset ≤ t.pos := hdone.2 t ht
  have hoff : (File.new (encodeAll (rs t.id))).fileOffset = (encodeAll (rs t.id)).length :=
    u32_eq (length_lt hi hs hid)
  rw [h.scanned.file t ht, h.scanned.pos t ht, hoff] at hfin
  obtain ⟨rest, hrest⟩ := h.scanned.part t.id
  by_cases hnil : rest = []
  · rwa [hnil, List.append_nil] at hrest
  · have hpos := encodeAll_length_pos hnil
    rw [← hrest, encodeAll_append, List.length_append] at hfin
    omega

/-- A table of files opened from the listing of a directory. -/
theorem opened_eq {g open' : Nat → Option File} {mk : Nat → Bytes → Entry} {n : Nat}
    (hclose : ∀ i held, mk i held ∈ entries ↔ i < n ∧ ∃ f, g i = some f ∧ f.bytes = held)
    (hopen : ∀ i f, open' i = some f ↔ ∃ held, mk i held ∈ entries ∧ f = .new held) :
    open' = fun i => if i < n then (g i).map fun f => .new f.bytes else none := by
  funext i
  apply Option.ext
  intro f
  rw [hopen]
  constructor
  · rintro ⟨held, hmem, rfl⟩
    obtain ⟨hi, f, hf, rfl⟩ := (hclose i held).mp hmem
    simp [hi, hf]
  · intro hf
    split at hf
    · rename_i hi
      obtain ⟨f', hf', rfl⟩ := Option.map_eq_some_iff.mp hf
      exact ⟨f'.bytes, (hclose i _).mpr ⟨hi, f', hf', rfl⟩, rfl⟩
    · cases hf

/-- Every run of recovery that ends, ends in the same database. -/
theorem run_result (hl : db.Lists entries) (hi : db.Indexed rs) (hs : db.Small)
    (hdata : ∀ i < db.fileNum, ∃ f, db.dataFiles i = some f)
    (hrun : (recovery stack entries).Run (Recovery.start entries) tr s) (hdone : s.Done) :
    s.database db.sync = db.restored rs := by
  obtain ⟨pre, done, h⟩ := run_progress hl hi hs hrun
  have hpre : pre = entries := by
    rw [h.split, hdone.1, List.append_nil]
  have hw := h.walked
  rw [hpre] at hw
  have hcloseData : ∀ i held, .data i held ∈ entries ↔
      i < db.fileNum ∧ ∃ f, db.dataFiles i = some f ∧ f.bytes = held := by
    intro i held
    rw [hl.mem (by simp), DBImpl.mem_close_data]
  have hcloseIndex : ∀ i held, .index i held ∈ entries ↔
      i < maxIndexCount ∧ ∃ f, db.indexFiles i = some f ∧ f.bytes = held := by
    intro i held
    rw [hl.mem (by simp), DBImpl.mem_close_index]
  have htable : s.hashTable = fun key => replayed (rs (slot key)) key := by
    funext key
    rw [h.scanned.table key, h.done_eq hl hi hs hdone (slot_lt key)]
  have hnum : s.fileNum = db.fileNum := by
    apply Nat.le_antisymm
    · rcases hw.last with h0 | ⟨held, hmem⟩
      · omega
      · have := ((hcloseData _ _).mp hmem).1
        omega
    · by_contra hlt
      obtain ⟨f, hf⟩ := hdata (db.fileNum - 1) (by omega)
      have := hw.above _ f.bytes ((hcloseData _ _).mpr ⟨by omega, f, hf, rfl⟩)
      omega
  rw [Recovery.database, htable, hnum, opened_eq hcloseData hw.data, opened_eq hcloseIndex hw.index,
    DBImpl.restored]

end Runs

/-- The entries of a closed database list it. -/
theorem DBImpl.lists_close (db : DBImpl) : db.Lists db.close := by
  unfold Lists
  rw [List.filter_eq_self.mpr]
  intro e he
  cases e with
  | skipped => simp [close] at he
  | index id held => simp
  | data id held => simp

/-- Reopening has one outcome, and it has it. -/
theorem DBImpl.reopens_iff {db db' : DBImpl} (hi : db.Indexed rs) (hs : db.Small)
    (hdata : ∀ i < db.fileNum, ∃ f, db.dataFiles i = some f) :
    db.Reopens db' ↔ db' = db.restored rs := by
  constructor
  · rintro ⟨stack, entries, tr, s, hl, hrun, hdone, rfl⟩
    exact run_result hl hi hs hdata hrun hdone
  · rintro rfl
    have hl := db.lists_close
    have hstart : (recovery (fun _ => 0) db.close).Run (Recovery.start db.close) []
        (Recovery.start db.close) := .nil
    obtain ⟨tr, s, hrun, hdone, -⟩ := TSys.Run.completes (fun _ _ h => run_bound hl hi hs h)
      (fun _ _ h => run_go hl hi hs h) hstart
    exact ⟨_, _, tr, s, hl, hrun, hdone, (run_result hl hi hs hdata hrun hdone).symm⟩

end LogDirect.BitCask
