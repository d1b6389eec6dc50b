import LogDirect.BitCask.Histories
import LogDirect.Lib.Frames

/-!
# BitCask: crashes

A crash keeps of every file what was written before its last `fsync`, and of the
later writes any; a write that is missing in front of one that is there reads as
zeros. `Put` and `PutBatch` with `sync_` sync the data file before they store
their entries, so the pairs of a call that logs its records are on the disk
(`Durable`). The index files are never synced.
-/

namespace LogDirect.BitCask

open Lib

/-! ## What is left of a file -/

/-- What is left of writes, the first of them numbered `i`. -/
def survivors (kept : Nat → Bool) : Nat → List Bytes → Bytes
  | _, [] => []
  | i, c :: cs =>
      let rest := survivors kept (i + 1) cs
      if kept i then c ++ rest
      else if rest = [] then []
      else List.replicate c.length 0 ++ rest

/-- The file after a crash that keeps the writes `keep` among those not synced. -/
def File.crash (f : File) (keep : Nat → Bool) : Bytes :=
  f.held ++ survivors (fun i => decide (i < f.synced) || keep i) 0 f.chunks

/-- What the last `fsync` covered. -/
def File.syncedBytes (f : File) : Bytes := f.held ++ (f.chunks.take f.synced).flatten

/-- Writes that are kept from the first on. -/
theorem survivors_append (kept : Nat → Bool) {pre : List Bytes} (cs : List Bytes) :
    ∀ i, (∀ j < pre.length, kept (i + j) = true) →
      survivors kept i (pre ++ cs) = pre.flatten ++ survivors kept (i + pre.length) cs := by
  induction pre with
  | nil =>
    intro i _
    rfl
  | cons c pre ih =>
    intro i hkept
    have hhead : kept i = true := hkept 0 (by simp)
    have htail : ∀ j < pre.length, kept (i + 1 + j) = true := by
      intro j hj
      rw [Nat.add_assoc, Nat.add_comm 1 j]
      exact hkept (j + 1) (by simpa using hj)
    rw [List.cons_append, survivors, if_pos hhead, ih _ htail, List.flatten_cons, List.append_assoc,
      List.length_cons, Nat.add_assoc, Nat.add_comm 1]

variable {f : File} {m : Mutation} {db db' : DBImpl} {lock lock' : Bool} {pc pc' : WriterPc}
  {l : List (Bytes × DBIndex)} {s : Writers} {pre : List (Mutation × WriterPc)}
  {kvs : List (Bytes × Bytes)} {key : Bytes}

/-- A crash keeps what was synced. -/
theorem File.syncedBytes_crash (h : f.synced ≤ f.chunks.length) (keep : Nat → Bool) :
    f.syncedBytes <+: f.crash keep := by
  have hsplit := List.take_append_drop f.synced f.chunks
  have hkept : ∀ j < (f.chunks.take f.synced).length,
      (decide (0 + j < f.synced) || keep (0 + j)) = true := by
    intro j hj
    rw [List.length_take] at hj
    simp only [Nat.zero_add, Bool.or_eq_true, decide_eq_true_eq]
    left
    omega
  have hkeep := survivors_append (fun i => decide (i < f.synced) || keep i)
    (f.chunks.drop f.synced) 0 hkept
  rw [hsplit] at hkeep
  exact ⟨_, by rw [File.crash, File.syncedBytes, List.append_assoc, hkeep]⟩

/-! ## What recovery applies -/

/-- The positions a scan comes to. -/
inductive Scans (stack : Mem) (f : File) : Nat → Prop
  | start : Scans stack f 0
  | next {pos pos' r} : Scans stack f pos → pos < f.fileOffset → turn stack f pos = some (pos', r) →
      Scans stack f pos'

/-- A scan of an index file assigns the entry of the record to its key. -/
def Applied (stack : Mem) (held : Bytes) (r : IndexRecord) : Prop :=
  ∃ pos pos', Scans stack (.new held) pos ∧ pos < (File.new held).fileOffset ∧
    turn stack (.new held) pos = some (pos', some r) ∧ 0 < r.valueSize

/-- The records at the start of a file are applied. -/
theorem applied_of_append (stack : Mem) {rs : List IndexRecord} {r : IndexRecord}
    {held post : Bytes}
    (hrs : ∀ x ∈ rs, x.Fits) (hr : r.Fits) (hheld : held = encodeAll rs ++ r.encode ++ post)
    (hsmall : held.length < 2 ^ 32) (hvalue : 0 < r.valueSize) : Applied stack held r.stored := by
  have hoff : (File.new held).fileOffset = held.length := u32_eq hsmall
  -- the scan comes to the end of every part of the records
  have hscan : ∀ done todo, rs = done ++ todo →
      Scans stack (.new held) (encodeAll done).length := by
    intro done
    induction done using List.reverseRecOn with
    | nil =>
      intro todo _
      exact .start
    | append_singleton done x ih =>
      intro todo hsplit
      rw [List.append_assoc, List.singleton_append] at hsplit
      have hx : x.Fits := hrs x (by rw [hsplit]; simp)
      have hmid : held = encodeAll done ++ x.encode ++ (encodeAll todo ++ r.encode ++ post) := by
        rw [hheld, hsplit, encodeAll_append, encodeAll_cons]
        simp
      have hturn := turn_record stack hx hmid hsmall
      have hlen := congrArg List.length hmid
      simp only [List.length_append, IndexRecord.length_encode hx] at hlen
      rw [encodeAll_snoc]
      exact (ih _ hsplit).next (by rw [hoff]; omega) hturn
  have hlen := congrArg List.length hheld
  simp only [List.length_append, IndexRecord.length_encode hr] at hlen
  refine ⟨(encodeAll rs).length, _, hscan rs [] (by simp), by rw [hoff]; omega,
    turn_record stack hr hheld hsmall, hvalue⟩

/-! ## Durable pairs -/

/-- The pairs a call stores. -/
def Mutation.puts (m : Mutation) : List (Bytes × Bytes) := m.op.puts

namespace DBImpl

/-- The entry is that of the pair, and the pair is on the disk. -/
def Durable (db : DBImpl) (e : Bytes × DBIndex) (kv : Bytes × Bytes) : Prop :=
  ∃ fi off f, e = (kv.1, ⟨.file fi off, kv.1.length, kv.2.length⟩) ∧ db.dataFiles fi = some f ∧
    FoundAt f.syncedBytes off (kv.1 ++ kv.2)

/-- What is synced stays. -/
def Keeps (db db' : DBImpl) : Prop := ∀ i f, db.dataFiles i = some f →
  ∃ f', db'.dataFiles i = some f' ∧ f.syncedBytes <+: f'.syncedBytes

/-- The data files are numbered from 0 on, and a sync covers writes that were made. -/
def Numbered (db : DBImpl) : Prop :=
  ∀ i f, db.dataFiles i = some f → i < db.fileNum ∧ f.synced ≤ f.chunks.length

variable {db : DBImpl}

theorem Durable.keeps {db' : DBImpl} (hkeeps : db.Keeps db') {e : Bytes × DBIndex}
    {kv : Bytes × Bytes} (h : db.Durable e kv) : db'.Durable e kv := by
  obtain ⟨fi, off, f, he, hf, hfound⟩ := h
  obtain ⟨f', hf', hpre⟩ := hkeeps fi f hf
  exact ⟨fi, off, f', he, hf', hfound.mono hpre⟩

theorem Keeps.of_eq {db' : DBImpl} (h : db'.dataFiles = db.dataFiles) : db.Keeps db' := by
  intro i f hf
  exact ⟨f, by rw [h, hf], List.prefix_refl _⟩

/-- One data file replaced by one that has no less synced. -/
theorem setDataFile_keeps {fi : Nat} {f g : File} (hf : db.dataFiles fi = some f)
    (hpre : f.syncedBytes <+: g.syncedBytes) : db.Keeps (db.setDataFile fi g) := by
  intro i f' hf'
  by_cases hi : i = fi
  · subst hi
    rw [hf] at hf'
    cases hf'
    exact ⟨g, Function.update_self .., hpre⟩
  · exact ⟨f', (Function.update_of_ne hi ..).trans hf', List.prefix_refl _⟩

theorem setDataFile_numbered {fi : Nat} {f g : File} (h : db.Numbered)
    (hf : db.dataFiles fi = some f) (hg : g.synced ≤ g.chunks.length) :
    (db.setDataFile fi g).Numbered := by
  intro i f' hf'
  by_cases hi : i = fi
  · subst hi
    rw [setDataFile_dataFiles] at hf'
    cases hf'
    exact ⟨(h i f hf).1, hg⟩
  · exact h i f' ((Function.update_of_ne hi ..).symm.trans hf')

theorem newSegment_numbered (h : db.Numbered) : db.newSegment.Numbered := by
  intro i f hf
  show i < db.fileNum + 1 ∧ _
  by_cases hi : i = db.fileNum
  · subst hi
    have hnew : db.newSegment.dataFiles db.fileNum = some (.new []) := Function.update_self ..
    rw [hnew] at hf
    cases hf
    exact ⟨Nat.lt_succ_self _, Nat.zero_le _⟩
  · obtain ⟨hlt, hsync⟩ := h i f ((Function.update_of_ne hi ..).symm.trans hf)
    exact ⟨by omega, hsync⟩

theorem newSegment_keeps (h : db.Numbered) : db.Keeps db.newSegment := by
  intro i f hf
  have hi : i ≠ db.fileNum := Nat.ne_of_lt (h i f hf).1
  exact ⟨f, (Function.update_of_ne hi ..).trans hf, List.prefix_refl _⟩

end DBImpl

theorem File.syncedBytes_pwrite (h : f.synced ≤ f.chunks.length) (bs : Bytes) :
    (f.pwrite bs).syncedBytes = f.syncedBytes := by
  show f.held ++ ((f.chunks ++ [bs]).take f.synced).flatten = _
  rw [List.take_append_of_le_length h]
  rfl

theorem File.syncedBytes_sync (f : File) : f.sync.syncedBytes = f.bytes := by
  show f.held ++ (f.chunks.take f.chunks.length).flatten = _
  rw [List.take_length]
  rfl

theorem File.syncedBytes_bytes (f : File) : f.syncedBytes <+: f.bytes := by
  have hsplit := List.take_append_drop f.synced f.chunks
  refine ⟨(f.chunks.drop f.synced).flatten, ?_⟩
  rw [File.syncedBytes, List.append_assoc, ← List.flatten_append, hsplit]
  rfl

/-- A step of a call takes nothing off the disk. -/
theorem Moves.keeps (hmove : Moves m db lock pc pc' db' lock') (hnum : db.Numbered) :
    db.Keeps db' ∧ db'.Numbered ∧ db'.sync = db.sync := by
  cases hmove with
  | absent | found | acquire | choose | refused | retry | tryLock | finish | insert | log | erase =>
    exact ⟨.of_eq rfl, hnum, rfl⟩
  | reserve hf =>
    exact ⟨DBImpl.setDataFile_keeps hf (List.prefix_refl _),
      DBImpl.setDataFile_numbered hnum hf (hnum _ _ hf).2, rfl⟩
  | pwrite hf =>
    have hsync := (hnum _ _ hf).2
    refine ⟨DBImpl.setDataFile_keeps hf ?_, DBImpl.setDataFile_numbered hnum hf ?_, rfl⟩
    · rw [File.syncedBytes_pwrite hsync]
    · exact Nat.le_trans hsync (by simp [File.pwrite])
  | @sync _ fi off f hf =>
    refine ⟨DBImpl.setDataFile_keeps hf ?_, DBImpl.setDataFile_numbered hnum hf ?_, rfl⟩
    · unfold DBImpl.syncData
      split
      · rw [File.syncedBytes_sync]
        exact f.syncedBytes_bytes
      · exact List.prefix_refl _
    · unfold DBImpl.syncData
      split
      · exact Nat.le_refl _
      · exact (hnum _ _ hf).2
  | create => exact ⟨DBImpl.newSegment_keeps hnum, DBImpl.newSegment_numbered hnum, rfl⟩

/-- The entries of a call whose record is on the disk. -/
theorem Mutation.entries_durable {fi off : Nat} (hf : db.dataFiles fi = some f)
    (hoff : off < segmentSize) (hfound : FoundAt f.syncedBytes off m.bytes) :
    List.Forall₂ db.Durable (m.entries fi off) m.puts := by
  cases m with
  | delete key => exact .nil
  | put r =>
    refine .cons ⟨fi, off, f, ?_, hf, hfound⟩ .nil
    rw [DBImpl.ofFile_eq fi off r.whole]
  | putBatch b =>
    -- the records from some byte of the batch on
    have hitems : ∀ (items : List Item) (pre : Bytes), pre.length + Item.total items ≤ maxRwCount →
        FoundAt f.syncedBytes off (pre ++ Item.bytes items) →
        List.Forall₂ db.Durable
          (((items.map Item.key).zip (Item.index pre.length items)).map fun p =>
            (p.1, Index.setFileaddr p.2 fi (u32 (off + p.2.fileOffset))))
          (items.map fun r => (r.key, r.value)) := by
      intro items
      induction items with
      | nil =>
        intro pre _ _
        exact .nil
      | cons r items ih =>
        intro pre hlen hfound
        have hsize : Item.total (r :: items) = r.length + Item.total items := by simp [Item.total]
        have hr : r.length = sizeofRequest + r.key.length + r.value.length := rfl
        refine .cons ⟨fi, off + (pre.length + sizeofRequest), f, ?_, hf, ?_⟩ ?_
        · rw [DBImpl.ofFile_eq _ _ (by omega)]
          have hu : u32 (off + (pre.length + sizeofRequest)) =
              off + (pre.length + sizeofRequest) := by
            rw [segmentSize] at hoff
            rw [maxRwCount] at hlen
            exact u32_eq (by omega)
          simp only [Index.setFileaddr, DBIndex.fileOffset, hu]
        · have hsplit : pre ++ Item.bytes (r :: items) =
              (pre ++ Request.header r.op r.key.length r.value.length) ++ (r.key ++ r.value) ++
                Item.bytes items := by
            simp [Item.bytes, Item.encode]
          rw [hsplit] at hfound
          have hmid := hfound.mid
          rwa [List.length_append, Request.length_header] at hmid
        · have hnext : pre ++ Item.bytes (r :: items) = (pre ++ r.encode) ++ Item.bytes items := by
            simp [Item.bytes]
          rw [hnext] at hfound
          have hrest := ih (pre ++ r.encode) (by rw [List.length_append, Item.length_encode]; omega)
            hfound
          rwa [List.length_append, Item.length_encode] at hrest
    exact hitems b.items [] (by simpa using b.whole) hfound

/-! ## One call after the other -/

/-- Everything reserved in the data files is written. -/
def DBImpl.AllTight (db : DBImpl) : Prop := ∀ i f, db.dataFiles i = some f → f.Tight

/-- The database while a call is under way alone and has logged the pairs `done`. -/
def Stage (db : DBImpl) (m : Mutation) (done : List (Bytes × Bytes)) : WriterPc → Prop
  | .reserved fi off => done = [] ∧ off < segmentSize ∧ ∀ i f, db.dataFiles i = some f →
      if i = fi then off = f.bytes.length ∧ f.fileOffset = off + m.bytes.length else f.Tight
  | .written fi off => done = [] ∧ off < segmentSize ∧ db.AllTight ∧
      ∀ f, db.dataFiles fi = some f → FoundAt f.bytes off m.bytes
  | .storing todo => db.AllTight ∧ ∃ rest, m.puts = done ++ rest ∧ List.Forall₂ db.Durable todo rest
  | .logging key idx todo => db.AllTight ∧
      ∃ rest, m.puts = done ++ rest ∧ List.Forall₂ db.Durable ((key, idx) :: todo) rest
  | .returned _ => db.AllTight ∧ done = m.puts
  | _ => db.AllTight ∧ done = []

theorem DBImpl.AllTight.set (h : db.AllTight) {fi : Nat} {g : File} (hg : g.Tight) :
    (db.setDataFile fi g).AllTight := by
  intro i f hf
  by_cases hi : i = fi
  · subst hi
    rw [setDataFile_dataFiles] at hf
    cases hf
    exact hg
  · exact h i f ((Function.update_of_ne hi ..).symm.trans hf)

/-- One step of the call. -/
theorem Moves.stage {done : List (Bytes × Bytes)} (hmove : Moves m db lock pc pc' db' lock')
    (hsync : db.sync = true) (h : Stage db m done pc) :
    ∃ new, Stage db' m (done ++ new) pc' ∧ List.Forall₂ db'.Durable pc.pending.toList new := by
  cases hmove with
  | absent hm =>
    subst hm
    exact ⟨[], ⟨h.1, by rw [h.2]; rfl⟩, .nil⟩
  | found | acquire | choose | refused | retry | tryLock =>
    exact ⟨[], ⟨h.1, by rw [h.2]; rfl⟩, .nil⟩
  | @reserve _ fi f hf hroom =>
    obtain ⟨htight, rfl⟩ := h
    have hlen := m.length_bytes_le
    have hoff : f.fileOffset = f.bytes.length := htight fi f hf
    refine ⟨[], ⟨rfl, hroom, ?_⟩, .nil⟩
    intro i g hg
    by_cases hi : i = fi
    · subst hi
      rw [DBImpl.setDataFile_dataFiles] at hg
      cases hg
      rw [if_pos rfl, m.size_eq]
      exact ⟨hoff, u32_append hroom hlen⟩
    · rw [if_neg hi]
      exact htight i g ((Function.update_of_ne hi ..).symm.trans hg)
  | @pwrite _ fi off f hf =>
    obtain ⟨rfl, hroom, hfiles⟩ := h
    obtain ⟨hoff, hend⟩ : off = f.bytes.length ∧ f.fileOffset = off + m.bytes.length := by
      have := hfiles fi f hf
      rwa [if_pos rfl] at this
    refine ⟨[], ⟨rfl, hroom, ?_, ?_⟩, .nil⟩
    · intro i g hg
      by_cases hi : i = fi
      · subst hi
        rw [DBImpl.setDataFile_dataFiles] at hg
        cases hg
        show f.fileOffset = _
        rw [hend, hoff, File.bytes_pwrite, List.length_append]
      · have := hfiles i g ((Function.update_of_ne hi ..).symm.trans hg)
        rwa [if_neg hi] at this
    · intro g hg
      rw [DBImpl.setDataFile_dataFiles] at hg
      cases hg
      have hmid := foundAt_mid f.bytes m.bytes []
      rwa [List.append_nil, ← File.bytes_pwrite, ← hoff] at hmid
  | @sync _ fi off f hf =>
    obtain ⟨rfl, hroom, htight, hfound⟩ := h
    have hdata : db.syncData f = f.sync := if_pos hsync
    rw [hdata]
    refine ⟨[], ⟨htight.set (htight fi f hf), m.puts, rfl, ?_⟩, .nil⟩
    apply Mutation.entries_durable (DBImpl.setDataFile_dataFiles db fi f.sync) hroom
    rw [File.syncedBytes_sync]
    exact hfound f hf
  | create =>
    obtain ⟨htight, rfl⟩ := h
    refine ⟨[], ⟨?_, rfl⟩, .nil⟩
    intro i f hf
    by_cases hi : i = db.fileNum
    · subst hi
      have hnew : db.newSegment.dataFiles db.fileNum = some (.new []) := Function.update_self ..
      rw [hnew] at hf
      cases hf
      exact File.new_tight
    · exact htight i f ((Function.update_of_ne hi ..).symm.trans hf)
  | finish =>
    obtain ⟨htight, rest, hputs, hrest⟩ := h
    cases hrest
    exact ⟨[], ⟨htight, hputs.symm⟩, .nil⟩
  | insert =>
    obtain ⟨htight, rest, hputs, hrest⟩ := h
    exact ⟨[], ⟨htight, rest, by rw [List.append_nil, hputs], hrest⟩, .nil⟩
  | log =>
    obtain ⟨htight, rest, hputs, hrest⟩ := h
    cases hrest with
    | @cons _ kv _ rest hkv hrest =>
      exact ⟨[kv], ⟨htight, rest, by rw [hputs, List.append_assoc]; rfl, hrest⟩, .cons hkv .nil⟩
  | erase hm =>
    subst hm
    exact ⟨[], ⟨h.1, by rw [h.2]; rfl⟩, .nil⟩

/-- What a call has logged is a part of what it stores. -/
theorem Stage.done_append {done : List (Bytes × Bytes)} (h : Stage db m done pc) :
    ∃ rest, m.puts = done ++ rest := by
  cases pc with
  | storing | logging =>
    obtain ⟨-, rest, hrest, -⟩ := h
    exact ⟨rest, hrest⟩
  | returned => exact ⟨[], by rw [h.2, List.append_nil]⟩
  | reserved | written => exact ⟨m.puts, by rw [h.1]; rfl⟩
  | entered | locked | chosen | full | creating | erasing => exact ⟨m.puts, by rw [h.2]; rfl⟩

theorem Moves.active (hmove : Moves m db lock pc pc' db' lock') : pc.result = none := by
  cases hmove <;> rfl

/-- A run of calls one after the other has logged the pairs `kvs`, all of them durable:
those of the calls `pre` that have returned, and the first ones of the call under way. -/
structure InTurn (l : List (Bytes × DBIndex)) (s : Writers) (pre : List (Mutation × WriterPc))
    (kvs : List (Bytes × Bytes)) : Prop where
  returned : ∀ c ∈ pre, c.2.result.isSome
  numbered : s.db.Numbered
  sync : s.db.sync = true
  durable : List.Forall₂ s.db.Durable l kvs
  calls : s.calls = pre ∧ s.db.AllTight ∧ kvs = pre.flatMap (fun c => c.1.puts) ∨
    ∃ m pc done, s.calls = pre ++ [(m, pc)] ∧ Stage s.db m done pc ∧
      kvs = pre.flatMap (fun c => c.1.puts) ++ done

theorem InTurn.call (h : InTurn l s pre kvs) (hret : s.Returned) (m : Mutation) :
    InTurn (l ++ []) { s with calls := s.calls ++ [(m, .entered)] } s.calls kvs := by
  rw [List.append_nil]
  refine ⟨hret, h.numbered, h.sync, h.durable, .inr ⟨m, .entered, [], rfl, ?_⟩⟩
  rcases h.calls with ⟨hcalls, htight, hkvs⟩ | ⟨m₀, pc₀, done, hcalls, hstage, hkvs⟩
  · exact ⟨⟨htight, rfl⟩, by rw [hcalls, hkvs, List.append_nil]⟩
  · have hret₀ : pc₀.result.isSome := hret (m₀, pc₀) (by rw [hcalls]; simp)
    cases pc₀ with
    | returned ok =>
      refine ⟨⟨hstage.1, rfl⟩, ?_⟩
      rw [hcalls, hkvs, hstage.2, List.append_nil]
      simp
    | entered | locked | chosen | reserved | written | full | creating | storing | logging
    | erasing =>
      cases hret₀

theorem InTurn.go {s' : Writers} {i : Nat} (h : InTurn l s pre kvs)
    (hc : s.calls[i]? = some (m, pc)) (hmove : Moves m s.db s.lock pc pc' s'.db s'.lock)
    (hcalls' : s'.calls = s.calls.set i (m, pc')) :
    ∃ kvs', InTurn (l ++ pc.pending.toList) s' pre kvs' := by
  have hactive := hmove.active
  -- a call that has returned does not move
  have hout : (m, pc) ∉ pre := by
    intro hmem
    have := h.returned _ hmem
    rw [hactive] at this
    cases this
  rcases h.calls with ⟨hcalls, -⟩ | ⟨m₀, pc₀, done, hcalls, hstage, hkvs⟩
  · rw [hcalls] at hc
    exact absurd (List.mem_of_getElem? hc) hout
  · rw [hcalls] at hc
    have hi : i = pre.length := by
      rcases Nat.lt_trichotomy i pre.length with hlt | heq | hgt
      · rw [List.getElem?_append_left hlt] at hc
        exact absurd (List.mem_of_getElem? hc) hout
      · exact heq
      · rw [List.getElem?_eq_none (by rw [List.length_append, List.length_singleton]; omega)] at hc
        cases hc
    subst hi
    rw [getElem?_snoc] at hc
    cases hc
    obtain ⟨new, hstage', hnew⟩ := hmove.stage h.sync hstage
    obtain ⟨hkeeps, hnum, hsync⟩ := hmove.keeps h.numbered
    refine ⟨kvs ++ new, h.returned, hnum, hsync.trans h.sync, ?_,
      .inr ⟨m, pc', done ++ new, ?_, hstage', ?_⟩⟩
    · exact List.rel_append (h.durable.imp fun _ _ hd => hd.keeps hkeeps) hnew
    · rw [hcalls', hcalls, set_snoc]
    · rw [hkvs, List.append_assoc]

theorem run_inTurn {tr : List (Writers × WriterLabel)}
    (hrun : (writers true).Run (.start (.create true)) tr s) (hone : TSys.Meets OneByOne tr) :
    ∃ pre kvs, InTurn (logged tr) s pre kvs := by
  induction hrun with
  | nil =>
    have hfirst : ∀ i f, (DBImpl.create true).dataFiles i = some f → i = 0 ∧ f = .new [] := by
      intro i f hf
      have hi : i = 0 ∧ File.new [] = f := by simpa [DBImpl.create] using hf
      exact ⟨hi.1, hi.2.symm⟩
    refine ⟨[], [], by simp, ?_, rfl, .nil, .inl ⟨rfl, ?_, rfl⟩⟩
    · intro i f hf
      obtain ⟨rfl, rfl⟩ := hfirst i f hf
      exact ⟨Nat.one_pos, Nat.le_refl _⟩
    · intro i f hf
      obtain ⟨rfl, rfl⟩ := hfirst i f hf
      exact File.new_tight
  | @snoc tr s l s' _ hstep ih =>
    rw [TSys.meets_snoc] at hone
    obtain ⟨pre, kvs, h⟩ := ih hone.1
    rw [logged_snoc]
    cases l with
    | call m =>
      cases hstep
      exact ⟨_, _, h.call hone.2 m⟩
    | go i =>
      obtain ⟨m, pc, pc', hc, hmove, hcalls⟩ := Writers.step_go hstep
      obtain ⟨kvs', h'⟩ := h.go hc hmove hcalls
      rw [loggedBy, hc]
      exact ⟨pre, kvs', h'⟩

/-! ## After the crash -/

/-- The last call that stores the key has returned, and `value` is what it stored. -/
def Writers.LastPut (s : Writers) (key value : Bytes) : Prop :=
  ∃ before c after, s.calls = before ++ c :: after ∧ c.2.result.isSome ∧
    lastOf c.1.puts key = some value ∧ ∀ d ∈ after, lastOf d.1.puts key = none

/-- After a crash that keeps the writes `keepData` and `keepIndex` of the files, the index
file of the key has a record of it that recovery applies, and the record points at the
key and the value. -/
def DBImpl.Recoverable (db : DBImpl) (keepData keepIndex : Nat → Nat → Bool) (stack : Mem)
    (key value : Bytes) : Prop :=
  ∃ g r fi f, db.indexFiles (slot key) = some g ∧
    Applied stack (g.crash (keepIndex (slot key))) r ∧ r.key = key ∧ r.keySize = key.length ∧
    r.valueSize = value.length ∧ r.fileIndex = u32 fi ∧ db.dataFiles fi = some f ∧
    FoundAt (f.crash (keepData fi)) r.fileOffset (key ++ value)

theorem lastOf_flatMap_none {calls : List (Mutation × WriterPc)}
    (h : ∀ d ∈ calls, lastOf d.1.puts key = none) :
    lastOf (calls.flatMap fun c => c.1.puts) key = none := by
  induction calls with
  | nil => rfl
  | cons c calls ih =>
    rw [List.flatMap_cons, lastOf_append, ih fun d hd => h d (List.mem_cons_of_mem _ hd),
      h c List.mem_cons_self]
    rfl

/-- Of a key whose last call has returned, the last value is logged. -/
theorem InTurn.lastOf (h : InTurn l s pre kvs) {value : Bytes} (hlast : s.LastPut key value) :
    Lib.lastOf kvs key = some value := by
  obtain ⟨before, c, after, hsplit, hret, hvalue, hafter⟩ := hlast
  have hissued : Lib.lastOf (s.calls.flatMap fun c => c.1.puts) key = some value := by
    rw [hsplit, List.flatMap_append, List.flatMap_cons, lastOf_append, lastOf_append,
      lastOf_flatMap_none hafter, hvalue]
    rfl
  rcases h.calls with ⟨hcalls, -, hkvs⟩ | ⟨m, pc, done, hcalls, hstage, hkvs⟩
  · rwa [hkvs, ← hcalls]
  · obtain ⟨rest, hputs⟩ := hstage.done_append
    -- what the call under way has yet to log is of other keys
    have hrest : Lib.lastOf rest key = none := by
      rw [hcalls] at hsplit
      rcases List.eq_nil_or_concat' after with rfl | ⟨after', d, rfl⟩
      · cases (List.append_inj' hsplit rfl).2
        cases pc with
        | returned ok =>
          have hnil : rest = [] := by simpa [hstage.2] using hputs
          rw [hnil]
          rfl
        | entered | locked | chosen | reserved | written | full | creating | storing | logging |
            erasing =>
          cases hret
      · have hsplit' : pre ++ [(m, pc)] = (before ++ c :: after') ++ [d] := by
          rw [hsplit]
          simp
        cases (List.append_inj' hsplit' rfl).2
        have hnone := hafter (m, pc) (by simp)
        rw [hputs, lastOf_append, Option.or_eq_none_iff] at hnone
        exact hnone.1
    rw [hcalls, List.flatMap_append, List.flatMap_singleton, hputs, ← List.append_assoc, ← hkvs,
      lastOf_append, hrest] at hissued
    exact hissued

/-- The crash keeps the writes to the index file of the key up to the last one of a
record of the key. -/
def KeepsRecords (l : List (Bytes × DBIndex)) (keepIndex : Nat → Nat → Bool) (key : Bytes) : Prop :=
  ∃ n, (∀ j < n, keepIndex (slot key) j = true) ∧
    ∀ r ∈ (slotRecords l (slot key)).drop n, r.key ≠ key

/-- What a crash leaves of an index file starts with the records it keeps. -/
theorem crash_append (keep : Nat → Bool) (goff : Nat) {n : Nat} {all : List IndexRecord}
    {rs rs' : List IndexRecord} {r : IndexRecord} (hkeep : ∀ j < n, keep j = true)
    (hsplit : all.take n = rs ++ r :: rs') :
    ∃ post, (File.mk [] (all.map IndexRecord.encode) goff 0).crash keep =
      encodeAll rs ++ r.encode ++ post := by
  have hlen : rs.length + 1 ≤ n := by
    have := congrArg List.length hsplit
    rw [List.length_take, List.length_append, List.length_cons] at this
    omega
  have hall : all.map IndexRecord.encode = (rs ++ [r]).map IndexRecord.encode ++
      (rs' ++ all.drop n).map IndexRecord.encode := by
    rw [← List.map_append]
    conv_lhs => rw [← List.take_append_drop n all, hsplit]
    simp
  have hkept : ∀ j < ((rs ++ [r]).map IndexRecord.encode).length,
      (decide (0 + j < 0) || keep (0 + j)) = true := by
    intro j hj
    rw [List.length_map, List.length_append, List.length_singleton] at hj
    rw [Nat.zero_add, hkeep j (by omega), Bool.or_true]
  have hsurvive := survivors_append (fun i => decide (i < 0) || keep i)
    ((rs' ++ all.drop n).map IndexRecord.encode) 0 hkept
  rw [← List.flatMap_def, ← hall] at hsurvive
  rw [File.crash, List.nil_append, hsurvive, ← encodeAll_snoc]
  exact ⟨_, rfl⟩

/-- With `sync_`, in every crash of every sequential history: a key whose last call has
returned can be recovered if its value is not empty, the crash keeps the index writes up
to its last record, and the index file that is left is below 4 GiB. -/
theorem recoverable_of_keepsRecords {tr : List (Writers × WriterLabel)}
    (hrun : (writers true).Run (.start (.create true)) tr s) (hone : TSys.Meets OneByOne tr)
    {value : Bytes} (hlast : s.LastPut key value) (keepData keepIndex : Nat → Nat → Bool)
    (hvalue : value ≠ []) (hkept : KeepsRecords (logged tr) keepIndex key)
    (hsmall : ∀ g, s.db.indexFiles (slot key) = some g →
      (g.crash (keepIndex (slot key))).length < 2 ^ 32) (stack : Mem) :
    s.db.Recoverable keepData keepIndex stack key value := by
  obtain ⟨pre, kvs, h⟩ := run_inTurn hrun hone
  have hlogs := (writers_sound hrun).logs
  -- the entry of the key, and its record
  obtain ⟨idx, hidx, fi, off, f, hentry, hf, hfound⟩ := lastOf_forall₂
    (fun e kv hd => by obtain ⟨fi, off, f, he, -⟩ := hd; rw [he]) h.durable (h.lastOf hlast)
  cases hentry
  have hrecord : indexRecord key ⟨.file fi off, key.length, value.length⟩ ∈
      slotRecords (logged tr) (slot key) := by
    have := getLast?_slotRecords (logged tr) key
    rw [hidx] at this
    exact List.mem_of_mem_filter (List.mem_of_getLast? this)
  -- it is among the writes that are kept
  obtain ⟨n, hkeep, hdrop⟩ := hkept
  have htake : indexRecord key ⟨.file fi off, key.length, value.length⟩ ∈
      (slotRecords (logged tr) (slot key)).take n := by
    rw [← List.take_append_drop n (slotRecords (logged tr) (slot key))] at hrecord
    rcases List.mem_append.mp hrecord with hmem | hmem
    · exact hmem
    · exact absurd rfl (hdrop _ hmem)
  obtain ⟨rs, rs', hsplit⟩ := List.append_of_mem htake
  obtain ⟨goff, hg⟩ := hlogs.file (slot key) (slot_lt key)
  obtain ⟨post, himage⟩ := crash_append (keepIndex (slot key)) goff hkeep hsplit
  have hfits : ∀ x ∈ slotRecords (logged tr) (slot key), x.Fits := by
    intro x hx
    obtain ⟨p, hp, rfl⟩ := List.mem_map.mp hx
    exact hlogs.fits p (List.mem_of_mem_filter hp)
  have happlied := applied_of_append stack
    (fun x hx => hfits x (List.mem_of_mem_take (hsplit ▸ List.mem_append_left _ hx)))
    (hfits _ hrecord) himage (hsmall _ hg) (List.length_pos_iff.mpr hvalue)
  exact ⟨_, _, fi, f, hg, happlied, rfl, rfl, rfl, rfl, hf,
    hfound.mono (File.syncedBytes_crash (h.numbered fi f hf).2 _)⟩

/-- One `Put` with `sync_`, to its return: its record is the only write to its index file. -/
theorem put_returned : ∃ tr s off, (writers true).Run (.start (.create true)) tr s ∧
    TSys.Meets OneByOne tr ∧ s.LastPut [1] [1] ∧ s.db.indexFiles (slot [1]) =
      some ⟨[], [(indexRecord [1] ⟨.file 0 0, 1, 1⟩).encode], off, 0⟩ := by
  obtain ⟨tr, s, off, htr, hone, hcalls, hfile⟩ : ∃ tr s off,
      (writers true).trace (.start (.create true)) (.call (putByte 1) :: List.replicate 8 (.go 0)) =
        some (tr, s) ∧
      TSys.Meets OneByOne tr ∧ s.calls = [(putByte 1, .returned true)] ∧
      s.db.indexFiles (slot [1]) =
        some ⟨[], [(indexRecord [1] ⟨.file 0 0, 1, 1⟩).encode], off, 0⟩ := by
    refine ⟨_, _, _, rfl, ?_, rfl, rfl⟩
    unfold TSys.Meets
    decide
  refine ⟨tr, s, off, TSys.run_of_trace htr, hone, ⟨[], _, [], hcalls, rfl, rfl, ?_⟩, hfile⟩
  intro d hd
  cases hd

theorem recoverable_put : ∃ s : Writers, s.LastPut [1] [1] ∧
    s.db.Recoverable (fun _ _ => false) (fun _ _ => true) (fun _ => 0) [1] [1] := by
  obtain ⟨tr, s, off, hrun, hone, hlast, hfile⟩ := put_returned
  refine ⟨s, hlast, recoverable_of_keepsRecords hrun hone hlast _ _ (by decide)
    ⟨(slotRecords (logged tr) (slot [1])).length, fun _ _ => rfl, by simp⟩ ?_ _⟩
  intro g hg
  rw [hfile] at hg
  cases hg
  show (survivors (fun _ => true) 0 [(indexRecord [1] ⟨.file 0 0, 1, 1⟩).encode]).length < 2 ^ 32
  decide

/-- The `Put` of one pair has synced the pair and returned; a crash that loses the write
to the index file leaves no record of the key. -/
theorem crash_loses_record : ∃ tr s, (writers true).Run (.start (.create true)) tr s ∧
    TSys.Meets OneByOne tr ∧ s.LastPut [1] [1] ∧
    ∀ keepData stack, ¬ s.db.Recoverable keepData (fun _ _ => false) stack [1] [1] := by
  obtain ⟨tr, s, off, hrun, hone, hlast, hfile⟩ := put_returned
  refine ⟨tr, s, hrun, hone, hlast, ?_⟩
  rintro keepData stack ⟨g, r, fi, f, hg, ⟨pos, pos', -, hpos, -⟩, -⟩
  rw [hfile] at hg
  cases hg
  -- what is left is an empty file
  have hempty : (File.new ((File.mk [] [(indexRecord [1] ⟨.file 0 0, 1, 1⟩).encode] off 0).crash
      fun _ => false)).fileOffset = 0 := rfl
  rw [hempty] at hpos
  exact Nat.not_lt_zero _ hpos

end LogDirect.BitCask
