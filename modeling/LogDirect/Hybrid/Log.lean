import LogDirect.Hybrid.Close

/-!
# The log

`pmrlog.log` receives each flushed batch from its own persist thread. No record
is lost or repeated on the way (`log_complete`). The order of the batches in the
log is the order in which the threads won the mutex; it is the order of the
writes exactly when no thread writes its batch after a younger one
(`log_ordered_iff`). What a replay gives is read off the bytes of the log, record
by record (`readLog`).
-/

namespace LogDirect.Hybrid

open Lib TSys

/-! ## Completeness -/

/-- When no thread is pending, every batch is persisted. -/
theorem persisted_of_done {us : List Thread} (h : ∀ u ∈ us, u.stage = .done) :
    persisted us = us.flatMap Thread.recs := by
  unfold persisted
  refine List.flatMap_congr fun u hu => ?_
  rw [h u hu]
  rfl

/-- After `CLOSE`, once every persist thread is done, the log is a concatenation
of whole records: those of the acknowledged writes, each once, and no others. -/
theorem log_complete {c : Conn} {sh : Shared} (hreach : system.Reachable (c, sh))
    (hclosed : c.clerk.pc ≠ .running) (hdone : ∀ t ∈ c.clerk.threads, t.stage = .done) :
    ∃ rs, sh.log = Batch.bytes rs ∧ rs.Perm (c.client.acks.map Prod.fst) := by
  have hs := reachable_sole hreach
  have hclosing : c.Closing := hs.inv.phase.closing hclosed
  have hplaced : c.clerk.placed = c.clerk.threads.flatMap Thread.recs := by
    have hpart : c.clerk.placed = c.clerk.threads.flatMap Thread.recs ++ c.clerk.openRecs :=
      hs.wf.partition
    rw [hpart, hclosing.emptied, List.append_nil]
  have hperm : c.clerk.logged.Perm c.clerk.placed := by
    have hlogged : c.clerk.logged.Perm (persisted c.clerk.threads) := hs.wf.logged
    rwa [persisted_of_done hdone, ← hplaced] at hlogged
  refine ⟨records c.clerk.logged, hs.log, ?_⟩
  have hacks : c.client.acks.map Prod.fst = records c.clerk.placed := by
    rw [← hclosing.books.2, List.map_map]
    rfl
  rw [hacks]
  exact hperm.map Stored.record

/-- Three records of 8184 bytes and one of ten, then `CLOSE`. The open batch is persisted before
the callback and the full one behind it: the log has the four records. -/
theorem four_records_logged :
    ∃ c sh, system.Reachable (c, sh) ∧ c.clerk.pc ≠ .running ∧ sh.log.length = 24562 ∧
      ∃ rs, sh.log = Batch.bytes rs ∧
        rs.Perm (List.replicate 3 (sample 1 8175) ++ [sample 2 1]) := by
  have hlen := length_sample 1 8175 (by decide) (by decide)
  obtain ⟨s₁, ⟨tr₁, hrun₁, -, hcalls₁⟩, hu, -⟩ := (init_untouched boot_init).writes
    (List.replicate 3 (sample 1 8175) ++ [sample 2 1])
  obtain ⟨tr₂, ⟨c, sh⟩, hclose⟩ := hu.close
  obtain ⟨s₂, hstep⟩ := hclose.callback
  obtain ⟨sync, hpc, -⟩ := Conn.callback_step hstep
  obtain ⟨tr₃, word, logged, log, hrun₃, hcalls₃⟩ := all_finish sh hclose.toClient hclose.mu
    fun u hmem => (hclose.news u hmem).imp (hu.pending u) id
  have hrun := (hrun₁.trans hclose.run).trans hrun₃
  have hreach : system.Reachable (_, _) := ⟨boot, _, boot_init, hrun⟩
  have hclosed : c.clerk.pc ≠ .running := by
    rw [hpc]
    simp
  have hacks : c.client.acks.map Prod.fst = List.replicate 3 (sample 1 8175) ++ [sample 2 1] := by
    have hrecs := (run_ledger boot_init hrun).writes
    have hpending : writes c.client.pc.pending = [] := by
      have hclosing := (reachable_sole hreach).inv.phase.closing hclosed
      rcases hclosing.client with h' | h' <;>
        exact (congrArg (fun pc => writes (ClientPc.pending pc)) h').trans rfl
    rw [calls_append, calls_append, hcalls₁, hclose.calls, hcalls₃] at hrecs
    exact (hrecs.trans (congrArg (_ ++ ·) hpending)).trans (List.append_nil _) |>.symm
  obtain ⟨rs, hlog, hperm⟩ := log_complete hreach hclosed (by
    intro t ht
    obtain ⟨u, -, rfl⟩ := List.mem_map.mp ht
    rfl)
  have hperm : rs.Perm (c.client.acks.map Prod.fst) := hperm
  rw [hacks] at hperm
  refine ⟨_, _, hreach, hclosed, ?_, rs, hlog, hperm⟩
  show log.length = _
  have htotal : Batch.total rs = Batch.total (List.replicate 3 (sample 1 8175) ++ [sample 2 1]) :=
    (hperm.map Record.length).sum_nat
  rw [show log = Batch.bytes rs from hlog, Batch.length_bytes, htotal, Batch.total_append,
    Batch.total_replicate, hlen, Batch.total_cons, length_sample]
  rfl

/-! ## Reading the log -/

/-- The assignments of the records that lie one after another in `log`; `n` bounds their
number. -/
def readLog : Nat → Bytes → List (Bytes × Option Bytes)
  | 0, _ => []
  | n + 1, log =>
    if log = [] then []
    else
      let m : Mem := Mem.write (fun _ => 0) 0 log
      (Request.key m, some (m.read (sizeofRequest + Request.keySize m) (Request.valSize m))) ::
        readLog n (log.drop (Request.length m))

/-- Replay the bytes of the log, in file order. -/
def replayLog (db : DB) (log : Bytes) : DB := replay db (readLog log.length log)

/-- A log of whole records reads as these records. -/
theorem readLog_bytes {n : Nat} {rs : List Record} (h : rs.length ≤ n) :
    readLog n (Batch.bytes rs) = Batch.puts rs := by
  induction rs generalizing n with
  | nil => cases n <;> rfl
  | cons r rs ih =>
    obtain ⟨k, rfl⟩ : ∃ k, n = k + 1 := Nat.exists_eq_add_one.mpr (by simp at h; omega)
    have hne : r.encode ++ Batch.bytes rs ≠ [] := by
      intro hnil
      have hlen := r.length_pos
      rw [← Record.length_encode, (List.append_eq_nil_iff.mp hnil).1] at hlen
      exact absurd hlen (by decide)
    obtain ⟨hkey, hval, hlen⟩ := r.fields_of_read (Batch.bytes rs)
      (Mem.read_write (fun _ => 0) 0 (r.encode ++ Batch.bytes rs))
    rw [Batch.bytes_cons, readLog, if_neg hne]
    simp only [hkey, hval, hlen]
    rw [List.drop_left' r.length_encode, ih (by simpa using h)]
    rfl

theorem replayLog_bytes (db : DB) (rs : List Record) :
    replayLog db (Batch.bytes rs) = replay db (Batch.puts rs) := by
  have hle : rs.length ≤ Batch.total rs := by
    induction rs with
    | nil => exact Nat.le_refl 0
    | cons r rs ih =>
      have hpos := r.length_pos
      rw [List.length_cons, Batch.total_cons]
      simp only [sizeofRequest] at hpos
      omega
  rw [replayLog, readLog_bytes (by rwa [Batch.length_bytes])]

/-! ## Order -/

/-- The record `r` of the `i`-th write is in the log, `off` bytes from its start. Equal records
look alike in the file; from which write a part of it came is what `logged` keeps. -/
def LogAt (s : Conn × Shared) (i : Nat) (r : Record) (off : Nat) : Prop :=
  ∃ pre w post, s.1.clerk.logged = pre ++ w :: post ∧ w.seq = i ∧ w.record = r ∧
    s.2.log = Batch.bytes (records pre) ++ r.encode ++ Batch.bytes (records post) ∧
    off = (Batch.bytes (records pre)).length

/-- The log holds the writes in their order, and replaying its bytes gives each key
its last persisted value. -/
structure LogOrdered (s : Conn × Shared) : Prop where
  order : ∀ (i j : Nat) (a b : Record) (m n : Nat), LogAt s i a m → LogAt s j b n → i < j → m < n
  replay : ∀ (db : DB) (i : Nat) (r : Record) (off : Nat), LogAt s i r off →
    (∀ j b n, LogAt s j b n → b.key = r.key → j ≤ i) → replayLog db s.2.log r.key = some r.val

/-- A thread with a batch writes it only if no younger thread has written one. -/
def WritesInOrder (s : Conn × Shared) : Label → Prop
  | .persist i => ∀ t, s.1.clerk.threads[i]? = some t → t.buffer ≠ [] →
      ∀ j > i, ∀ u, s.1.clerk.threads[j]? = some u → u.stage ≠ .pending → u.buffer = []
  | _ => True

/-- The offset of the `n`-th record written. -/
def logOffset (logged : List Stored) (n : Nat) : Nat := Batch.total (records (logged.take n))

theorem logOffset_mono (l : List Stored) {m n : Nat} (h : m ≤ n) :
    logOffset l m ≤ logOffset l n := by
  obtain ⟨d, rfl⟩ := Nat.exists_eq_add_of_le h
  unfold logOffset
  rw [List.take_add, records_append, Batch.total_append]
  omega

/-- A later record lies further on. -/
theorem logOffset_lt {l : List Stored} {m n : Nat} (hm : m < l.length) (h : m < n) :
    logOffset l m < logOffset l n := by
  refine Nat.lt_of_lt_of_le ?_ (logOffset_mono l h)
  unfold logOffset
  rw [List.take_add_one, List.getElem?_eq_getElem hm, records_append, Batch.total_append]
  have hpos := (l[m]).record.length_pos
  simp only [Option.toList_some, records, List.map_cons, List.map_nil, Batch.total_cons,
    Batch.total_nil, sizeofRequest] at hpos ⊢
  omega

/-- Offsets in the order of the writes: the records are written in order. -/
theorem pairwise_of_offsets {l : List Stored} (hnodup : (l.map Stored.seq).Nodup)
    (h : ∀ (m n : Nat) (a b : Stored), l[m]? = some a → l[n]? = some b → a.seq < b.seq →
      logOffset l m < logOffset l n) : l.Pairwise (fun a b => a.seq < b.seq) := by
  rw [List.pairwise_iff_getElem]
  intro i j hi hj hij
  have hne : (l[i]).seq ≠ (l[j]).seq := by
    have := List.pairwise_iff_getElem.mp hnodup i j (by simpa) (by simpa) hij
    simpa using this
  by_contra hnot
  have hlt := h j i l[j] l[i] (by simp) (by simp) (by omega)
  have := logOffset_lt hi hij
  omega

/-- Replaying records written in order gives each key its newest value. -/
theorem replay_of_pairwise {l : List Stored} (hpw : l.Pairwise (fun a b => a.seq < b.seq))
    (db : DB) {w : Stored} (hw : w ∈ l)
    (hmax : ∀ x ∈ l, x.record.key = w.record.key → x.seq ≤ w.seq) :
    replay db (Batch.puts (records l)) w.record.key = some w.record.val := by
  obtain ⟨pre, post, rfl⟩ := List.append_of_mem hw
  -- nothing after `w` has its key
  have hpost : w.record.key ∉ (Batch.puts (records post)).map Prod.fst := by
    intro hmem
    simp only [Batch.puts, records, List.map_map, List.mem_map, Function.comp_apply] at hmem
    obtain ⟨x, hx, hkey⟩ := hmem
    have hle := hmax x (by simp [hx]) hkey
    have hlt := (List.pairwise_cons.mp (List.pairwise_append.mp hpw).2.1).1 x hx
    omega
  have hsplit : Batch.puts (records (pre ++ w :: post)) =
      (Batch.puts (records pre) ++ [(w.record.key, some w.record.val)]) ++
        Batch.puts (records post) := by
    simp [Batch.puts, records]
  rw [hsplit, replay_append, replay_apply, lastOf_eq_none.mpr hpost, replay_snoc]
  simp

/-- The records of the threads are numbered in thread order. -/
theorem Ring.Wf.numbered {g : Ring} (h : g.Wf) :
    (g.threads.flatMap Thread.recs).Pairwise (fun a b => a.seq < b.seq) := by
  have hrange : (g.placed.map Stored.seq).Pairwise (· < ·) := by
    rw [h.seqs]
    exact List.pairwise_lt_range
  rw [List.pairwise_map, h.partition, List.pairwise_append] at hrange
  exact hrange.1

/-- No record is written twice. -/
theorem Ring.Wf.logged_nodup {g : Ring} (h : g.Wf) : (g.logged.map Stored.seq).Nodup := by
  have hsub : (persisted g.threads).Sublist (g.threads.flatMap Thread.recs) := by
    unfold persisted
    generalize g.threads = us
    induction us with
    | nil => exact .slnil
    | cons u us ih =>
      simp only [List.flatMap_cons]
      refine List.Sublist.append ?_ ih
      split
      · exact List.nil_sublist _
      · exact List.Sublist.refl _
  have hnodup : ((persisted g.threads).map Stored.seq).Nodup := by
    have hpw := h.numbered.sublist hsub
    rw [List.Nodup, List.pairwise_map]
    exact hpw.imp (fun hlt heq => by omega)
  exact ((h.logged.map Stored.seq).nodup_iff).mpr hnodup

/-- Where the records of the log are. -/
theorem Sole.logAt_iff {s : Conn × Shared} (h : Sole s) {i : Nat} {r : Record} {off : Nat} :
    LogAt s i r off ↔ ∃ n w, s.1.clerk.logged[n]? = some w ∧ w.seq = i ∧ w.record = r ∧
      off = logOffset s.1.clerk.logged n := by
  constructor
  · rintro ⟨pre, w, post, hsplit, hseq, hrec, -, rfl⟩
    refine ⟨pre.length, w, ?_, hseq, hrec, ?_⟩
    · rw [hsplit]
      simp
    · rw [logOffset, hsplit, List.take_left' rfl, Batch.length_bytes]
  · rintro ⟨n, w, hw, hseq, rfl, rfl⟩
    obtain ⟨hn, rfl⟩ := List.getElem?_eq_some_iff.mp hw
    have hsplit : s.1.clerk.logged = s.1.clerk.logged.take n ++
        (s.1.clerk.logged)[n] :: s.1.clerk.logged.drop (n + 1) := by simp
    refine ⟨_, _, _, hsplit, hseq, rfl, ?_, (Batch.length_bytes _).symm⟩
    rw [h.log, List.append_assoc]
    nth_rewrite 1 [hsplit]
    rw [records_append, Batch.bytes_append]
    rfl

theorem logOrdered_iff {s : Conn × Shared} (h : Sole s) :
    LogOrdered s ↔ s.1.clerk.logged.Pairwise (fun a b => a.seq < b.seq) := by
  constructor
  · intro ho
    refine pairwise_of_offsets h.wf.logged_nodup fun m n a b ha hb hlt => ?_
    exact ho.order a.seq b.seq a.record b.record _ _ (h.logAt_iff.mpr ⟨m, a, ha, rfl, rfl, rfl⟩)
      (h.logAt_iff.mpr ⟨n, b, hb, rfl, rfl, rfl⟩) hlt
  · intro hpw
    refine ⟨fun i j a b m n ha hb hlt => ?_, fun db i r off hat hmax => ?_⟩
    · obtain ⟨m, v, hv, rfl, rfl, rfl⟩ := h.logAt_iff.mp ha
      obtain ⟨n, w, hw, rfl, rfl, rfl⟩ := h.logAt_iff.mp hb
      obtain ⟨hm, rfl⟩ := List.getElem?_eq_some_iff.mp hv
      obtain ⟨hn, rfl⟩ := List.getElem?_eq_some_iff.mp hw
      rcases Nat.lt_trichotomy m n with hmn | rfl | hmn
      · exact logOffset_lt hm hmn
      · omega
      · have := List.pairwise_iff_getElem.mp hpw n m hn hm hmn
        omega
    · obtain ⟨n, w, hw, rfl, rfl, -⟩ := h.logAt_iff.mp hat
      rw [h.log, replayLog_bytes]
      refine replay_of_pairwise hpw db (List.mem_of_getElem? hw) fun x hx hkey => ?_
      obtain ⟨k, hk⟩ := List.getElem?_of_mem hx
      exact hmax x.seq x.record _ (h.logAt_iff.mpr ⟨k, x, hk, rfl, rfl, rfl⟩) hkey

theorem Thread.Wf.buffer_eq_nil {u : Thread} (h : u.Wf) : u.buffer = [] ↔ u.recs = [] := by
  rw [h.buffer, ← List.length_eq_zero_iff, Batch.length_bytes, Batch.total_eq_zero]
  exact List.map_eq_nil_iff

/-- A thread's append keeps the order exactly when no younger thread has
written a batch. -/
theorem append_ordered_iff {s : Conn × Shared} (h : Sound s) {i : Nat} {t : Thread}
    (ht : s.1.clerk.threads[i]? = some t) (hst : t.stage = .pending)
    (hpw : s.1.clerk.logged.Pairwise (fun a b => a.seq < b.seq)) :
    (s.1.clerk.logged ++ t.recs).Pairwise (fun a b => a.seq < b.seq) ↔
      WritesInOrder s (.persist i) := by
  obtain ⟨hinner, hacross⟩ := List.pairwise_flatMap.mp h.wf.numbered
  have hacross := List.pairwise_iff_getElem.mp hacross
  obtain ⟨hi, hti⟩ := List.getElem?_eq_some_iff.mp ht
  have hwf : ∀ {k : Nat} {v : Thread}, s.1.clerk.threads[k]? = some v → v.Wf :=
    fun hv => (h.wf.chain.bounds.2 _ (List.mem_of_getElem? hv)).1
  rw [List.pairwise_append]
  constructor
  · rintro ⟨-, -, hbefore⟩ t' ht' hne j hj u hu hnp
    rw [ht] at ht'
    cases ht'
    rw [ne_eq, (hwf ht).buffer_eq_nil] at hne
    rw [(hwf hu).buffer_eq_nil]
    obtain ⟨hj', huj⟩ := List.getElem?_eq_some_iff.mp hu
    by_contra hune
    obtain ⟨b, hb⟩ := List.exists_mem_of_ne_nil _ hne
    obtain ⟨a, ha⟩ := List.exists_mem_of_ne_nil _ hune
    have halog : a ∈ s.1.clerk.logged :=
      h.wf.logged.mem_iff.mpr (mem_persisted.mpr ⟨j, u, hu, hnp, ha⟩)
    have hlt := hbefore a halog b hb
    have hgt := hacross i j hi hj' hj b (hti ▸ hb) a (huj ▸ ha)
    omega
  · intro hord
    refine ⟨hpw, hinner t (List.mem_of_getElem? ht), fun a ha b hb => ?_⟩
    obtain ⟨j, u, hu, hnp, hau⟩ := mem_persisted.mp (h.wf.logged.mem_iff.mp ha)
    have hu : s.1.clerk.threads[j]? = some u := hu
    obtain ⟨hj, huj⟩ := List.getElem?_eq_some_iff.mp hu
    rcases Nat.lt_trichotomy j i with hji | rfl | hji
    · exact hacross j i hj hi hji a (huj ▸ hau) b (hti ▸ hb)
    · rw [hu] at ht
      cases ht
      exact absurd hst hnp
    · have hne : t.buffer ≠ [] := by
        rw [ne_eq, (hwf ht).buffer_eq_nil]
        exact List.ne_nil_of_mem hb
      have hnil := (hwf hu).buffer_eq_nil.mp (hord t ht hne j hji u hu hnp)
      rw [hnil] at hau
      cases hau

/-- The log is in the order of the writes throughout a run exactly when, in
every step of the run, a thread writes its batch before all younger ones. -/
theorem log_ordered_iff {s₀ s : Conn × Shared} {tr : List ((Conn × Shared) × Label)}
    (hinit : system.init s₀) (hrun : system.Run s₀ tr s) :
    Throughout LogOrdered tr s ↔ Meets WritesInOrder tr := by
  have hs₀ := init_sole hinit
  refine hrun.all_iff (fun _ _ => True) hs₀ ?_ (fun s l s' h _ => h.step) ?_
    (fun _ _ => trivial)
  · rw [logOrdered_iff hs₀]
    obtain ⟨-, writeBuf, flag, m, m', -, hs⟩ := hinit
    rw [hs]
    exact .nil
  · intro s l s' hs hP _ hstep
    rw [logOrdered_iff hs] at hP
    rw [logOrdered_iff (hs.step hstep)]
    by_cases hl : ∃ i, l = .persist i
    · obtain ⟨i, rfl⟩ := hl
      obtain ⟨t, ht, hst, -, hs', -⟩ := Conn.persist_step hstep
      rw [hs']
      exact append_ordered_iff hs.toSound ht hst hP
    · have hlogged := (Conn.step_logged hs.inv (fun i hi => hl ⟨i, hi⟩) hstep).1
      rw [hlogged]
      refine ⟨fun _ => ?_, fun _ => hP⟩
      cases l with
      | persist i => exact absurd ⟨i, rfl⟩ hl
      | _ => trivial

/-! ## Two batches -/

/-- A batch that is full has at least three records. -/
theorem three_le_of_full {u : Thread} (h : batchSize ≤ u.size) : 3 ≤ u.recs.length := by
  have hle : ∀ ws : List Stored, Batch.total (records ws) ≤ ws.length * 8184 := by
    intro ws
    induction ws with
    | nil => exact Nat.le_refl 0
    | cons w ws ih =>
      have hw : w.record.length ≤ 8184 := w.record.length_le
      simp only [records, List.map_cons, Batch.total_cons, List.length_cons] at ih ⊢
      omega
  have hsize : 16384 ≤ Batch.total (records u.recs) := h
  have := hle u.recs
  omega

/-- Six records of some 8000 bytes make two full batches. -/
theorem two_full_batches {old new : Record} (ho : old.length = 8184) (hn : new.length = 8183) :
    ∃ c sh t₀ t₁,
      Drives ((List.replicate 3 old ++ List.replicate 3 new).map .write) boot (c, sh) ∧
      Untouched (c, sh) ∧
      c.client.acks.map Prod.fst = List.replicate 3 old ++ List.replicate 3 new ∧
      c.clerk.threads = [t₀, t₁] ∧ sh.log = [] ∧
      t₀.buffer = Batch.bytes (List.replicate 3 old) ∧
      t₁.buffer = Batch.bytes (List.replicate 3 new) := by
  obtain ⟨⟨c, sh⟩, hd, hu, hring, -⟩ :=
    (init_untouched boot_init).writes (List.replicate 3 old ++ List.replicate 3 new)
  have hload : c.ring.load = (49109, 0, 2) := by
    rw [show c.ring = _ from hring, Ring.load_writes, List.map_append, List.map_replicate,
      List.map_replicate, ho, hn, boot_load]
    decide
  have hplaced : records c.ring.placed = List.replicate 3 old ++ List.replicate 3 new := by
    rw [show c.ring = _ from hring, Ring.records_placed_writes]
    rfl
  have hfull : ∀ u ∈ c.ring.threads, batchSize ≤ u.size := by
    rw [show c.ring = _ from hring]
    refine Ring.full_writes ?_ (by simp [boot, Conn.ring, Conn.fresh])
    rw [Batch.total_append, Batch.total_replicate, Batch.total_replicate, ho, hn]
    decide
  have hopen : c.ring.openRecs = [] := by
    have hsize : Batch.total (records c.ring.openRecs) = 0 := congrArg (fun p => p.2.1) hload
    exact List.map_eq_nil_iff.mp (Batch.total_eq_zero.mp hsize)
  obtain ⟨t₀, t₁, hthreads⟩ : ∃ t₀ t₁, c.ring.threads = [t₀, t₁] :=
    List.length_eq_two.mp (congrArg (fun p => p.2.2) hload)
  -- each of the two has three of the six records
  have hsplit : records t₀.recs ++ records t₁.recs =
      List.replicate 3 old ++ List.replicate 3 new := by
    have hpart : c.ring.placed = c.ring.threads.flatMap Thread.recs ++ c.ring.openRecs :=
      hu.atRest.sound.wf.partition
    rw [hthreads, hopen] at hpart
    rw [← hplaced, hpart, ← records_append]
    simp
  have hthree : (records t₀.recs).length = (List.replicate 3 old).length := by
    have h₀ := three_le_of_full (hfull t₀ (by simp [hthreads]))
    have h₁ := three_le_of_full (hfull t₁ (by simp [hthreads]))
    have hsum := congrArg List.length hsplit
    simp only [records, List.length_append, List.length_map, List.length_replicate] at hsum ⊢
    omega
  obtain ⟨hrecs₀, hrecs₁⟩ := List.append_inj hsplit hthree
  have hwf : ∀ u ∈ c.ring.threads, u.buffer = Batch.bytes (records u.recs) :=
    fun u hmem => (hu.atRest.sound.wf.chain.bounds.2 u hmem).1.buffer
  refine ⟨c, sh, t₀, t₁, hd, hu, ?_, hthreads, ?_, ?_, ?_⟩
  · rw [← hplaced]
    exact hu.atRest.acked_eq
  · obtain ⟨tr, hrun, -⟩ := hd
    rw [(reachable_sole ⟨boot, tr, boot_init, hrun⟩).log, show (c, sh).1.clerk.logged = [] from
      hu.logged]
    rfl
  · rw [hwf t₀ (by simp [hthreads]), hrecs₀]
  · rw [hwf t₁ (by simp [hthreads]), hrecs₁]

theorem bytes_replicate_ne_nil (r : Record) : Batch.bytes (List.replicate 3 r) ≠ [] := by
  intro hnil
  have hlen := congrArg List.length hnil
  have hpos := r.length_pos
  rw [Batch.length_bytes, Batch.total_replicate] at hlen
  simp only [sizeofRequest, List.length_nil] at hpos hlen
  omega

/-- The two threads append their batches in order: the log has the records as they were
written, and a replay gives the newer value. -/
theorem older_batch_first :
    ∃ tr s, system.Run boot tr s ∧
      s.2.log = Batch.bytes (List.replicate 3 (sample 1 8175) ++ List.replicate 3 (sample 1 8174)) ∧
      (∀ db, replayLog db s.2.log [1] = some (List.replicate 8174 1)) ∧
      Throughout LogOrdered tr s := by
  obtain ⟨c, sh, t₀, t₁, ⟨tr₁, hrun₁, hno, -⟩, hu, -, hthreads, hlog, hbuf₀, hbuf₁⟩ :=
    two_full_batches (length_sample 1 8175 (by decide) (by decide))
      (length_sample 1 8174 (by decide) (by decide))
  have hpend : ∀ u ∈ c.clerk.threads, u.stage = .pending := hu.pending
  have ht₀ : c.clerk.threads[0]? = some t₀ := by
    rw [hthreads]
    rfl
  obtain ⟨tr₂, hrun₂, -, hlabels⟩ := thread_finishes sh hu.atRest.toClient hu.mu ht₀
    (hpend t₀ (List.mem_of_getElem? ht₀))
  have hafter : (c.finished 0 t₀).clerk.threads = [{ t₀ with stage := .done }, t₁] := by
    show c.clerk.threads.modify 0 _ = _
    rw [hthreads]
    rfl
  have ht₁ : (c.finished 0 t₀).clerk.threads[1]? = some t₁ := by
    rw [hafter]
    rfl
  have hstep := thread_appends (c := c.finished 0 t₀) { sh with log := sh.log ++ t₀.buffer } rfl ht₁
    (hpend t₁ (by rw [hthreads]; simp))
  have hrun := (hrun₁.trans hrun₂).snoc hstep
  have hord : Meets WritesInOrder
      (tr₁ ++ tr₂ ++ [((c.finished 0 t₀, { sh with log := sh.log ++ t₀.buffer }),
        .persist 1)]) := by
    refine meets_snoc.mpr ⟨meets_append.mpr ⟨hno.mono fun s l h => ?_,
      meets_of_persist hlabels ?_ (fun _ => trivial) (fun _ => trivial)⟩, ?_⟩
    · cases l with
      | persist i => exact h.elim
      | _ => trivial
    · -- nobody has run
      intro t ht hbuf j hj u hmem hstage
      exact absurd (hpend u (List.mem_of_getElem? hmem)) hstage
    · -- the second thread is the youngest
      intro t ht hbuf j hj u hmem
      rw [hafter, List.getElem?_eq_none (by simp; omega)] at hmem
      cases hmem
  have hlogged : (sh.log ++ t₀.buffer) ++ t₁.buffer =
      Batch.bytes (List.replicate 3 (sample 1 8175) ++ List.replicate 3 (sample 1 8174)) := by
    rw [hlog, hbuf₀, hbuf₁, Batch.bytes_append, List.nil_append]
  refine ⟨_, _, hrun, hlogged, fun db => ?_, (log_ordered_iff boot_init hrun).mpr hord⟩
  rw [show _ = _ from hlogged, replayLog_bytes]
  rfl

/-- The thread of the second batch gets the mutex first: the log has the last three records
first. -/
theorem younger_batch_first {old new : Record} (ho : old.length = 8184) (hn : new.length = 8183) :
    ∃ tr s, system.Run boot tr s ∧
      calls tr = (List.replicate 3 old ++ List.replicate 3 new).map .write ∧
      s.1.client.acks.map Prod.fst = List.replicate 3 old ++ List.replicate 3 new ∧
      s.2.log = Batch.bytes (List.replicate 3 new ++ List.replicate 3 old) ∧ ¬ LogOrdered s := by
  obtain ⟨c, sh, t₀, t₁, ⟨tr₁, hrun₁, -, hcalls₁⟩, hu, hacks, hthreads, hlog, hbuf₀, hbuf₁⟩ :=
    two_full_batches ho hn
  have hpend : ∀ u ∈ c.clerk.threads, u.stage = .pending := hu.pending
  rw [hthreads] at hpend
  -- the second thread runs to its end, then the first one writes its batch
  obtain ⟨tr₂, hrun₂, hcalls₂, -⟩ := thread_finishes (i := 1) (t := t₁) sh hu.atRest.toClient hu.mu
    (by rw [hthreads]; rfl) (hpend t₁ (by simp))
  have hafter : (c.finished 1 t₁).clerk.threads = [t₀, { t₁ with stage := .done }] := by
    show c.clerk.threads.modify 1 _ = _
    rw [hthreads]
    rfl
  have ht₀ : (c.finished 1 t₁).clerk.threads[0]? = some t₀ := by
    rw [hafter]
    rfl
  have ht₁ : (c.finished 1 t₁).clerk.threads[1]? = some { t₁ with stage := .done } := by
    rw [hafter]
    rfl
  have hstep := thread_appends (c := c.finished 1 t₁) { sh with log := sh.log ++ t₁.buffer } rfl ht₀
    (hpend t₀ (by simp))
  have hrun := hrun₁.trans hrun₂
  have hs₁ := reachable_sole ⟨boot, _, boot_init, hrun⟩
  have hs₂ := reachable_sole ⟨boot, _, boot_init, hrun.snoc hstep⟩
  refine ⟨_, _, hrun.snoc hstep, ?_, hacks, ?_, fun hord => ?_⟩
  · rw [calls_append, calls_append, hcalls₁, hcalls₂]
    rfl
  · show (sh.log ++ t₁.buffer) ++ t₀.buffer = _
    rw [hlog, hbuf₀, hbuf₁, Batch.bytes_append, List.nil_append]
  · rw [logOrdered_iff hs₂] at hord
    have hord : ((c.finished 1 t₁).clerk.logged ++ t₀.recs).Pairwise
      (fun a b => a.seq < b.seq) := hord
    have hpw := (List.pairwise_append.mp hord).1
    rw [append_ordered_iff hs₁.toSound ht₀ (hpend t₀ (by simp)) hpw] at hord
    have hne : t₀.buffer ≠ [] := by
      rw [hbuf₀]
      exact bytes_replicate_ne_nil old
    have hnil := hord t₀ ht₀ hne 1 (by decide) _ ht₁ (by simp)
    exact bytes_replicate_ne_nil new (hbuf₁.symm.trans hnil)

/-- Three writes of a value to a key and three of another value to the same key, all
acknowledged: in the log the older ones are last, and a replay brings the older value back. -/
theorem younger_batch_first_sample :
    ∃ tr s, system.Run boot tr s ∧
      calls tr = (List.replicate 3 (sample 1 8175) ++ List.replicate 3 (sample 1 8174)).map .write ∧
      s.1.client.acks.map Prod.fst =
        List.replicate 3 (sample 1 8175) ++ List.replicate 3 (sample 1 8174) ∧
      s.2.log = Batch.bytes (List.replicate 3 (sample 1 8174) ++ List.replicate 3 (sample 1 8175)) ∧
      (∀ db, replayLog db s.2.log [1] = some (List.replicate 8175 1)) ∧ ¬ LogOrdered s := by
  obtain ⟨tr, s, hrun, hcalls, hacks, hlog, hnot⟩ := younger_batch_first
    (length_sample 1 8175 (by decide) (by decide)) (length_sample 1 8174 (by decide) (by decide))
  refine ⟨tr, s, hrun, hcalls, hacks, hlog, fun db => ?_, hnot⟩
  rw [hlog, replayLog_bytes]
  rfl

end LogDirect.Hybrid
