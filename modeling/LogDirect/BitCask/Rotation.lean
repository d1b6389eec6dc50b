import LogDirect.BitCask.Writers

/-!
# BitCask: new segments

When an append is refused, `Put` and `PutBatch` try to take `global_lock_` and create the next
data file (`db_impl.cc`, lines 58–71 and 104–117). They do not look again, under the lock, at
which file is the last one and whether it is full: of the calls that one full segment has
refused, each one that gets the lock creates a file.
-/

namespace LogDirect.BitCask

open Lib

/-- The segment has no room. -/
def DBImpl.Full (db : DBImpl) (i : Nat) : Prop :=
  ∃ f, db.dataFiles i = some f ∧ segmentSize ≤ f.fileOffset

/-- Every data file but the last one is full. -/
def Writers.Rotated (s : Writers) : Prop := ∀ i, i + 1 < s.db.fileNum → s.db.Full i

/-- A call takes the lock to create a data file only while the one that refused it is the last. -/
def Writers.RefusedByLast (s : Writers) : WriterLabel → Prop
  | .call _ => True
  | .go i => ∀ m fi, s.calls[i]? = some (m, .full fi) → s.lock = false → fi + 1 = s.db.fileNum

/-- The segment that refused a call whose next step creates a data file. -/
def WriterPc.creates : WriterPc → Option Nat
  | .creating fi => some fi
  | _ => none

/-- The segment a step creates a data file for. -/
def createdFor : Writers × WriterLabel → Option Nat
  | (_, .call _) => none
  | (s, .go i) => s.calls[i]?.bind fun c => c.2.creates

/-! ## What a step does to the segments -/

variable {db : DBImpl} {sync : Bool} {tr : List (Writers × WriterLabel)} {s : Writers}

theorem DBImpl.Full.setDataFile {i fi : Nat} {f g : File} (h : db.Full i)
    (hf : db.dataFiles fi = some f) (hg : segmentSize ≤ f.fileOffset → segmentSize ≤ g.fileOffset) :
    (db.setDataFile fi g).Full i := by
  obtain ⟨f', hf', hfull⟩ := h
  by_cases hi : i = fi
  · subst hi
    rw [hf] at hf'
    cases hf'
    exact ⟨g, DBImpl.setDataFile_dataFiles .., hg hfull⟩
  · exact ⟨f', (Function.update_of_ne hi ..).trans hf', hfull⟩

theorem DBImpl.full_newSegment {i : Nat} (hi : i < db.fileNum) :
    db.newSegment.Full i ↔ db.Full i := by
  have hsame : db.newSegment.dataFiles i = db.dataFiles i :=
    Function.update_of_ne (Nat.ne_of_lt hi) ..
  rw [DBImpl.Full, hsame]
  rfl

theorem DBImpl.fileOffset_syncData (db : DBImpl) (f : File) :
    (db.syncData f).fileOffset = f.fileOffset := by
  unfold DBImpl.syncData
  split
  · rfl
  · rfl

/-- Only a creation changes the number of segments, and what is full stays full. -/
theorem Moves.segments {m : Mutation} {db' : DBImpl} {lock lock' : Bool} {pc pc' : WriterPc}
    (h : Moves m db lock pc pc' db' lock') :
    (∃ fi, pc = .creating fi ∧ pc' = .entered ∧ db' = db.newSegment ∧ lock' = false) ∨
      (pc.creates = none ∧ db'.fileNum = db.fileNum ∧ ∀ i, db.Full i → db'.Full i) := by
  cases h with
  | absent | found | acquire | choose | refused | retry | tryLock | finish | insert | log | erase =>
    exact .inr ⟨rfl, rfl, fun i hi => hi⟩
  | reserve hf hroom =>
    refine .inr ⟨rfl, rfl, fun i hi => hi.setDataFile hf fun hfull => ?_⟩
    exact absurd hroom (Nat.not_lt.mpr hfull)
  | pwrite hf => exact .inr ⟨rfl, rfl, fun i hi => hi.setDataFile hf id⟩
  | sync hf =>
    refine .inr ⟨rfl, rfl, fun i hi => hi.setDataFile hf ?_⟩
    rw [DBImpl.fileOffset_syncData]
    exact id
  | create => exact .inl ⟨_, rfl, rfl, rfl, rfl⟩

/-! ## What a call knows -/

/-- The call is inside the lock. -/
def WriterPc.inLock : WriterPc → Bool
  | .locked => true
  | .creating _ => true
  | _ => false

/-- The file a call has read `file_num_` for. -/
def WriterPc.file : WriterPc → Option Nat
  | .chosen fi => some fi
  | .full fi => some fi
  | .creating fi => some fi
  | _ => none

/-- The file whose append has failed. -/
def WriterPc.refusal : WriterPc → Option Nat
  | .full fi => some fi
  | .creating fi => some fi
  | _ => none

section Moves

variable {m : Mutation} {db db' : DBImpl} {lock lock' : Bool} {pc pc' : WriterPc} {fi : Nat}

/-- The lock is taken and released with what it protects. -/
theorem Moves.inLock (h : Moves m db lock pc pc' db' lock') (hheld : pc.inLock → lock) :
    (if lock' then 1 else 0) + (if pc.inLock then 1 else 0) =
      (if lock then 1 else 0) + if pc'.inLock then 1 else 0 := by
  cases h with
  | acquire | tryLock => rfl
  | choose | create =>
    rw [hheld rfl]
    rfl
  | _ => rfl

theorem Moves.file (h : Moves m db lock pc pc' db' lock') (hfile : pc'.file = some fi) :
    pc.file = some fi ∨ fi = db.fileNum - 1 := by
  cases h with
  | choose => exact .inr (Option.some.inj hfile).symm
  | refused | tryLock => exact .inl hfile
  | _ => cases hfile

theorem Moves.refusal (h : Moves m db lock pc pc' db' lock') (hfi : pc'.refusal = some fi) :
    db' = db ∧ (pc.refusal = some fi ∨ db.Full fi) := by
  cases h with
  | refused hf hfull =>
    cases hfi
    exact ⟨rfl, .inr ⟨_, hf, hfull⟩⟩
  | tryLock => exact ⟨rfl, .inl hfi⟩
  | _ => cases hfi

/-- The lock was free. -/
theorem Moves.creates (h : Moves m db lock pc pc' db' lock') (hfi : pc'.creates = some fi) :
    pc = .full fi ∧ lock = false ∧ db' = db := by
  cases h with
  | tryLock =>
    cases hfi
    exact ⟨rfl, rfl, rfl⟩
  | _ => cases hfi

end Moves

/-! ## Runs -/

/-- One call at most is inside the lock, the file it may be about to create is the next one, and
what has refused a call is full. -/
structure Writers.Orderly (s : Writers) : Prop where
  pos : 0 < s.db.fileNum
  lock : s.calls.countP (fun c => c.2.inLock) = if s.lock then 1 else 0
  file : ∀ c ∈ s.calls, ∀ fi, c.2.file = some fi → fi < s.db.fileNum
  refusal : ∀ c ∈ s.calls, ∀ fi, c.2.refusal = some fi → s.db.Full fi
  creates : ∀ c ∈ s.calls, ∀ fi, c.2.creates = some fi → fi + 1 = s.db.fileNum
  rotated : s.Rotated

theorem start_orderly (sync : Bool) : (Writers.start (.create sync)).Orderly where
  pos := Nat.one_pos
  lock := rfl
  file := by simp [Writers.start]
  refusal := by simp [Writers.start]
  creates := by simp [Writers.start]
  rotated := by
    intro i hi
    exact absurd hi (by simp [Writers.start, DBImpl.create])

namespace Writers.Orderly

variable {s s' : Writers} {i : Nat} {m : Mutation} {pc pc' : WriterPc}

theorem held (h : s.Orderly) {c : Mutation × WriterPc} (hc : c ∈ s.calls) (hin : c.2.inLock) :
    s.lock := by
  have hpos : 0 < s.calls.countP fun c => c.2.inLock := List.countP_pos_iff.mpr ⟨c, hc, hin⟩
  rw [h.lock] at hpos
  by_contra hfree
  rw [if_neg hfree] at hpos
  exact absurd hpos (Nat.lt_irrefl 0)

theorem lock_step (h : s.Orderly) (hc : s.calls[i]? = some (m, pc))
    (hmove : Moves m s.db s.lock pc pc' s'.db s'.lock)
    (hcalls : s'.calls = s.calls.set i (m, pc')) :
    s'.calls.countP (fun c => c.2.inLock) = if s'.lock then 1 else 0 := by
  have hcount := countP_set_add hc (fun c => c.2.inLock) (m, pc')
  have hlock := hmove.inLock (h.held (List.mem_of_getElem? hc))
  rw [hcalls]
  rw [h.lock] at hcount
  dsimp only at hcount
  omega

/-- A call creates the next data file. -/
theorem create (h : s.Orderly) {fi : Nat} (hc : s.calls[i]? = some (m, .creating fi))
    (hdb : s'.db = s.db.newSegment) (hcalls : s'.calls = s.calls.set i (m, .entered))
    (hlock : s'.calls.countP (fun c => c.2.inLock) = if s'.lock then 1 else 0)
    (hfree : s'.lock = false) : s'.Orderly := by
  have hmem := List.mem_of_getElem? hc
  have hlast : fi + 1 = s.db.fileNum := h.creates _ hmem fi rfl
  have hnum : s'.db.fileNum = s.db.fileNum + 1 := by rw [hdb]; rfl
  have hold : ∀ c ∈ s'.calls, c = (m, .entered) ∨ c ∈ s.calls := by
    intro c hc'
    rw [hcalls] at hc'
    exact mem_of_mem_set hc'
  refine ⟨by omega, hlock, ?_, ?_, ?_, ?_⟩
  · intro c hc' fj hfj
    rcases hold c hc' with rfl | hc'
    · cases hfj
    · have := h.file c hc' fj hfj
      omega
  · intro c hc' fj hfj
    rcases hold c hc' with rfl | hc'
    · cases hfj
    · have hfile : c.2.file = some fj := by
        obtain ⟨m', pc⟩ := c
        cases pc <;> first | exact hfj | cases hfj
      rw [hdb, DBImpl.full_newSegment (h.file c hc' fj hfile)]
      exact h.refusal c hc' fj hfj
  · -- nobody else is inside the lock
    intro c hc' fj hfj
    rw [hfree, if_neg Bool.false_ne_true, List.countP_eq_zero] at hlock
    obtain ⟨m', pc⟩ := c
    cases pc with
    | creating fk => exact absurd rfl (hlock _ hc')
    | _ => cases hfj
  · intro j hj
    rw [hnum] at hj
    rw [hdb, DBImpl.full_newSegment (by omega)]
    by_cases hjfi : j = fi
    · subst hjfi
      exact h.refusal _ hmem j rfl
    · exact h.rotated j (by omega)

/-- A step of a call that takes the lock in time. -/
theorem go (h : s.Orderly) (hok : s.RefusedByLast (.go i)) (hstep : s.step (.go i) = some s') :
    s'.Orderly := by
  obtain ⟨m, pc, pc', hc, hmove, hcalls⟩ := Writers.step_go hstep
  have hlock := h.lock_step hc hmove hcalls
  have hmem := List.mem_of_getElem? hc
  rcases hmove.segments with ⟨fi, rfl, rfl, hdb, hfree⟩ | ⟨hpc, hnum, hfull⟩
  · exact h.create hc hdb hcalls hlock hfree
  have hold : ∀ c ∈ s'.calls, c = (m, pc') ∨ c ∈ s.calls := by
    intro c hc'
    rw [hcalls] at hc'
    exact mem_of_mem_set hc'
  refine ⟨hnum ▸ h.pos, hlock, ?_, ?_, ?_, ?_⟩
  · intro c hc' fi hfi
    rw [hnum]
    rcases hold c hc' with rfl | hc'
    · rcases hmove.file hfi with hfi | rfl
      · exact h.file _ hmem fi hfi
      · exact Nat.sub_lt h.pos Nat.one_pos
    · exact h.file c hc' fi hfi
  · intro c hc' fi hfi
    rcases hold c hc' with rfl | hc'
    · obtain ⟨hdb, hfi | hfi⟩ := hmove.refusal hfi
      · exact hfull fi (h.refusal _ hmem fi hfi)
      · exact hfull fi hfi
    · exact hfull fi (h.refusal c hc' fi hfi)
  · intro c hc' fi hfi
    rw [hnum]
    rcases hold c hc' with rfl | hc'
    · obtain ⟨rfl, hfree, -⟩ := hmove.creates hfi
      exact hok m fi hc hfree
    · exact h.creates c hc' fi hfi
  · intro j hj
    rw [hnum] at hj
    exact hfull j (h.rotated j hj)

theorem step {label : WriterLabel} (h : s.Orderly) (hok : s.RefusedByLast label)
    (hstep : s.step label = some s') : s'.Orderly := by
  cases label with
  | go i => exact h.go hok hstep
  | call m =>
    cases hstep
    have hnew : ∀ c ∈ s.calls ++ [(m, .entered)], c ∈ s.calls ∨ c = (m, WriterPc.entered) := by
      intro c hc
      rcases List.mem_append.mp hc with hc | hc
      · exact .inl hc
      · exact .inr (List.mem_singleton.mp hc)
    refine ⟨h.pos, ?_, ?_, ?_, ?_, h.rotated⟩
    · rw [List.countP_append, h.lock]
      rfl
    · intro c hc fi hfi
      rcases hnew c hc with hc | rfl
      · exact h.file c hc fi hfi
      · cases hfi
    · intro c hc fi hfi
      rcases hnew c hc with hc | rfl
      · exact h.refusal c hc fi hfi
      · cases hfi
    · intro c hc fi hfi
      rcases hnew c hc with hc | rfl
      · exact h.creates c hc fi hfi
      · cases hfi

end Writers.Orderly

theorem orderly_run (hrun : (writers sync).Run (.start (.create sync)) tr s)
    (hmeets : TSys.Meets Writers.RefusedByLast tr) : s.Orderly :=
  hrun.invariant (start_orderly sync) (fun _ _ _ h hok hstep => h.step hok hstep) hmeets

/-- Each segment but the last one has caused one creation, in order. -/
theorem created_eq_range (hrun : (writers sync).Run (.start (.create sync)) tr s)
    (hmeets : TSys.Meets Writers.RefusedByLast tr) :
    tr.filterMap createdFor = List.range (s.db.fileNum - 1) := by
  induction hrun with
  | nil => rfl
  | @snoc tr s label s' hrun hstep ih =>
    rw [TSys.meets_snoc] at hmeets
    have horder := orderly_run hrun hmeets.1
    rw [List.filterMap_append, ih hmeets.1]
    cases label with
    | call m =>
      cases hstep
      exact List.append_nil _
    | go i =>
      obtain ⟨m, pc, pc', hc, hmove, -⟩ := Writers.step_go hstep
      have hone : [(s, WriterLabel.go i)].filterMap createdFor = pc.creates.toList := by
        have hfor : createdFor (s, .go i) = pc.creates := by
          rw [createdFor, hc]
          rfl
        rw [List.filterMap_cons, hfor, List.filterMap_nil]
        cases pc.creates <;> rfl
      rw [hone]
      rcases hmove.segments with ⟨fi, rfl, -, hdb, -⟩ | ⟨hpc, hnum, -⟩
      · have hlast : fi + 1 = s.db.fileNum := horder.creates _ (List.mem_of_getElem? hc) fi rfl
        have hnum : s'.db.fileNum = fi + 1 + 1 := by
          rw [hdb, hlast]
          rfl
        rw [hnum, ← hlast, Nat.add_sub_cancel, Nat.add_sub_cancel, List.range_succ]
        rfl
      · rw [hpc, hnum]
        exact List.append_nil _

/-! ## Calls that one full segment refuses -/

section Refused

variable {s : Writers} {i : Nat} {m : Mutation}

theorem Writers.step_of_advance {sync : Bool} {pc pc' : WriterPc} {db' : DBImpl} {lock' : Bool}
    (hc : s.calls[i]? = some (m, pc)) (h : advance m s.db s.lock pc = some (pc', db', lock')) :
    (writers sync).step s (.go i) = some ⟨db', lock', s.calls.set i (m, pc')⟩ := by
  show Writers.step s (.go i) = _
  simp only [Writers.step, hc, h]
  rfl

theorem getElem?_set_of_some {α : Type} {l : List α} {i : Nat} {x y : α} (h : l[i]? = some x) :
    (l.set i y)[i]? = some y := by
  rw [List.getElem?_set_self (List.getElem?_eq_some_iff.mp h).1]

/-- A step of a call that has not been refused. -/
theorem refusedByLast_of_refusal {pc : WriterPc} (hc : s.calls[i]? = some (m, pc))
    (hpc : pc.refusal = none) : s.RefusedByLast (.go i) := by
  intro m' fi hc'
  rw [hc] at hc'
  cases hc'
  cases hpc

variable (sync : Bool)

/-- A call that has chosen the last segment. -/
theorem run_chosen (hc : s.calls[i]? = some (m, .entered)) (hm : ∀ key, m ≠ .delete key)
    (hlock : s.lock = false) :
    ∃ tr, (writers sync).Run s tr ⟨s.db, false, s.calls.set i (m, .chosen (s.db.fileNum - 1))⟩ ∧
      TSys.Meets Writers.RefusedByLast tr := by
  have hlocked : (writers sync).step s (.go i) = some ⟨s.db, true, s.calls.set i (m, .locked)⟩ := by
    refine Writers.step_of_advance hc ?_
    rw [hlock]
    cases m with
    | put r => rfl
    | putBatch b => rfl
    | delete key => exact absurd rfl (hm key)
  have hset := getElem?_set_of_some (y := (m, WriterPc.locked)) hc
  have hchosen : (writers sync).step ⟨s.db, true, s.calls.set i (m, .locked)⟩ (.go i) =
      some ⟨s.db, false, s.calls.set i (m, .chosen (s.db.fileNum - 1))⟩ := by
    rw [Writers.step_of_advance hset rfl, List.set_set]
  refine ⟨_, (TSys.Run.nil.snoc hlocked).snoc hchosen, ?_⟩
  rw [TSys.meets_snoc, TSys.meets_snoc]
  exact ⟨⟨.nil, refusedByLast_of_refusal hc rfl⟩, refusedByLast_of_refusal hset rfl⟩

/-- A call that reserves. -/
theorem run_reserved {f : File} (hc : s.calls[i]? = some (m, .entered))
    (hm : ∀ key, m ≠ .delete key) (hlock : s.lock = false)
    (hf : s.db.dataFiles (s.db.fileNum - 1) = some f) (hroom : f.fileOffset < segmentSize) :
    ∃ tr, (writers sync).Run s tr ⟨s.db.setDataFile (s.db.fileNum - 1)
        ⟨f.held, f.chunks, u32 (f.fileOffset + m.size), f.synced⟩, false,
        s.calls.set i (m, .reserved (s.db.fileNum - 1) f.fileOffset)⟩ ∧
      TSys.Meets Writers.RefusedByLast tr := by
  obtain ⟨tr, hchosen, hmeets⟩ := run_chosen sync hc hm hlock
  have hset := getElem?_set_of_some (y := (m, WriterPc.chosen (s.db.fileNum - 1))) hc
  have hreserve : f.reserve m.size =
      some (f.fileOffset, ⟨f.held, f.chunks, u32 (f.fileOffset + m.size), f.synced⟩) :=
    if_neg (Nat.not_le.mpr hroom)
  refine ⟨_, hchosen.snoc (l := .go i) ?_,
    TSys.meets_snoc.mpr ⟨hmeets, refusedByLast_of_refusal hset rfl⟩⟩
  rw [Writers.step_of_advance hset (by simp only [advance, hf, hreserve]; rfl), List.set_set]

/-- A call that a full segment refuses. -/
theorem run_refused (hc : s.calls[i]? = some (m, .entered)) (hm : ∀ key, m ≠ .delete key)
    (hlock : s.lock = false) (hfull : s.db.Full (s.db.fileNum - 1)) :
    ∃ tr, (writers sync).Run s tr ⟨s.db, false, s.calls.set i (m, .full (s.db.fileNum - 1))⟩ ∧
      TSys.Meets Writers.RefusedByLast tr := by
  obtain ⟨tr, hchosen, hmeets⟩ := run_chosen sync hc hm hlock
  have hset := getElem?_set_of_some (y := (m, WriterPc.chosen (s.db.fileNum - 1))) hc
  obtain ⟨f, hf, hsize⟩ := hfull
  have hreserve : f.reserve m.size = none := if_pos hsize
  refine ⟨_, hchosen.snoc (l := .go i) ?_,
    TSys.meets_snoc.mpr ⟨hmeets, refusedByLast_of_refusal hset rfl⟩⟩
  rw [Writers.step_of_advance hset (by simp only [advance, hf, hreserve]; rfl), List.set_set]

/-- It creates a data file if nobody has the lock. -/
theorem run_creates {fi : Nat} (hc : s.calls[i]? = some (m, .full fi)) (hlock : s.lock = false) :
    ∃ tr, (writers sync).Run s tr ⟨s.db.newSegment, false, s.calls.set i (m, .entered)⟩ ∧
      (fi + 1 = s.db.fileNum → TSys.Meets Writers.RefusedByLast tr) := by
  have htry : (writers sync).step s (.go i) =
      some ⟨s.db, true, s.calls.set i (m, .creating fi)⟩ := by
    refine Writers.step_of_advance hc ?_
    rw [hlock]
    rfl
  have hset := getElem?_set_of_some (y := (m, WriterPc.creating fi)) hc
  have hcreate : (writers sync).step ⟨s.db, true, s.calls.set i (m, .creating fi)⟩ (.go i) =
      some ⟨s.db.newSegment, false, s.calls.set i (m, .entered)⟩ := by
    rw [Writers.step_of_advance hset rfl, List.set_set]
  refine ⟨_, (TSys.Run.nil.snoc htry).snoc hcreate, fun hlast => ?_⟩
  rw [TSys.meets_snoc, TSys.meets_snoc]
  refine ⟨⟨.nil, ?_⟩, ?_⟩
  · intro m' fj hc' _
    rw [hc] at hc'
    cases hc'
    exact hlast
  · intro m' fj hc' hfree
    cases hfree

/-- Two calls that one full segment refuses create two data files. -/
theorem run_two_creations {j : Nat} {m' : Mutation} (hc : s.calls[i]? = some (m, .entered))
    (hc' : s.calls[j]? = some (m', .entered)) (hij : i ≠ j) (hm : ∀ key, m ≠ .delete key)
    (hm' : ∀ key, m' ≠ .delete key) (hlock : s.lock = false)
    (hfull : s.db.Full (s.db.fileNum - 1)) :
    ∃ tr s', (writers sync).Run s tr s' ∧ s'.db = s.db.newSegment.newSegment := by
  obtain ⟨tr₁, h₁, -⟩ := run_refused sync hc hm hlock hfull
  have hone : (s.calls.set i (m, .full (s.db.fileNum - 1)))[j]? = some (m', .entered) :=
    (List.getElem?_set_ne hij).trans hc'
  obtain ⟨tr₂, h₂, -⟩ := run_refused sync
    (s := ⟨s.db, false, s.calls.set i (m, .full (s.db.fileNum - 1))⟩) hone hm' rfl hfull
  obtain ⟨tr₃, h₃, -⟩ := run_creates sync (s := ⟨s.db, false,
      (s.calls.set i (m, .full (s.db.fileNum - 1))).set j (m', .full (s.db.fileNum - 1))⟩)
    ((List.getElem?_set_ne hij.symm).trans (getElem?_set_of_some hc)) rfl
  obtain ⟨tr₄, h₄, -⟩ := run_creates sync (i := j) (m := m') (s := ⟨s.db.newSegment, false,
      ((s.calls.set i (m, .full (s.db.fileNum - 1))).set j
        (m', .full (s.db.fileNum - 1))).set i (m, .entered)⟩)
    ((List.getElem?_set_ne hij).trans (getElem?_set_of_some hone)) rfl
  exact ⟨_, _, ((h₁.trans h₂).trans h₃).trans h₄, rfl⟩

end Refused

/-- Calls, each of which has reserved its part of the first segment. -/
theorem run_reserves (sync : Bool) {r : Pair} (n : Nat)
    (h : ∀ k < n, k * (Mutation.put r).size < segmentSize) :
    ∃ tr s f, (writers sync).Run (.start (.create sync)) tr s ∧
      TSys.Meets Writers.RefusedByLast tr ∧ s.lock = false ∧
      s.db.fileNum = 1 ∧ s.db.dataFiles 0 = some f ∧ f.fileOffset = n * (Mutation.put r).size := by
  induction n with
  | zero => exact ⟨[], _, _, .nil, .nil, rfl, rfl, rfl, (Nat.zero_mul _).symm⟩
  | succ n ih =>
    obtain ⟨tr, s, f, hrun, hmeets, hlock, hnum, hf, hoff⟩ :=
      ih fun k hk => h k (Nat.lt_succ_of_lt hk)
    have hroom : f.fileOffset < segmentSize := hoff ▸ h n (Nat.lt_succ_self n)
    have hsize := (Mutation.put r).size_eq ▸ (Mutation.put r).length_bytes_le
    have hnext : u32 (f.fileOffset + (Mutation.put r).size) = (n + 1) * (Mutation.put r).size := by
      rw [u32_eq, hoff, Nat.succ_mul]
      rw [segmentSize] at hroom
      rw [maxRwCount] at hsize
      omega
    have hcall : TSys.Meets Writers.RefusedByLast (tr ++ [(s, .call (.put r))]) :=
      TSys.meets_snoc.mpr ⟨hmeets, trivial⟩
    obtain ⟨tr', hrun', hmeets'⟩ := run_reserved sync
      (s := { s with calls := s.calls ++ [(.put r, .entered)] }) (i := s.calls.length) (m := .put r)
      (by simp) (by simp) hlock (by rw [hnum]; exact hf) hroom
    refine ⟨_, _, ⟨f.held, f.chunks, u32 (f.fileOffset + (Mutation.put r).size), f.synced⟩,
      (hrun.snoc (l := .call (.put r)) rfl).trans hrun',
      TSys.meets_append.mpr ⟨hcall, hmeets'⟩, rfl, hnum, ?_, hnext⟩
    show ((s.db.setDataFile (s.db.fileNum - 1) _).dataFiles 0) = _
    rw [hnum]
    exact DBImpl.setDataFile_dataFiles ..

section Filled

variable {sync : Bool} {r : Pair} {n : Nat} (h : ∀ k < n, k * (Mutation.put r).size < segmentSize)
  (hfull : segmentSize ≤ n * (Mutation.put r).size)

include h hfull

/-- Calls fill the first segment; another one, which it refuses, creates the second and reserves
its part there. -/
theorem rotates_of_size :
    ∃ tr s, (writers sync).Run (.start (.create sync)) tr s ∧
      TSys.Meets Writers.RefusedByLast tr ∧ s.db.fileNum = 2 ∧
      s.calls.getLast? = some (.put r, .reserved 1 0) := by
  obtain ⟨tr, s, f, hrun, hmeets, hlock, hnum, hf, hoff⟩ := run_reserves sync n h
  have hput : ∀ key, Mutation.put r ≠ .delete key := by simp
  have hlast : s.db.Full (s.db.fileNum - 1) := by
    rw [hnum]
    exact ⟨f, hf, hoff ▸ hfull⟩
  have hset : ∀ pc pc', (s.calls ++ [(Mutation.put r, pc)]).set s.calls.length (.put r, pc') =
      s.calls ++ [(.put r, pc')] := by simp
  have hget : ∀ pc, (s.calls ++ [(Mutation.put r, pc)])[s.calls.length]? = some (.put r, pc) := by
    simp
  obtain ⟨tr₁, h₁, hmeets₁⟩ := run_refused sync
    (s := { s with calls := s.calls ++ [(.put r, .entered)] }) (hget _) hput hlock hlast
  obtain ⟨tr₂, h₂, hmeets₂⟩ := run_creates sync
    (s := ⟨s.db, false, s.calls ++ [(.put r, .full (s.db.fileNum - 1))]⟩) (hget _) rfl
  obtain ⟨tr₃, h₃, hmeets₃⟩ := run_reserved sync
    (s := ⟨s.db.newSegment, false, s.calls ++ [(.put r, .entered)]⟩) (hget _) hput rfl
    (Function.update_self ..) (by decide)
  rw [hset] at h₁ h₂ h₃
  have hcalled := hrun.snoc (l := .call (.put r)) rfl
  refine ⟨_, _, ((hcalled.trans h₁).trans h₂).trans h₃, ?_, ?_, ?_⟩
  · have hcall : TSys.Meets Writers.RefusedByLast (tr ++ [(s, .call (.put r))]) :=
      TSys.meets_snoc.mpr ⟨hmeets, trivial⟩
    have hcreate := hmeets₂ (show s.db.fileNum - 1 + 1 = s.db.fileNum by rw [hnum])
    rw [TSys.meets_append, TSys.meets_append, TSys.meets_append]
    exact ⟨⟨⟨hcall, hmeets₁⟩, hcreate⟩, hmeets₃⟩
  · show s.db.fileNum + 1 = 2
    rw [hnum]
  · rw [List.getLast?_concat]
    show some (Mutation.put r, WriterPc.reserved (s.db.fileNum + 1 - 1) 0) = _
    rw [hnum]

/-- Calls fill the first segment; two others, which it refuses, take the lock one after the
other. The second segment is left behind empty. -/
theorem left_empty_of_size :
    ∃ tr s, (writers sync).Run (.start (.create sync)) tr s ∧ s.db.fileNum = 3 ∧
      s.db.dataFiles 1 = some (.new []) ∧ ¬ s.Rotated := by
  obtain ⟨tr, s, f, hrun, -, hlock, hnum, hf, hoff⟩ := run_reserves sync n h
  have hput : ∀ key, Mutation.put r ≠ .delete key := by simp
  have hlast : s.db.Full (s.db.fileNum - 1) := by
    rw [hnum]
    exact ⟨f, hf, hoff ▸ hfull⟩
  have hcalls : (writers sync).Run s _
      { s with calls := s.calls ++ [(.put r, .entered)] ++ [(.put r, .entered)] } :=
    (TSys.Run.nil.snoc (l := .call (.put r)) rfl).snoc (l := .call (.put r)) rfl
  obtain ⟨tr', s', hrun', hdb⟩ := run_two_creations sync (i := s.calls.length)
    (j := s.calls.length + 1)
    (s := { s with calls := s.calls ++ [(.put r, .entered)] ++ [(.put r, .entered)] })
    (by simp) (by simp) (by simp) hput hput hlock hlast
  have hthree : s'.db.fileNum = 3 := by
    rw [hdb]
    show s.db.fileNum + 1 + 1 = 3
    rw [hnum]
  have hempty : s'.db.dataFiles 1 = some (.new []) := by
    rw [hdb, ← hnum]
    exact (Function.update_of_ne (Nat.ne_of_lt (Nat.lt_succ_self _)) ..).trans
      (Function.update_self ..)
  refine ⟨_, s', (hrun.trans hcalls).trans hrun', hthree, hempty, ?_⟩
  intro hrotated
  obtain ⟨g, hg, hsize⟩ := hrotated 1 (by rw [hthree]; decide)
  rw [hempty] at hg
  cases hg
  revert hsize
  decide

end Filled

theorem onePage_whole :
    ([1] : Bytes).length + (List.replicate 4095 (0 : UInt8)).length ≤ maxRwCount := by
  rw [List.length_replicate]
  decide

/-- A pair of 4 KiB. -/
def onePage : Pair := ⟨[1], List.replicate 4095 0, onePage_whole⟩

theorem size_onePage : (Mutation.put onePage).size = 4096 := by
  rw [Mutation.size, Mutation.append, Append.size, onePage, List.length_replicate]
  rfl

/-- The segment holds 32768 of them. -/
theorem onePage_room : ∀ k < 32768, k * (Mutation.put onePage).size < segmentSize := by
  intro k hk
  rw [size_onePage, segmentSize]
  omega

theorem onePage_full : segmentSize ≤ 32768 * (Mutation.put onePage).size := by
  rw [size_onePage]
  decide

/-! ## The segments of a run -/

/-- If every call that takes the lock to create a data file has been refused by the last one,
every segment but the last one is full throughout the run, and has caused one creation. -/
theorem segments_rotated (hrun : (writers sync).Run (.start (.create sync)) tr s)
    (hmeets : TSys.Meets Writers.RefusedByLast tr) :
    TSys.Throughout Writers.Rotated tr s ∧
      tr.filterMap createdFor = List.range (s.db.fileNum - 1) :=
  ⟨hrun.throughout hmeets fun _ _ hrun' hmeets' => (orderly_run hrun' hmeets').rotated,
    created_eq_range hrun hmeets⟩

/-- After 32768 calls of 4 KiB each the next one is refused, and creates the second segment. -/
theorem segments_rotated_pages :
    ∃ tr s, (writers true).Run (.start (.create true)) tr s ∧
      TSys.Meets Writers.RefusedByLast tr ∧
      s.calls.getLast? = some (.put onePage, .reserved 1 0) ∧
      TSys.Throughout Writers.Rotated tr s ∧ tr.filterMap createdFor = [0] := by
  obtain ⟨tr, s, hrun, hmeets, htwo, hlast⟩ := rotates_of_size onePage_room onePage_full
  obtain ⟨hrotated, hcreated⟩ := segments_rotated hrun hmeets
  rw [htwo] at hcreated
  exact ⟨tr, s, hrun, hmeets, hlast, hrotated, hcreated⟩

/-- After as many of them two calls are refused, and create two. -/
theorem segment_left_empty :
    ∃ tr s, (writers true).Run (.start (.create true)) tr s ∧ s.db.fileNum = 3 ∧
      s.db.dataFiles 1 = some (.new []) ∧ ¬ s.Rotated :=
  left_empty_of_size onePage_room onePage_full

end LogDirect.BitCask
