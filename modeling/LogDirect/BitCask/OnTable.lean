import LogDirect.Lib.Programs
import LogDirect.Cuckoo.Exclusion
import LogDirect.BitCask.Writers

/-!
# BitCask on its hash table

In `BitCask.Writers` a call of `hash_table_` is one step on a plain map. Here the same calls of
the database run on the libcuckoo table itself (`Cuckoo.Locks`): every lock of the table is
taken and given up in a step of its own, elements move and the table is doubled while other
calls of the database go on. Whatever the order of these steps, the calls return what they
return on the plain map, and leave the same files (`on_table_refines`).

`hash_table_` is made for `DEFAULT_SIZE` elements. An exception out of the table is caught
by nobody: the call does not go on.
-/

namespace LogDirect.BitCask

open Lib Lib.Atomic

/-- The call of `hash_table_` that comes next. -/
def tableCall (p : Mutation × WriterPc) : Option (Cuckoo.Call Bytes DBIndex) :=
  match p.2 with
  | .entered =>
      match p.1 with
      | .delete key => some (.find key)
      | _ => none
  | .storing ((key, idx) :: _) => some (.insertOrAssign key idx)
  | .erasing =>
      match p.1 with
      | .delete key => some (.eraseKey key)
      | _ => none
  | _ => none

/-- How the database goes on with the answer. -/
def tableAnswer (p : Mutation × WriterPc) (r : Cuckoo.Ret DBIndex) : Option (Mutation × WriterPc) :=
  match p.2, r with
  | .entered, .found e =>
      some (p.1,
        if Index.differs (e.getD Index.default) notFound then .erasing else .returned false)
  | .storing ((key, idx) :: todo), .inserted _ => some (p.1, .logging key idx todo)
  | .erasing, .erased _ => some (p.1, .returned true)
  | _, _ => none

/-- The calls of the database. The memory is the database and `global_lock_`; the field
`hashTable` is not in use. -/
def program : Program Mutation (DBImpl × Bool) (Mutation × WriterPc) (Cuckoo.Call Bytes DBIndex)
    (Cuckoo.Ret DBIndex) where
  start m := (m, .entered)
  step g p := (advance p.1 g.1 g.2 p.2).map fun x => (x.2, p.1, x.1)
  call := tableCall
  answer := tableAnswer

/-- The database, its calls and its table. -/
abbrev Tabled := Joint (DBImpl × Bool) (Mutation × WriterPc) (Cuckoo.LockWorld Bytes DBIndex)

/-- A new database that nobody has called yet. -/
def tableStart (sync : Bool) : Tabled :=
  ⟨(.create sync, false), [], .create Cuckoo.defaultSize⟩

/-- Concurrent calls on a new database. -/
def onTable (cfg : Cuckoo.Config Bytes) (sync : Bool) :
    TSys Tabled (Move Mutation (Cuckoo.Act Bytes DBIndex)) :=
  onObject program (Cuckoo.object cfg) (tableStart sync)

/-! ## Atomic calls -/

/-- The database with a table. -/
def DBImpl.withTable (db : DBImpl) (m : Table) : DBImpl := { db with hashTable := m }

/-- The database, its calls and a plain map. -/
abbrev Mapped := Joint (DBImpl × Bool) (Mutation × WriterPc) Table

/-- The program with atomic calls, as `Writers`. -/
def asWriters (t : Mapped) : Writers :=
  ⟨t.memory.1.withTable t.object, t.memory.2, t.threads⟩

def asLabel : Turn Mutation → WriterLabel
  | .enter m => .call m
  | .go i => .go i

/-- A step that is no call does not look at the table. -/
theorem advance_withTable {m : Mutation} {pc : WriterPc} (hcall : tableCall (m, pc) = none)
    (db : DBImpl) (T : Table) (lock : Bool) :
    advance m (db.withTable T) lock pc =
      (advance m db lock pc).map fun x => (x.1, x.2.1.withTable T, x.2.2) := by
  have hdata : (db.withTable T).dataFiles = db.dataFiles := rfl
  have hindex : (db.withTable T).indexFiles = db.indexFiles := rfl
  cases pc with
  | entered =>
    cases m with
    | delete key => cases hcall
    | put r => cases lock <;> rfl
    | putBatch b => cases lock <;> rfl
  | locked => rfl
  | chosen fi =>
    rw [advance, advance, hdata]
    cases db.dataFiles fi with
    | none => rfl
    | some f =>
      dsimp only
      cases f.reserve m.size with
      | none => rfl
      | some x => rfl
  | reserved fi off =>
    rw [advance, advance, hdata]
    cases db.dataFiles fi with
    | none => rfl
    | some f => rfl
  | written fi off =>
    rw [advance, advance, hdata]
    cases db.dataFiles fi with
    | none => rfl
    | some f => rfl
  | full _ => cases lock <;> rfl
  | creating _ => rfl
  | storing todo =>
    cases todo with
    | nil => rfl
    | cons p todo => cases hcall
  | logging key idx todo =>
    rw [advance, advance, hindex]
    cases db.indexFiles (slot key) with
    | none => rfl
    | some f => rfl
  | erasing =>
    cases m with
    | delete key => cases hcall
    | put r => rfl
    | putBatch b => rfl
  | returned ok => rfl

/-- A call is answered by the plain map with the step of `Writers`. -/
theorem advance_call {m : Mutation} {pc : WriterPc} {c : Cuckoo.Call Bytes DBIndex}
    (hcall : tableCall (m, pc) = some c) (db : DBImpl) (T : Table) (lock : Bool) :
    ∃ pc', tableAnswer (m, pc) (c.exec T).1 = some (m, pc') ∧
      advance m (db.withTable T) lock pc = some (pc', db.withTable (c.exec T).2, lock) := by
  cases pc with
  | entered =>
    cases m with
    | delete key =>
      cases hcall
      refine ⟨_, rfl, ?_⟩
      have hfind : (db.withTable T).find key = (T key).getD Index.default := rfl
      rw [advance, hfind]
      split
      · rfl
      · rfl
    | put r => cases hcall
    | putBatch b => cases hcall
  | storing todo =>
    cases todo with
    | nil => cases hcall
    | cons p todo =>
      cases hcall
      rw [Cuckoo.Call.exec_insertOrAssign]
      exact ⟨_, rfl, rfl⟩
  | erasing =>
    cases m with
    | delete key =>
      cases hcall
      rw [Cuckoo.Call.exec_eraseKey]
      exact ⟨_, rfl, rfl⟩
    | put r => cases hcall
    | putBatch b => cases hcall
  | locked | chosen _ | reserved _ _ | written _ _ | full _ | creating _ | logging _ _ _
  | returned _ =>
    cases hcall

/-- Nobody goes on after an exception. -/
theorem tableAnswer_threw (p : Mutation × WriterPc) : tableAnswer p .threw = none := by
  obtain ⟨m, pc⟩ := p
  cases pc with
  | storing todo => cases todo <;> rfl
  | _ => rfl

/-- What the table may do with a call. -/
theorem table_effect (p : Mutation × WriterPc) (c : Cuckoo.Call Bytes DBIndex) (T : Table)
    (r : Cuckoo.Ret DBIndex) (T' : Table) (hcall : tableCall p = some c)
    (heff : Cuckoo.Effect c T r T') :
    ((tableAnswer p r).isSome ∧ (r, T') = c.exec T) ∨ (tableAnswer p r = none ∧ T' = T) := by
  rcases heff with hexec | ⟨rfl, rfl, -⟩
  · obtain ⟨pc', hanswer, -⟩ := advance_call hcall (.create false) T false
    rw [← hexec] at hanswer
    refine .inl ⟨?_, hexec⟩
    rw [hanswer]
    rfl
  · exact .inr ⟨tableAnswer_threw p, rfl⟩

theorem step_of_advance {s : Writers} {i : Nat} {m : Mutation} {pc pc' : WriterPc} {db' : DBImpl}
    {lock' : Bool} (hc : s.calls[i]? = some (m, pc))
    (hadv : advance m s.db s.lock pc = some (pc', db', lock')) :
    s.step (.go i) = some ⟨db', lock', s.calls.set i (m, pc')⟩ := by
  rw [Writers.step, hc]
  dsimp only
  rw [hadv]
  rfl

/-- The program with atomic calls makes the steps of `Writers`. -/
theorem asWriters_step {t t' : Mapped} {l : Turn Mutation}
    (h : t.turn program (fun T c => c.exec T) l = some t') :
    (asWriters t).step (asLabel l) = some (asWriters t') := by
  cases l with
  | enter m =>
    cases h
    rfl
  | go i =>
    obtain ⟨⟨m, pc⟩, hp, h⟩ := Option.bind_eq_some_iff.mp h
    cases hcall : program.call (m, pc) with
    | none =>
      rw [hcall] at h
      obtain ⟨q, hq, rfl⟩ := Option.map_eq_some_iff.mp h
      obtain ⟨x, hx, rfl⟩ := Option.map_eq_some_iff.mp hq
      refine step_of_advance hp ?_
      have hframe := advance_withTable hcall t.memory.1 t.object t.memory.2
      rw [hx] at hframe
      exact hframe
    | some c =>
      rw [hcall] at h
      obtain ⟨p', hp', rfl⟩ := Option.map_eq_some_iff.mp h
      obtain ⟨pc', hanswer, hadv⟩ := advance_call hcall t.memory.1 t.object t.memory.2
      cases hanswer.symm.trans hp'
      exact step_of_advance hp hadv

theorem asWriters_run (sync : Bool) {t₀ t : Mapped} {tr : List (Mapped × Turn Mutation)}
    (hrun : (onAtomic program (fun T c => c.exec T) t₀).Run t₀ tr t) :
    ∃ tr', (writers sync).Run (asWriters t₀) tr' (asWriters t) := by
  induction hrun with
  | nil => exact ⟨[], .nil⟩
  | snoc _ hstep ih =>
    obtain ⟨tr', hrun⟩ := ih
    exact ⟨_, hrun.snoc (asWriters_step hstep)⟩

/-! ## The result -/

/-- **The hash table is as good as a plain map.** Every run of calls of the database on the
libcuckoo table, lock by lock, is one of `Writers`: the files and `global_lock_` are the
same, the table holds the pairs of the plain map, and the calls are where they are there,
but for those that are in a call of the table. -/
theorem on_table_refines {cfg : Cuckoo.Config Bytes} {sync : Bool} {s : Tabled}
    {tr : List (Tabled × Move Mutation (Cuckoo.Act Bytes DBIndex))}
    (hrun : (onTable cfg sync).Run (tableStart sync) tr s) :
    ∃ (tr' : List (Writers × WriterLabel)) (t : Writers),
      (writers sync).Run (.start (.create sync)) tr' t ∧
      t.db = s.memory.1.withTable t.db.hashTable ∧ t.lock = s.memory.2 ∧
      s.object.table.Inv cfg t.db.hashTable ∧ t.calls.length = s.threads.length ∧
      ∀ (i : Nat) p, s.threads[i]? = some p → tableCall p = none → t.calls[i]? = some p := by
  have h₀ : Sim program (Cuckoo.LocksFollow cfg) (tableStart sync)
      (⟨(.create sync, false), [], fun _ => none⟩ : Mapped) :=
    ⟨_, Cuckoo.locksFollow_start Cuckoo.defaultSize_lt, rfl, rfl, rfl, fun _ => rfl⟩
  obtain ⟨tr', t, hrun, a, hR, hmatch⟩ :=
    refines (Cuckoo.object_linear cfg) table_effect h₀ hrun
  obtain ⟨tr', hrun⟩ := asWriters_run sync hrun
  refine ⟨tr', asWriters t, hrun, ?_, ?_, ?_, hmatch.length, ?_⟩
  · rw [← hmatch.memory]
    rfl
  · exact congrArg Prod.snd hmatch.memory
  · change s.object.table.Inv cfg t.object
    rw [hmatch.object]
    exact hR.follows.table
  · intro i p hp hcall
    have hi := hmatch.threads i
    rw [hp] at hi
    exact (hi.busy hcall).2

/-- A `Put` from its start to its end, and a `Delete` that waits for the locks of the table. -/
theorem on_table_refines_put :
    ∃ tr s, (onTable (Cuckoo.lengthConfig UInt8) false).Run (tableStart false) tr s ∧
      s.threads.map (fun p => p.2.result) = [some true, none] ∧
      ∃ (tr' : List (Writers × WriterLabel)) (t : Writers),
        (writers false).Run (.start (.create false)) tr' t ∧
        t.db = s.memory.1.withTable t.db.hashTable ∧ t.lock = s.memory.2 ∧
        s.object.table.Inv (Cuckoo.lengthConfig UInt8) t.db.hashTable ∧
        t.calls.length = s.threads.length ∧
        ∀ (i : Nat) p, s.threads[i]? = some p → tableCall p = none → t.calls[i]? = some p := by
  obtain ⟨tr, s, htr, hres⟩ : ∃ tr s, (onTable (Cuckoo.lengthConfig UInt8) false).trace
    (tableStart false)
      ([.enter (.put ⟨[1], [2], by decide⟩), .go 0, .go 0, .go 0, .go 0, .go 0, .call 0] ++
        List.replicate 7 (.object (.run 0)) ++
        [.enter (.delete [1]), .call 1, .object (.run 1), .object (.run 1)] ++
        List.replicate 3 (.object (.run 0)) ++ [.object (.respond 0), .go 0, .go 0]) =
          some (tr, s) ∧
      s.threads.map (fun p => p.2.result) = [some true, none] := ⟨_, _, rfl, rfl⟩
  have hrun := TSys.run_of_trace htr
  exact ⟨tr, s, hrun, hres, on_table_refines hrun⟩

end LogDirect.BitCask
