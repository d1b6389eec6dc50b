import LogDirect.BitCask.Writers
import Mathlib.Data.List.Induction

/-!
# BitCask: the index files against the table

`insert_or_assign` and `AppendIndex` are two steps and nothing keeps two calls
from making them in different orders. `Settled` is the invariant that is left: a
key's last record is its entry, or the call whose entry it is has yet to append.
A step breaks it when a call appends its record although the table already holds
the entry of another call that has appended its own (`InOrder`).
-/

namespace LogDirect.BitCask

open Lib

/-- For every key, the last record of its index file is its entry. -/
def DBImpl.IndexAgrees (db : DBImpl) : Prop :=
  ∃ rs, db.Indexed rs ∧ ∀ key,
    ((rs (slot key)).filter fun r => r.key = key).getLast? =
      (db.hashTable key).map (indexRecord key)

/-- The last record of a key is that of the last entry logged. -/
theorem getLast?_slotRecords (l : List (Bytes × DBIndex)) (key : Bytes) :
    ((slotRecords l (slot key)).filter fun r => r.key = key).getLast? =
      (lastOf l key).map (indexRecord key) := by
  induction l using List.reverseRecOn with
  | nil => rfl
  | append_singleton l p ih =>
    obtain ⟨k, idx⟩ := p
    rw [slotRecords_snoc, lastOf_snoc, List.filter_append]
    by_cases hk : k = key
    · subst hk
      simp [indexRecord]
    · rw [if_neg hk, ← ih]
      split
      · simp [indexRecord, hk]
      · simp

/-! ## One step -/

/-- A step that is not the entry of a `Delete`. -/
def PutsOnly (_ : Writers) : WriterLabel → Prop
  | .call (.delete _) => False
  | _ => True

instance (s : Writers) : ∀ l, Decidable (PutsOnly s l)
  | .call (.delete _) => .isFalse id
  | .call (.put _) => .isTrue trivial
  | .call (.putBatch _) => .isTrue trivial
  | .go _ => .isTrue trivial

/-- A call appends its record only while the table holds its entry, or holds that of a
call that has yet to append. -/
def InOrder (s : Writers) : WriterLabel → Prop
  | .go i => ∀ c ∈ s.calls[i]?, ∀ e ∈ c.2.pending, s.db.hashTable e.1 = some e.2 ∨
      ∃ j < s.calls.length, j ≠ i ∧ ∃ d ∈ s.calls[j]?, ∃ e' ∈ d.2.pending,
        e'.1 = e.1 ∧ s.db.hashTable e.1 = some e'.2
  | .call _ => True

instance (s : Writers) : ∀ l, Decidable (InOrder s l)
  | .go i => inferInstanceAs (Decidable (∀ c ∈ s.calls[i]?, ∀ e ∈ c.2.pending,
      s.db.hashTable e.1 = some e.2 ∨ ∃ j < s.calls.length, j ≠ i ∧ ∃ d ∈ s.calls[j]?,
        ∃ e' ∈ d.2.pending, e'.1 = e.1 ∧ s.db.hashTable e.1 = some e'.2))
  | .call _ => .isTrue trivial

/-- What a step of a `Put` or `PutBatch` does to the table and to the entry the call
owes the index file. -/
theorem Moves.table {m : Mutation} {db db' : DBImpl} {lock lock' : Bool} {pc pc' : WriterPc}
    (hmove : Moves m db lock pc pc' db' lock') (hm : ∀ key, m ≠ .delete key) :
    (db'.hashTable = db.hashTable ∧ pc'.pending = none) ∨
      ∃ key idx, db'.hashTable = Function.update db.hashTable key (some idx) ∧
        pc.pending = none ∧ pc'.pending = some (key, idx) := by
  cases hmove with
  | absent h => exact absurd h (hm _)
  | found h => exact absurd h (hm _)
  | erase h => exact absurd h (hm _)
  | insert => exact .inr ⟨_, _, rfl, rfl, rfl⟩
  | acquire | choose | reserve | refused | pwrite | sync | retry | tryLock | create | finish
  | log =>
    exact .inl ⟨rfl, rfl⟩

/-- A key's last record is its entry, or a call owes it. -/
def Settled (l : List (Bytes × DBIndex)) (s : Writers) : Prop :=
  ∀ key, lastOf l key = s.db.hashTable key ∨
    ∃ c ∈ s.calls, ∃ idx, c.2.pending = some (key, idx) ∧ s.db.hashTable key = some idx

/-- A step of a `Put` or `PutBatch` in order. -/
theorem Settled.go {l : List (Bytes × DBIndex)} {s s' : Writers} {i : Nat} {m : Mutation}
    {pc pc' : WriterPc} (h : Settled l s) (hc : s.calls[i]? = some (m, pc))
    (hm : ∀ key, m ≠ .delete key) (hmove : Moves m s.db s.lock pc pc' s'.db s'.lock)
    (hcalls : s'.calls = s.calls.set i (m, pc')) (horder : InOrder s (.go i)) :
    Settled (l ++ pc.pending.toList) s' := by
  intro key
  rcases hmove.table hm with ⟨htable, hpc'⟩ | ⟨k, idx, htable, hpc, hpc'⟩
  · rw [htable, hcalls]
    -- an owing call other than the one that moves still owes
    have hother : (∃ j < s.calls.length, j ≠ i ∧ ∃ d ∈ s.calls[j]?, ∃ e' ∈ d.2.pending,
        e'.1 = key ∧ s.db.hashTable key = some e'.2) → ∃ c ∈ s.calls.set i (m, pc'), ∃ idx,
        c.2.pending = some (key, idx) ∧ s.db.hashTable key = some idx := by
      rintro ⟨j, -, hj, d, hd, ⟨key', idx'⟩, howes, rfl, hentry⟩
      refine ⟨d, ?_, idx', howes, hentry⟩
      rw [List.mem_iff_getElem?]
      exact ⟨j, by rw [List.getElem?_set_ne hj.symm, hd]⟩
    cases hp : pc.pending with
    | none =>
      rw [Option.toList_none, List.append_nil]
      rcases h key with h | ⟨d, hd, idx, howes, hentry⟩
      · exact .inl h
      · rcases mem_set_of_mem hc hd with rfl | hd
        · rw [hp] at howes
          cases howes
        · exact .inr ⟨d, hd, idx, howes, hentry⟩
    | some p =>
      obtain ⟨k, idx⟩ := p
      rw [Option.toList_some, lastOf_snoc]
      by_cases hk : k = key
      · subst hk
        rw [if_pos rfl]
        rcases horder _ hc _ hp with hentry | hlater
        · exact .inl hentry.symm
        · exact .inr (hother hlater)
      · rw [if_neg hk]
        rcases h key with h | ⟨d, hd, idx', howes, hentry⟩
        · exact .inl h
        · rcases mem_set_of_mem hc hd with rfl | hd
          · rw [hp] at howes
            cases howes
            exact absurd rfl hk
          · exact .inr ⟨d, hd, idx', howes, hentry⟩
  · rw [hpc, Option.toList_none, List.append_nil, htable, hcalls]
    by_cases hk : key = k
    · subst hk
      exact .inr ⟨_, mem_set_self hc _, idx, hpc', Function.update_self ..⟩
    · rw [Function.update_of_ne hk]
      rcases h key with h | ⟨d, hd, idx', howes, hentry⟩
      · exact .inl h
      · rcases mem_set_of_mem hc hd with rfl | hd
        · rw [hpc] at howes
          cases howes
        · exact .inr ⟨d, hd, idx', howes, hentry⟩

/-- `Settled` along a run. -/
theorem run_settled {sync : Bool} {tr : List (Writers × WriterLabel)} {s : Writers}
    (hrun : (writers sync).Run (.start (.create sync)) tr s) (hputs : TSys.Meets PutsOnly tr)
    (horder : TSys.Meets InOrder tr) :
    Settled (logged tr) s ∧ ∀ c ∈ s.calls, ∀ key, c.1 ≠ .delete key := by
  induction hrun with
  | nil =>
    refine ⟨fun key => .inl rfl, ?_⟩
    intro c hc
    cases hc
  | @snoc tr s l s' _ hstep ih =>
    rw [TSys.meets_snoc] at hputs horder
    obtain ⟨hset, hwrites⟩ := ih hputs.1 horder.1
    rw [logged_snoc]
    cases l with
    | call m =>
      cases hstep
      constructor
      · intro key
        show lastOf (logged tr ++ []) key = _ ∨ _
        rw [List.append_nil]
        rcases hset key with h | ⟨c, hc, howes⟩
        · exact .inl h
        · exact .inr ⟨c, List.mem_append_left _ hc, howes⟩
      · intro c hc
        rcases List.mem_append.mp hc with hc | hc
        · exact hwrites c hc
        · cases List.mem_singleton.mp hc
          intro key hm
          have hput : PutsOnly s (.call m) := hputs.2
          subst hm
          exact hput
    | go i =>
      obtain ⟨m, pc, pc', hc, hmove, hcalls⟩ := Writers.step_go hstep
      have hm : ∀ key, m ≠ .delete key := hwrites _ (List.mem_of_getElem? hc)
      have hgo := hset.go hc hm hmove hcalls horder.2
      have hlogged : loggedBy (s, .go i) = pc.pending := by
        rw [loggedBy, hc]
        rfl
      rw [hlogged]
      refine ⟨hgo, ?_⟩
      intro c hmem
      rw [hcalls] at hmem
      rcases mem_of_mem_set hmem with rfl | hmem
      · exact hm
      · exact hwrites c hmem

/-- If the calls append to the index files in order, then once all have returned the last
record of every key is its entry in the table. -/
theorem indexAgrees_of_inOrder {sync : Bool} {tr : List (Writers × WriterLabel)} {s : Writers}
    (hrun : (writers sync).Run (.start (.create sync)) tr s) (hputs : TSys.Meets PutsOnly tr)
    (horder : TSys.Meets InOrder tr) (hret : s.Returned) : s.db.IndexAgrees := by
  obtain ⟨hset, -⟩ := run_settled hrun hputs horder
  refine ⟨_, (writers_sound hrun).logs.indexed, ?_⟩
  intro key
  rw [getLast?_slotRecords]
  rcases hset key with h | ⟨c, hc, idx, howes, -⟩
  · rw [h]
  · rw [WriterPc.pending_of_result (hret c hc)] at howes
    cases howes

/-- A `Put` of a one-byte key and a one-byte value. -/
def putByte (v : UInt8) : Mutation :=
  .put ⟨[1], [v], whole_of_length_le (Nat.le_refl 1) (Nat.le_refl 1)⟩

theorem indexAgrees_two : ∃ tr s, (writers false).Run (.start (.create false)) tr s ∧
    TSys.Meets PutsOnly tr ∧ TSys.Meets InOrder tr ∧ s.Returned ∧ s.calls.length = 2 ∧
      s.db.IndexAgrees := by
  obtain ⟨tr, s, htr, hputs, horder, hret, htwo⟩ : ∃ tr s,
      (writers false).trace (.start (.create false))
        (.call (putByte 1) :: .call (putByte 2) :: (List.replicate 6 (.go 0) ++
          List.replicate 6 (.go 1) ++ [.go 0, .go 1, .go 0, .go 1])) = some (tr, s) ∧
      TSys.Meets PutsOnly tr ∧ TSys.Meets InOrder tr ∧ s.Returned ∧ s.calls.length = 2 := by
    refine ⟨_, _, rfl, ?_, ?_, ?_, rfl⟩
    · unfold TSys.Meets
      decide
    · unfold TSys.Meets
      decide
    · unfold Writers.Returned
      decide
  have hrun := TSys.run_of_trace htr
  exact ⟨tr, s, hrun, hputs, horder, hret, htwo, indexAgrees_of_inOrder hrun hputs horder hret⟩

/-- Two `Put`s of one key that insert in one order and append in the other: the table
has the second record, the index file ends with the first. -/
theorem index_order_crosses : ∃ tr s, (writers false).Run (.start (.create false)) tr s ∧
    TSys.Meets PutsOnly tr ∧ s.Returned ∧ ¬ s.db.IndexAgrees := by
  obtain ⟨tr, s, htr, hputs, hret, hlogged, hentry⟩ : ∃ tr s,
      (writers false).trace (.start (.create false))
        (.call (putByte 1) :: .call (putByte 2) :: (List.replicate 6 (.go 0) ++
          List.replicate 8 (.go 1) ++ [.go 0, .go 0])) = some (tr, s) ∧
      TSys.Meets PutsOnly tr ∧ s.Returned ∧
      logged tr = [([1], ⟨.file 0 2, 1, 1⟩), ([1], ⟨.file 0 0, 1, 1⟩)] ∧
      s.db.hashTable [1] = some ⟨.file 0 2, 1, 1⟩ := by
    refine ⟨_, _, rfl, ?_, ?_, rfl, rfl⟩
    · unfold TSys.Meets
      decide
    · unfold Writers.Returned
      decide
  have hrun := TSys.run_of_trace htr
  refine ⟨tr, s, hrun, hputs, hret, ?_⟩
  rintro ⟨rs, hrs, hlast⟩
  have hl := (writers_sound hrun).logs.indexed
  rw [hlogged] at hl
  -- what the file holds is read off it in one way
  have hfile : (rs (slot [1])).map IndexRecord.stored =
      [(indexRecord [1] ⟨.file 0 2, 1, 1⟩).stored, (indexRecord [1] ⟨.file 0 0, 1, 1⟩).stored] := by
    obtain ⟨f, hf, hbytes⟩ := hrs.file _ (slot_lt [1])
    obtain ⟨g, hg, hbytes'⟩ := hl.file _ (slot_lt [1])
    rw [hf] at hg
    cases hg
    exact encodeAll_inj (hrs.fits _) (hl.fits _) (hbytes.symm.trans hbytes')
  have hstored : (((rs (slot [1])).map IndexRecord.stored).filter fun r => r.key = [1]).getLast? =
      ((s.db.hashTable [1]).map (indexRecord [1])).map IndexRecord.stored := by
    rw [← hlast [1], ← List.getLast?_map, List.filter_map]
    rfl
  rw [hfile, hentry] at hstored
  exact absurd hstored (by decide)

end LogDirect.BitCask
