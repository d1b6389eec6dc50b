import LogDirect.Group.Commit
import LogDirect.Group.Solo
import Mathlib.Data.Set.Insert

/-!
# Group and sync front ends side by side

One client makes the same calls through the group front end and through the sync
front end, on the same finite map. Results and contents are the same exactly when
no `SendDelete` is of a key that is there, and whatever key was deleted is written
again before it is read and before the calls end: until then the group front end
has an empty value under it.
-/

namespace LogDirect.Group

open Lib
open Sync (exec runCalls clip Done)

/-! ## What the calls see of each other -/

/-- The next call to look at the key, or to give it a value, is a write. -/
def Rewritten (k : Bytes) : List Call → Prop
  | [] => False
  | .write r :: qs => r.key = k ∨ Rewritten k qs
  | .get k' :: qs => k'.bytes ≠ k ∧ Rewritten k qs
  | .sync :: qs => Rewritten k qs
  | .delete _ :: qs => Rewritten k qs
  | .close :: qs => Rewritten k qs

/-- A `SendDelete` between other calls: the key is not there, and it is written again. -/
structure Harmless (db : DB) (pre : List Call) (k : Key) (post : List Call) : Prop where
  absent : db k.bytes = none
  unwritten : ∀ r, Call.write r ∈ pre → r.key ≠ k.bytes
  rewritten : Rewritten k.bytes post

/-- Every `SendDelete` is harmless. -/
def DeletesHarmless (db : DB) (qs : List Call) : Prop :=
  ∀ pre k post, qs = pre ++ .delete k :: post → Harmless db pre k post

theorem deletesHarmless_nil (db : DB) : DeletesHarmless db [] := by
  intro pre k post h
  cases pre <;> cases h

variable {db db' : DB} {q : Call} {qs : List Call} {k : Key} {D : Set Bytes} {σ : Type}

/-- The first call, and the others behind it. -/
theorem deletesHarmless_cons :
    DeletesHarmless db (q :: qs) ↔ (∀ k, q = .delete k → Harmless db [] k qs) ∧
      ∀ pre k post, qs = pre ++ .delete k :: post → Harmless db (q :: pre) k post := by
  constructor
  · intro h
    refine ⟨?_, ?_⟩
    · rintro k rfl
      exact h [] k qs rfl
    · rintro pre k post rfl
      exact h (q :: pre) k post rfl
  · rintro ⟨hfirst, hothers⟩ pre k post heq
    cases pre with
    | nil =>
      obtain ⟨rfl, rfl⟩ := List.cons.inj heq
      exact hfirst k rfl
    | cons q' pre =>
      obtain ⟨rfl, rfl⟩ := List.cons.inj heq
      exact hothers pre k post rfl

/-- A call that writes nothing makes no difference to what follows. -/
theorem harmless_cons (hq : ∀ r, q ≠ .write r) {pre post : List Call} :
    Harmless db (q :: pre) k post ↔ Harmless db pre k post := by
  constructor
  · rintro ⟨habsent, hun, hre⟩
    exact ⟨habsent, fun r hr => hun r (List.mem_cons_of_mem q hr), hre⟩
  · rintro ⟨habsent, hun, hre⟩
    refine ⟨habsent, ?_, hre⟩
    intro r hr
    rcases List.mem_cons.mp hr with hr | hr
    · exact absurd hr.symm (hq r)
    · exact hun r hr

theorem deletesHarmless_quiet (hq : ∀ r, q ≠ .write r) (hd : ∀ k, q ≠ .delete k) :
    DeletesHarmless db (q :: qs) ↔ DeletesHarmless db qs := by
  rw [deletesHarmless_cons]
  simp only [harmless_cons hq]
  exact and_iff_right fun k hk => absurd hk (hd k)

theorem deletesHarmless_delete :
    DeletesHarmless db (.delete k :: qs) ↔
      (db k.bytes = none ∧ Rewritten k.bytes qs) ∧ DeletesHarmless db qs := by
  rw [deletesHarmless_cons]
  simp only [harmless_cons (q := .delete k) (by simp)]
  refine and_congr ?_ Iff.rfl
  constructor
  · intro h
    exact ⟨(h k rfl).absent, (h k rfl).rewritten⟩
  · rintro ⟨habsent, hre⟩ k' hk'
    cases hk'
    exact ⟨habsent, by simp, hre⟩

/-- A key that was written is there. -/
theorem harmless_write {r : Record} {pre post : List Call} :
    Harmless db (.write r :: pre) k post ↔
      Harmless (Function.update db r.key (some r.val)) pre k post := by
  constructor
  · rintro ⟨habsent, hun, hre⟩
    refine ⟨?_, fun r' hr' => hun r' (List.mem_cons_of_mem _ hr'), hre⟩
    rw [Function.update_of_ne (hun r List.mem_cons_self).symm]
    exact habsent
  · rintro ⟨habsent, hun, hre⟩
    have hne : k.bytes ≠ r.key := by
      intro heq
      rw [heq, Function.update_self] at habsent
      cases habsent
    rw [Function.update_of_ne hne] at habsent
    refine ⟨habsent, ?_, hre⟩
    intro r' hr'
    rcases List.mem_cons.mp hr' with hr' | hr'
    · cases hr'
      exact hne.symm
    · exact hun r' hr'

theorem deletesHarmless_write {r : Record} :
    DeletesHarmless db (.write r :: qs) ↔
      DeletesHarmless (Function.update db r.key (some r.val)) qs := by
  rw [deletesHarmless_cons]
  simp only [harmless_write]
  exact and_iff_right fun k hk => nomatch hk

/-! ## The two stores -/

/-- The group front end has an empty value under the keys of `D`; the other has none. -/
structure Differ (D : Set Bytes) (db db' : DB) : Prop where
  apart : ∀ k ∈ D, db k = none ∧ db' k = some []
  same : ∀ k, k ∉ D → db' k = db k

theorem differ_refl (db : DB) : Differ ∅ db db := ⟨fun _ hk => hk.elim, fun _ _ => rfl⟩

theorem Differ.eq_iff (h : Differ D db db') : db = db' ↔ ∀ k ∈ D, False := by
  constructor
  · rintro rfl k hk
    obtain ⟨hnone, hsome⟩ := h.apart k hk
    exact nomatch hnone.symm.trans hsome
  · intro hempty
    funext k
    exact (h.same k (hempty k)).symm

theorem Differ.write (h : Differ D db db') (k v : Bytes) :
    Differ (D \ {k}) (Function.update db k (some v)) (Function.update db' k (some v)) := by
  refine ⟨?_, ?_⟩
  · rintro k' ⟨hk', hne⟩
    rw [Function.update_of_ne hne, Function.update_of_ne hne]
    exact h.apart k' hk'
  · intro k' hk'
    by_cases heq : k' = k
    · rw [heq, Function.update_self, Function.update_self]
    · rw [Function.update_of_ne heq, Function.update_of_ne heq]
      exact h.same k' fun hmem => hk' ⟨hmem, heq⟩

theorem Differ.delete (h : Differ D db db') {k : Bytes} (hk : db k = none) :
    Differ (insert k D) db (Function.update db' k (some [])) := by
  refine ⟨?_, ?_⟩
  · intro k' hk'
    by_cases heq : k' = k
    · rw [heq, Function.update_self]
      exact ⟨hk, rfl⟩
    · rw [Function.update_of_ne heq]
      exact h.apart k' (hk'.resolve_left heq)
  · intro k' hk'
    rw [Function.update_of_ne fun heq => hk' (.inl heq)]
    exact h.same k' fun hmem => hk' (.inr hmem)

theorem Differ.value_iff (h : Differ D db db') (k : Bytes) :
    (db k).map clip = (db' k).map clip ↔ k ∉ D := by
  constructor
  · intro heq hk
    obtain ⟨hnone, hsome⟩ := h.apart k hk
    rw [hnone, hsome] at heq
    cases heq
  · intro hk
    rw [h.same k hk]

/-! ## Call by call -/

/-- What was returned before makes no difference. -/
theorem foldl_runCalls (f : σ → Call → Ret × σ) (qs : List Call) :
    ∀ (rets : List Ret) (db : σ),
      qs.foldl (fun p q => (p.1 ++ [(f p.2 q).1], (f p.2 q).2)) (rets, db) =
        (rets ++ (runCalls f db qs).1, (runCalls f db qs).2) := by
  induction qs with
  | nil =>
    intro rets db
    simp [runCalls]
  | cons q qs ih =>
    intro rets db
    rw [runCalls, List.foldl_cons, List.foldl_cons, ih, ih, List.nil_append, List.append_assoc]

theorem runCalls_cons (f : σ → Call → Ret × σ) (db : σ) (q : Call) (qs : List Call) :
    runCalls f db (q :: qs) =
      ((f db q).1 :: (runCalls f (f db q).2 qs).1, (runCalls f (f db q).2 qs).2) := by
  rw [runCalls, List.foldl_cons, foldl_runCalls]
  rfl

/-- The next call has the same result, and then the others have. -/
theorem runCalls_cons_eq {f g : σ → Call → Ret × σ} {db db' : σ} :
    runCalls f db (q :: qs) = runCalls g db' (q :: qs) ↔
      (f db q).1 = (g db' q).1 ∧ runCalls f (f db q).2 qs = runCalls g (g db' q).2 qs := by
  rw [runCalls_cons, runCalls_cons, Prod.mk.injEq, List.cons.injEq, Prod.ext_iff, and_assoc]

/-- The calls agree when the deletes are harmless and the keys that differ are written again. -/
theorem runCalls_eq_iff (qs : List Call) : ∀ {D : Set Bytes} {db db' : DB}, Differ D db db' →
    (runCalls (exec DB.dbType) db qs = runCalls solo db' qs ↔
      (∀ k ∈ D, Rewritten k qs) ∧ DeletesHarmless db qs) := by
  induction qs with
  | nil =>
    intro D db db' h
    rw [runCalls, runCalls, List.foldl_nil, List.foldl_nil, Prod.mk.injEq,
      and_iff_right rfl, h.eq_iff]
    exact (and_iff_left (deletesHarmless_nil db)).symm
  | cons q qs ih =>
    intro D db db' h
    rw [runCalls_cons_eq]
    cases q with
    | write r =>
      rw [deletesHarmless_write]
      refine (and_iff_right rfl).trans ((ih (h.write r.key r.val)).trans (and_congr ?_ Iff.rfl))
      constructor
      · intro hall k hk
        by_cases heq : r.key = k
        · exact .inl heq
        · exact .inr (hall k ⟨hk, fun hmem => heq hmem.symm⟩)
      · rintro hall k ⟨hk, hne⟩
        exact (hall k hk).resolve_left fun heq => hne heq.symm
    | get k =>
      rw [deletesHarmless_quiet (by simp) (by simp)]
      have hhead : (exec DB.dbType db (.get k)).1 = (solo db' (.get k)).1 ↔ k.bytes ∉ D := by
        rw [← h.value_iff k.bytes]
        exact Ret.value.injEq _ _ ▸ Iff.rfl
      rw [hhead]
      refine (and_congr_right fun _ => ih h).trans ?_
      rw [← and_assoc]
      refine and_congr_left fun _ => ?_
      constructor
      · rintro ⟨hk, hall⟩ k' hk'
        exact ⟨fun heq => hk (heq ▸ hk'), hall k' hk'⟩
      · intro hall
        exact ⟨fun hk => (hall k.bytes hk).1 rfl, fun k' hk' => (hall k' hk').2⟩
    | sync =>
      rw [deletesHarmless_quiet (by simp) (by simp)]
      exact (and_iff_right rfl).trans (ih h)
    | delete k =>
      rw [deletesHarmless_delete]
      have hhead : (exec DB.dbType db (.delete k)).1 = (solo db' (.delete k)).1 ↔
          db k.bytes = none := by
        show Ret.deleted (db k.bytes).isSome = .deleted false ↔ _
        rw [Ret.deleted.injEq, Option.isSome_eq_false_iff, Option.isNone_iff_eq_none]
      rw [hhead, and_assoc, and_left_comm]
      refine and_congr_right fun hk => ?_
      -- the store of the sync front end does not change
      have hdb : (exec DB.dbType db (.delete k)).2 = db := by
        show Function.update db k.bytes none = db
        rw [← hk, Function.update_eq_self]
      rw [hdb, ← and_assoc]
      refine (ih (h.delete hk)).trans (and_congr_left fun _ => ?_)
      constructor
      · intro hall
        exact ⟨fun k' hk' => hall k' (.inr hk'), hall k.bytes (.inl rfl)⟩
      · rintro ⟨hall, hre⟩ k' (rfl | hk')
        · exact hre
        · exact hall k' hk'
    | close =>
      rw [deletesHarmless_quiet (by simp) (by simp)]
      exact (and_iff_right rfl).trans (ih h)

/-! ## The two front ends -/

/-- The calls of a `SyncClient` have returned with these results, and `SyncClerk` has left
the store with these contents. -/
def SyncReturns (db : DB) (qs : List Call) (history : List (Call × Ret)) (db' : DB) : Prop :=
  ∃ s tr s', (Sync.sync DB.dbType).init s ∧ s.2 = db ∧ (Sync.sync DB.dbType).Run s tr s' ∧
    Sync.calls tr = qs ∧ s'.1.client.pc = .idle ∧ s'.1.client.history = history ∧ s'.2 = db'

/-- The same of the only `GroupClient` and its `GroupClerk`. -/
def GroupReturns (db : DB) (qs : List Call) (history : List (Call × Ret)) (db' : DB) : Prop :=
  ∃ (s : Server Unit DB) (tr : _) (s' : Server Unit DB), (system DB.dbType).init s ∧ s.db = db ∧
    (system DB.dbType).Run s tr s' ∧ calls () tr = qs ∧ (s'.conns ()).client.pc = .idle ∧
    (s'.conns ()).client.history = history ∧ s'.db = db'

theorem SyncReturns.done {history : List (Call × Ret)} (h : SyncReturns db qs history db') :
    Done (exec DB.dbType) db qs history db' := by
  obtain ⟨s, tr, s', hinit, rfl, hrun, rfl, hidle, rfl, rfl⟩ := h
  exact (Sync.run_at Sync.syncClient_sends hinit hrun).done hidle

theorem GroupReturns.done {history : List (Call × Ret)} (h : GroupReturns db qs history db') :
    Done solo db qs history db' := by
  obtain ⟨s, tr, s', hinit, rfl, hrun, rfl, hidle, rfl, rfl⟩ := h
  exact (Server.run_alone hinit hrun).idle hidle

theorem exists_syncReturns (db : DB) (hqs : ∀ q ∈ qs, q ≠ .close) :
    ∃ history db', SyncReturns db qs history db' := by
  have hinit : (Sync.sync DB.dbType).init
      (.fresh 0 (fun _ => 0) (fun _ => 0) (fun _ => 0), db) :=
    ⟨0, _, _, _, by decide, rfl⟩
  obtain ⟨tr, s', hrun, hcalls, hidle⟩ := Sync.exists_run Sync.syncClient_sends hinit hqs
  exact ⟨_, _, _, tr, s', hinit, rfl, hrun, hcalls, hidle, rfl, rfl⟩

theorem exists_groupReturns (db : DB) (hqs : ∀ q ∈ qs, q ≠ .close) :
    ∃ history db', GroupReturns db qs history db' := by
  have hinit : (system DB.dbType).init (⟨fun _ => .fresh 0 (fun _ => 0) (fun _ => 0) (fun _ => 0),
      [], ⟨0, [], [], fun _ => 0⟩, db⟩ : Server Unit DB) :=
    ⟨rfl, fun _ => ⟨0, _, _, _, by decide, rfl⟩⟩
  obtain ⟨tr, s', hrun, hcalls, hidle⟩ := Server.exists_run hinit hqs
  exact ⟨_, _, _, tr, s', hinit, rfl, hrun, hcalls, hidle, rfl, rfl⟩

/-- The calls return through either front end, always with the same results, and the
contents left behind are the same. -/
structure Agree (db : DB) (qs : List Call) : Prop where
  sync_returns : ∃ history db', SyncReturns db qs history db'
  group_returns : ∃ history db', GroupReturns db qs history db'
  same : ∀ history db₁ history' db₂, SyncReturns db qs history db₁ →
    GroupReturns db qs history' db₂ → history = history' ∧ db₁ = db₂

theorem agree_iff_runCalls (db : DB) (hqs : ∀ q ∈ qs, q ≠ .close) :
    Agree db qs ↔ runCalls (exec DB.dbType) db qs = runCalls solo db qs := by
  constructor
  · intro h
    obtain ⟨history, db₁, hsync⟩ := h.sync_returns
    obtain ⟨history', db₂, hgroup⟩ := h.group_returns
    obtain ⟨rfl, rfl⟩ := h.same _ _ _ _ hsync hgroup
    rw [hsync.done.runs, hgroup.done.runs]
  · intro h
    refine ⟨exists_syncReturns db hqs, exists_groupReturns db hqs, ?_⟩
    intro history db₁ history' db₂ hsync hgroup
    rw [hsync.done.runs, hgroup.done.runs] at h
    obtain ⟨hrets, rfl⟩ := Prod.mk.inj h
    refine ⟨?_, rfl⟩
    rw [← List.zip_unzip history, ← List.zip_unzip history', List.unzip_eq_map,
      List.unzip_eq_map, hrets, hsync.done.calls, hgroup.done.calls]

/-- The front ends agree on a sequence of calls exactly if every delete in it is harmless. -/
theorem agree_iff (db : DB) (qs : List Call) (hqs : ∀ q ∈ qs, q ≠ .close) :
    Agree db qs ↔ DeletesHarmless db qs := by
  rw [agree_iff_runCalls db hqs, runCalls_eq_iff qs (differ_refl db)]
  exact and_iff_right fun k hk => hk.elim

/-- The key of one byte. -/
def letterKey : Key := ⟨[1], zero_notMem_one, by decide⟩

/-- A key that was not there is deleted, written and read. -/
theorem agree_deleted_key :
    Agree (fun _ => none) [.delete letterKey, .write letter, .get letterKey] := by
  refine (agree_iff _ _ ?_).mpr ?_
  · simp
  · rw [deletesHarmless_delete, deletesHarmless_write,
      deletesHarmless_quiet (by simp) (by simp)]
    exact ⟨⟨rfl, .inl rfl⟩, deletesHarmless_nil _⟩

/-- Write a key, delete it and read it. -/
def deleteWritten : List Call := [.write letter, .delete letterKey, .get letterKey]

/-- Through the group front end `SendDelete` returns false, and the key is still there. -/
theorem disagree_deleteWritten : ¬ Agree (fun _ => none) deleteWritten ∧
    (∃ history db, SyncReturns (fun _ => none) deleteWritten history db ∧
      history.map Prod.snd = [.done, .deleted true, .value none] ∧ db [1] = none) ∧
    ∃ history db, GroupReturns (fun _ => none) deleteWritten history db ∧
      history.map Prod.snd = [.done, .deleted false, .value (some [])] ∧ db [1] = some [] := by
  have hqs : ∀ q ∈ deleteWritten, q ≠ .close := by simp [deleteWritten]
  obtain ⟨history, db, hsync⟩ := exists_syncReturns (fun _ => none) hqs
  obtain ⟨history', db', hgroup⟩ := exists_groupReturns (fun _ => none) hqs
  obtain ⟨hrets, hdb⟩ := Prod.mk.inj hsync.done.runs
  obtain ⟨hrets', hdb'⟩ := Prod.mk.inj hgroup.done.runs
  refine ⟨?_, ⟨history, db, hsync, hrets.symm, ?_⟩, ⟨history', db', hgroup, hrets'.symm, ?_⟩⟩
  · intro h
    obtain ⟨rfl, -⟩ := h.same _ _ _ _ hsync hgroup
    exact absurd (hrets.trans hrets'.symm) (by decide)
  · rw [← hdb]
    decide
  · rw [← hdb']
    decide

end LogDirect.Group
