import LogDirect.Sync.Server
import LogDirect.Store.Cuckoo
import LogDirect.Cuckoo.Exclusion

/-!
# The sync front end on CuckooDB on libcuckoo

The default configuration (`default_opt`): `SyncServer`, or `PMemServer`, with a `CuckooDB`. The
clerks call `Put`, `Get`, `Delete` and `SetSync` at the same time; `CuckooDB` takes no lock of
its own, makes one call of its `cuckoohash_map`, and `Put` then appends to the log. The table
is the one of `Cuckoo.Locks`, in which each lock is taken and given up in a step of its own.

For its callers this store is a plain map with atomic calls (`tableDB_linear`), and so it is for
the clients of the server (`default_linearizable`): writes on the wire, clerks, table and
locks may interleave in any way. No request of at most `MAX_REQUEST` bytes overruns the buffer
of `LogFileDB::Put`, and no value the message area that it is sent back in (`never_overruns`);
the clients do not check what they send.

An exception out of the table is caught by nobody: the call does not go on.
-/

namespace LogDirect.Store

open Lib Lib.Atomic
open Sync (StoreCall StoreRet Server ServerLabel Front)

/-! ## The store -/

/-- Where a call of `CuckooDB` is. -/
inductive DbPc
  | idle
  | entered (c : StoreCall)
  | inTable (c : StoreCall)
  -- before `log_->Put`
  | logging (key val : Bytes)
  | returning (r : StoreRet)

/-- `CuckooDB`, with the call of each thread. -/
structure TableDB where
  table : Cuckoo.LockWorld Bytes Bytes
  log : LogFileDB
  calls : Nat → DbPc

/-- A thread calls, goes on to the table, or appends to the log; the table makes a step; a
thread returns. -/
inductive DbLabel
  | invoke (i : Nat) (c : StoreCall)
  | enter (i : Nat)
  | table (l : Cuckoo.Act Bytes Bytes)
  | log (i : Nat)
  | respond (i : Nat)

/-- The call of the table that a call makes. `SetSync` makes none. -/
def tableCall : StoreCall → Option (Cuckoo.Call Bytes Bytes)
  | .put key val => some (.insertOrAssign key val)
  | .get key => some (.find key)
  | .delete key => some (.eraseKey key)
  | .setSync => none

/-- How it goes on with the answer. `find` of an absent key is the empty string. -/
def tableAnswer : StoreCall → Cuckoo.Ret Bytes → Option DbPc
  | .put key val, .inserted _ => some (.logging key val)
  | .get _, .found v => some (.returning (.got (some (v.getD []))))
  | .delete _, .erased _ => some (.returning (.deleted true))
  | _, _ => none

namespace TableDB

/-- A new store. -/
def create : TableDB := ⟨.create Cuckoo.defaultSize, ⟨[]⟩, fun _ => .idle⟩

/-- One thread goes on. -/
def set (s : TableDB) (i : Nat) (pc : DbPc) : TableDB :=
  { s with calls := Function.update s.calls i pc }

/-- The table changes, and one thread goes on. -/
def setTable (s : TableDB) (w : Cuckoo.LockWorld Bytes Bytes) (i : Nat) (pc : DbPc) : TableDB :=
  ⟨w, s.log, Function.update s.calls i pc⟩

/-- One step. -/
def step (cfg : Cuckoo.Config Bytes) (s : TableDB) : DbLabel → Option TableDB
  | .invoke i c =>
      match s.calls i with
      | .idle => some (s.set i (.entered c))
      | _ => none
  | .enter i =>
      match s.calls i with
      | .entered c =>
          match tableCall c with
          | some tc => (s.table.step cfg (.invoke i tc)).map fun w => s.setTable w i (.inTable c)
          | none => some (s.set i (.returning .synced))
      | _ => none
  | .table l =>
      match s.table.seen l with
      | [] => (s.table.step cfg l).map fun w => { s with table := w }
      | [.respond i r] =>
          match s.calls i with
          | .inTable c =>
              (tableAnswer c r).bind fun pc =>
                (s.table.step cfg l).map fun w => s.setTable w i pc
          | _ => none
      | _ => none
  | .log i =>
      match s.calls i with
      | .logging key val =>
          (s.log.put key val).map fun log =>
            ⟨s.table, log, Function.update s.calls i (.returning (.stored true))⟩
      | _ => none
  | .respond i =>
      match s.calls i with
      | .returning _ => some (s.set i .idle)
      | _ => none

/-- What the callers see. -/
def seen (s : TableDB) : DbLabel → List (Event Nat StoreCall StoreRet)
  | .invoke i c => [.invoke i c]
  | .respond i =>
      match s.calls i with
      | .returning r => [.respond i r]
      | _ => []
  | _ => []

end TableDB

/-- The store as an object. -/
def tableDB (cfg : Cuckoo.Config Bytes) : Object TableDB DbLabel StoreCall StoreRet where
  step := TableDB.step cfg
  seen := TableDB.seen
  invoke := .invoke

/-! ## The plain map -/

/-- The pairs of `CuckooDB` as a `DBType`: an absent key has the empty value, and `Delete`
always succeeds. -/
def cuckooMap : DBType DB where
  put db key val := (true, Function.update db key (some val))
  get db key := (some ((db key).getD []), db)
  delete db key := (true, Function.update db key none)
  putBatch := DB.putBatch
  setSync db := db

/-- What the call of a thread will return, once the table has answered. -/
def DbPc.result : DbPc → Option StoreRet
  | .logging _ _ => some (.stored true)
  | .returning r => some r
  | _ => none

variable {c : StoreCall} {cfg : Cuckoo.Config Bytes} {a : State Nat StoreCall StoreRet DB}
  {front : Front} {tr : List (Server TableDB × ServerLabel DbLabel)} {s : Server TableDB}

/-- The answer of the plain map to the call of the table is the answer to the call. -/
theorem tableAnswer_exec {tc : Cuckoo.Call Bytes Bytes} (h : tableCall c = some tc) (m : DB) :
    ∃ pc, tableAnswer c (tc.exec m).1 = some pc ∧
      pc.result = some (c.exec cuckooMap m).1 ∧ (tc.exec m).2 = (c.exec cuckooMap m).2 := by
  cases c with
  | put key val =>
    cases h
    rw [Cuckoo.Call.exec_insertOrAssign]
    exact ⟨_, rfl, rfl, rfl⟩
  | get key =>
    cases h
    exact ⟨_, rfl, rfl, rfl⟩
  | delete key =>
    cases h
    rw [Cuckoo.Call.exec_eraseKey]
    exact ⟨_, rfl, rfl, rfl⟩
  | setSync => cases h

theorem tableAnswer_threw (c : StoreCall) : tableAnswer c .threw = none := by
  cases c <;> rfl

/-! ## The store follows the map -/

/-- A thread in the store, in the table, and on the plain map. -/
inductive CallAt : DbPc → Phase (Cuckoo.Call Bytes Bytes) (Cuckoo.Ret Bytes) →
    Phase StoreCall StoreRet → Prop
  | idle : CallAt .idle .idle .idle
  | entered (c : StoreCall) : CallAt (.entered c) .idle (.called c)
  | waiting {c : StoreCall} {tc} : tableCall c = some tc → CallAt (.inTable c) (.called tc) (.called c)
  -- the call has taken effect
  | answered {c : StoreCall} {r pc sr} : tableAnswer c r = some pc → pc.result = some sr →
      CallAt (.inTable c) (.answered r) (.answered sr)
  -- the call will not go on
  | threw {c : StoreCall} {r} : tableAnswer c r = none → CallAt (.inTable c) (.answered r) (.called c)
  | done {pc sr} : pc.result = some sr → CallAt pc .idle (.answered sr)

/-- The store, its table on the plain map, and the store on the plain map. -/
structure TableDBAt (cfg : Cuckoo.Config Bytes) (s : TableDB)
    (b : State Nat (Cuckoo.Call Bytes Bytes) (Cuckoo.Ret Bytes) DB)
    (a : State Nat StoreCall StoreRet DB) : Prop where
  table : Cuckoo.LocksFollow cfg s.table b
  obj : a.obj = b.obj
  calls : ∀ i, CallAt (s.calls i) (b.phase i) (a.phase i)

section

variable {cfg : Cuckoo.Config Bytes} {s s' : TableDB} {i : Nat}
  {b b' : State Nat (Cuckoo.Call Bytes Bytes) (Cuckoo.Ret Bytes) DB}
  {a a' : State Nat StoreCall StoreRet DB}

/-- One thread changes, and the table. -/
theorem TableDBAt.set (h : TableDBAt cfg s b a) (i : Nat) {pc : DbPc}
    {w : Cuckoo.LockWorld Bytes Bytes} {log : LogFileDB} (htable : Cuckoo.LocksFollow cfg w b')
    (hobj : a'.obj = b'.obj) (hb : ∀ j, j ≠ i → b'.phase j = b.phase j)
    (ha : ∀ j, j ≠ i → a'.phase j = a.phase j) (hcall : CallAt pc (b'.phase i) (a'.phase i)) :
    TableDBAt cfg ⟨w, log, Function.update s.calls i pc⟩ b' a' := by
  refine ⟨htable, hobj, fun j => ?_⟩
  dsimp only
  by_cases hj : j = i
  · subst hj
    rw [Function.update_self]
    exact hcall
  · rw [Function.update_of_ne hj, hb j hj, ha j hj]
    exact h.calls j

/-- A thread goes on by itself. -/
theorem TableDBAt.go (h : TableDBAt cfg s b a) (i : Nat) {pc : DbPc} (log : LogFileDB)
    (hcall : CallAt pc (b.phase i) (a.phase i)) :
    TableDBAt cfg ⟨s.table, log, Function.update s.calls i pc⟩ b a :=
  h.set i h.table h.obj (fun _ _ => rfl) (fun _ _ => rfl) hcall

/-- A thread calls. -/
theorem TableDBAt.invoke (h : TableDBAt cfg s b a) {c : StoreCall}
    (hstep : s.step cfg (.invoke i c) = some s') :
    ∃ a', Step (fun c m r m' => (r, m') = c.exec cuckooMap m) a [.invoke i c] a' ∧
      TableDBAt cfg s' b a' := by
  cases hpc : s.calls i with
  | idle =>
    rw [TableDB.step, hpc] at hstep
    cases hstep
    have hi := h.calls i
    rw [hpc] at hi
    generalize hb : b.phase i = p at hi
    generalize ha : a.phase i = q at hi
    cases hi with
    | idle =>
      refine ⟨_, .invoke c ha, h.set i h.table h.obj (fun _ _ => rfl)
        (fun _ hj => Function.update_of_ne hj ..) ?_⟩
      dsimp only
      rw [Function.update_self, hb]
      exact .entered c
    | done hres => cases hres
  | _ =>
    rw [TableDB.step, hpc] at hstep
    cases hstep

/-- A thread goes on to the table; `SetSync` is done. -/
theorem TableDBAt.enter (h : TableDBAt cfg s b a) (hstep : s.step cfg (.enter i) = some s') :
    ∃ b' a', Step (fun c m r m' => (r, m') = c.exec cuckooMap m) a [] a' ∧
      TableDBAt cfg s' b' a' := by
  cases hpc : s.calls i with
  | entered c =>
    have hi := h.calls i
    rw [hpc] at hi
    generalize hb : b.phase i = p at hi
    generalize ha : a.phase i = q at hi
    cases hi with
    | done hres => cases hres
    | entered _ =>
      unfold TableDB.step at hstep
      dsimp only at hstep
      rw [hpc] at hstep
      dsimp only at hstep
      cases htc : tableCall c with
      | some tc =>
        rw [htc] at hstep
        obtain ⟨w, hw, rfl⟩ := Option.map_eq_some_iff.mp hstep
        obtain ⟨b', hone, hfollow⟩ :=
          (Cuckoo.object_linear cfg).step _ (.invoke i tc) _ _ h.table (fun _ _ _ => trivial) hw
        cases hone with
        | invoke _ _ =>
          refine ⟨_, a, .stay a, h.set i hfollow h.obj (fun _ hj => Function.update_of_ne hj ..)
            (fun _ _ => rfl) ?_⟩
          dsimp only
          rw [Function.update_self, ha]
          exact .waiting htc
      | none =>
        rw [htc] at hstep
        cases hstep
        have hc : c = .setSync := by
          cases c with
          | setSync => rfl
          | _ => cases htc
        subst hc
        refine ⟨b, _, .effect ha rfl, h.set i h.table h.obj (fun _ _ => rfl)
          (fun _ hj => Function.update_of_ne hj ..) ?_⟩
        dsimp only
        rw [Function.update_self, hb]
        exact .done rfl
  | _ =>
    rw [TableDB.step, hpc] at hstep
    cases hstep

/-- A call of the table takes effect, and with it the call of the store, or it is given up. -/
theorem TableDBAt.effect (h : TableDBAt cfg s b a) {tc : Cuckoo.Call Bytes Bytes}
    {r : Cuckoo.Ret Bytes} {m' : DB} {w : Cuckoo.LockWorld Bytes Bytes}
    (hcalled : b.phase i = .called tc) (heff : Cuckoo.Effect tc b.obj r m')
    (hfollow : Cuckoo.LocksFollow cfg w ⟨m', Function.update b.phase i (.answered r)⟩) :
    ∃ a', Step (fun c m r m' => (r, m') = c.exec cuckooMap m) a [] a' ∧
      TableDBAt cfg ⟨w, s.log, s.calls⟩ ⟨m', Function.update b.phase i (.answered r)⟩ a' := by
  have hi := h.calls i
  rw [hcalled] at hi
  have hself : Function.update s.calls i (s.calls i) = s.calls := Function.update_eq_self ..
  generalize hpc : s.calls i = pc at hi
  generalize ha : a.phase i = q at hi
  rw [hpc] at hself
  cases hi with
  | @waiting c _ htc =>
    rw [← hself]
    rcases heff with hexec | ⟨rfl, rfl, -⟩
    · obtain ⟨pc, hanswer, hres, hmap⟩ := tableAnswer_exec htc b.obj
      rw [← hexec] at hanswer hmap
      refine ⟨⟨m', Function.update a.phase i (.answered (c.exec cuckooMap b.obj).1)⟩, ?_, ?_⟩
      · refine .effect ha ?_
        rw [h.obj]
        exact Prod.ext rfl hmap
      · refine h.set i hfollow rfl (fun _ hj => Function.update_of_ne hj ..)
          (fun _ hj => Function.update_of_ne hj ..) ?_
        dsimp only
        rw [Function.update_self, Function.update_self]
        exact .answered hanswer hres
    · refine ⟨a, .stay a, h.set i hfollow h.obj (fun _ hj => Function.update_of_ne hj ..)
        (fun _ _ => rfl) ?_⟩
      dsimp only
      rw [Function.update_self, ha]
      exact .threw (tableAnswer_threw c)

/-- The table makes a step. -/
theorem TableDBAt.table_step (h : TableDBAt cfg s b a) {l : Cuckoo.Act Bytes Bytes}
    (hstep : s.step cfg (.table l) = some s') :
    ∃ b' a', Step (fun c m r m' => (r, m') = c.exec cuckooMap m) a [] a' ∧
      TableDBAt cfg s' b' a' := by
  unfold TableDB.step at hstep
  dsimp only at hstep
  split at hstep
  · rename_i hseen
    obtain ⟨w, hw, rfl⟩ := Option.map_eq_some_iff.mp hstep
    obtain ⟨b', hone, hfollow⟩ :=
      (Cuckoo.object_linear cfg).step _ _ _ _ h.table (fun _ _ _ => trivial) hw
    have hseen : (Cuckoo.object cfg).seen s.table l = [] := hseen
    rw [hseen] at hone
    cases hone with
    | stay => exact ⟨b, a, .stay a, hfollow, h.obj, h.calls⟩
    | effect hcalled heff =>
      obtain ⟨a', hone, h'⟩ := h.effect hcalled heff hfollow
      exact ⟨_, a', hone, h'⟩
  · rename_i i r hseen
    split at hstep
    · rename_i c hpc
      obtain ⟨pc, hanswer, hstep⟩ := Option.bind_eq_some_iff.mp hstep
      obtain ⟨w, hw, rfl⟩ := Option.map_eq_some_iff.mp hstep
      obtain ⟨b', hone, hfollow⟩ :=
        (Cuckoo.object_linear cfg).step _ _ _ _ h.table (fun _ _ _ => trivial) hw
      have hseen : (Cuckoo.object cfg).seen s.table l = [.respond i r] := hseen
      rw [hseen] at hone
      cases hone with
      | respond hanswered =>
        have hi := h.calls i
        rw [hpc, hanswered] at hi
        refine ⟨_, a, .stay a, h.set i hfollow h.obj (fun _ hj => Function.update_of_ne hj ..)
          (fun _ _ => rfl) ?_⟩
        dsimp only
        rw [Function.update_self]
        generalize a.phase i = q at hi
        cases hi with
        | answered hanswer' hres =>
          cases hanswer.symm.trans hanswer'
          exact .done hres
        | threw hnone => cases hanswer.symm.trans hnone
    · cases hstep
  · cases hstep

/-- A thread appends to the log. -/
theorem TableDBAt.log_step (h : TableDBAt cfg s b a) (hstep : s.step cfg (.log i) = some s') :
    TableDBAt cfg s' b a := by
  cases hpc : s.calls i with
  | logging key val =>
    rw [TableDB.step, hpc] at hstep
    obtain ⟨log, -, rfl⟩ := Option.map_eq_some_iff.mp hstep
    have hi := h.calls i
    rw [hpc] at hi
    refine h.go i log ?_
    generalize b.phase i = p at hi ⊢
    generalize a.phase i = q at hi ⊢
    cases hi with
    | done hres =>
      cases hres
      exact .done rfl
  | _ =>
    rw [TableDB.step, hpc] at hstep
    cases hstep

/-- A thread returns. -/
theorem TableDBAt.respond (h : TableDBAt cfg s b a) (hstep : s.step cfg (.respond i) = some s') :
    ∃ a', Step (fun c m r m' => (r, m') = c.exec cuckooMap m) a (s.seen (.respond i)) a' ∧
      TableDBAt cfg s' b a' := by
  cases hpc : s.calls i with
  | returning r =>
    have hseen : s.seen (.respond i) = [.respond i r] := by
      rw [TableDB.seen, hpc]
    rw [TableDB.step, hpc] at hstep
    cases hstep
    rw [hseen]
    have hi := h.calls i
    rw [hpc] at hi
    generalize hb : b.phase i = p at hi
    generalize ha : a.phase i = q at hi
    cases hi with
    | done hres =>
      cases hres
      refine ⟨_, .respond ha, h.set i h.table h.obj (fun _ _ => rfl)
        (fun _ hj => Function.update_of_ne hj ..) ?_⟩
      dsimp only
      rw [Function.update_self, hb]
      exact .idle
  | _ =>
    rw [TableDB.step, hpc] at hstep
    cases hstep

end

/-! ## Sizes -/

/-- A request to store the pair fits the message area. -/
def CallFits : StoreCall → Prop
  | .put key val => sizeofRequest + key.length + val.length ≤ maxRequest
  | _ => True

/-- So does that of a pair under way. -/
def DbPc.Fits : DbPc → Prop
  | .entered c => CallFits c
  | .inTable c => CallFits c
  | .logging key val => sizeofRequest + key.length + val.length ≤ maxRequest
  | _ => True

/-- What a client asks for fits. -/
theorem storeCall_fits (q : Sync.Call) (c : StoreCall) (h : Sync.storeCall q = some c) :
    CallFits c := by
  cases q with
  | write r =>
    cases h
    exact r.fits
  | close => cases h
  | _ =>
    cases h
    trivial

theorem tableAnswer_fits {r : Cuckoo.Ret Bytes} {pc : DbPc} (h : tableAnswer c r = some pc)
    (hc : CallFits c) : pc.Fits := by
  cases c <;> cases r <;> cases h <;> exact hc

theorem update_fits {calls : Nat → DbPc} (h : ∀ i, (calls i).Fits) (i : Nat) {pc : DbPc}
    (hpc : pc.Fits) : ∀ j, (Function.update calls i pc j).Fits := by
  intro j
  by_cases hj : j = i
  · subst hj
    rw [Function.update_self]
    exact hpc
  · rw [Function.update_of_ne hj]
    exact h j

/-- What is under way fits, if what is called for does. -/
theorem TableDB.step_fits {s s' : TableDB} {l : DbLabel} (h : ∀ i, (s.calls i).Fits)
    (hl : ∀ i c, s.seen l = [.invoke i c] → CallFits c) (hstep : s.step cfg l = some s') :
    ∀ i, (s'.calls i).Fits := by
  cases l with
  | invoke i c =>
    unfold TableDB.step at hstep
    dsimp only at hstep
    split at hstep
    · cases hstep
      exact update_fits h i (hl i c rfl)
    · cases hstep
  | enter i =>
    unfold TableDB.step at hstep
    dsimp only at hstep
    split at hstep
    · rename_i c hpc
      have hc : (DbPc.entered c).Fits := hpc ▸ h i
      split at hstep
      · obtain ⟨w, -, rfl⟩ := Option.map_eq_some_iff.mp hstep
        exact update_fits h i hc
      · cases hstep
        exact update_fits h i trivial
    · cases hstep
  | table l =>
    unfold TableDB.step at hstep
    dsimp only at hstep
    split at hstep
    · obtain ⟨w, -, rfl⟩ := Option.map_eq_some_iff.mp hstep
      exact h
    · rename_i i r _
      split at hstep
      · rename_i c hpc
        have hc : (DbPc.inTable c).Fits := hpc ▸ h i
        obtain ⟨pc, hanswer, hstep⟩ := Option.bind_eq_some_iff.mp hstep
        obtain ⟨w, -, rfl⟩ := Option.map_eq_some_iff.mp hstep
        exact update_fits h i (tableAnswer_fits hanswer hc)
      · cases hstep
    · cases hstep
  | log i =>
    unfold TableDB.step at hstep
    dsimp only at hstep
    split at hstep
    · obtain ⟨log, -, rfl⟩ := Option.map_eq_some_iff.mp hstep
      exact update_fits h i trivial
    · cases hstep
  | respond i =>
    unfold TableDB.step at hstep
    dsimp only at hstep
    split at hstep
    · cases hstep
      exact update_fits h i trivial
    · cases hstep

/-- A reply with the value fits the message area. -/
def ValueFits (v : Bytes) : Prop := sizeofReply + v.length ≤ maxRequest

/-- On the plain map: the values that are stored and those that have been got fit. -/
structure Small (a : State Nat StoreCall StoreRet DB) : Prop where
  pairs : ∀ key v, a.obj key = some v → ValueFits v
  called : ∀ i c, a.phase i = .called c → CallFits c
  got : ∀ i v, a.phase i = .answered (.got (some v)) → ValueFits v

theorem small_start : Small (.start fun _ => none) := by
  refine ⟨?_, ?_, ?_⟩
  · intro key v h
    cases h
  · intro i c h
    cases h
  · intro i v h
    cases h

/-- A client goes from one phase to another. -/
theorem Small.update (h : Small a) (i : Nat) {m : DB} {p : Phase StoreCall StoreRet}
    (hm : ∀ key v, m key = some v → ValueFits v) (hcalled : ∀ c, p = .called c → CallFits c)
    (hgot : ∀ v, p = .answered (.got (some v)) → ValueFits v) :
    Small ⟨m, Function.update a.phase i p⟩ := by
  refine ⟨hm, fun j c hj => ?_, fun j v hj => ?_⟩
  · dsimp only at hj
    by_cases hji : j = i
    · subst hji
      rw [Function.update_self] at hj
      exact hcalled c hj
    · rw [Function.update_of_ne hji] at hj
      exact h.called j c hj
  · dsimp only at hj
    by_cases hji : j = i
    · subst hji
      rw [Function.update_self] at hj
      exact hgot v hj
    · rw [Function.update_of_ne hji] at hj
      exact h.got j v hj

theorem valueFits_nil : ValueFits [] := by
  unfold ValueFits
  decide

/-- A call that fits leaves values that fit, and gets one. -/
theorem Small.exec (h : Small a) (hc : CallFits c) :
    (∀ key v, (c.exec cuckooMap a.obj).2 key = some v → ValueFits v) ∧
      ∀ v, (c.exec cuckooMap a.obj).1 = .got (some v) → ValueFits v := by
  cases c with
  | put key val =>
    refine ⟨fun k v hk => ?_, fun v hv => by cases hv⟩
    change Function.update a.obj key (some val) k = some v at hk
    by_cases hkey : k = key
    · rw [hkey, Function.update_self] at hk
      cases hk
      have hc : sizeofRequest + key.length + val.length ≤ maxRequest := hc
      unfold ValueFits
      rw [sizeofRequest] at hc
      rw [sizeofReply]
      omega
    · rw [Function.update_of_ne hkey] at hk
      exact h.pairs k v hk
  | get key =>
    refine ⟨h.pairs, fun v hv => ?_⟩
    cases hv
    cases hkey : a.obj key with
    | none => exact valueFits_nil
    | some v => exact h.pairs key v hkey
  | delete key =>
    refine ⟨fun k v hk => ?_, fun v hv => by cases hv⟩
    change Function.update a.obj key none k = some v at hk
    by_cases hkey : k = key
    · rw [hkey, Function.update_self] at hk
      cases hk
    · rw [Function.update_of_ne hkey] at hk
      exact h.pairs k v hk
  | setSync => exact ⟨h.pairs, fun v hv => by cases hv⟩

theorem Small.step {a' : State Nat StoreCall StoreRet DB} {es : List (Event Nat StoreCall StoreRet)}
    (h : Small a) (hes : ∀ i c, es = [.invoke i c] → CallFits c)
    (hone : Step (fun c m r m' => (r, m') = c.exec cuckooMap m) a es a') : Small a' := by
  cases hone with
  | stay => exact h
  | @invoke t c hidle =>
    refine h.update t h.pairs ?_ ?_
    · rintro c' heq
      cases heq
      exact hes t c rfl
    · rintro v heq
      cases heq
  | @effect t c r m' hcalled heff =>
    obtain ⟨hpairs, hgot⟩ := h.exec (h.called t c hcalled)
    rw [← heff] at hpairs hgot
    refine h.update t hpairs ?_ ?_
    · rintro c' heq
      cases heq
    · rintro v heq
      cases heq
      exact hgot v rfl
  | @respond t r hanswered =>
    refine h.update t h.pairs ?_ ?_
    · rintro c' heq
      cases heq
    · rintro v heq
      cases heq

/-- The store and the plain map side by side. -/
structure TableDBFollows (cfg : Cuckoo.Config Bytes) (s : TableDB)
    (a : State Nat StoreCall StoreRet DB) : Prop where
  calls : ∃ b, TableDBAt cfg s b a
  fits : ∀ i, (s.calls i).Fits
  small : Small a

theorem tableDBFollows_start (cfg : Cuckoo.Config Bytes) :
    TableDBFollows cfg .create (.start fun _ => none) :=
  ⟨⟨.start fun _ => none, Cuckoo.locksFollow_start Cuckoo.defaultSize_lt, rfl, fun _ => .idle⟩,
    fun _ => trivial, small_start⟩

/-- `CuckooDB` on the table is followed by the plain map with atomic calls. -/
theorem tableDB_linear (cfg : Cuckoo.Config Bytes) :
    (tableDB cfg).Linear CallFits (fun c m r m' => (r, m') = c.exec cuckooMap m)
      (TableDBFollows cfg) := by
  refine ⟨fun _ _ _ => rfl, ?_⟩
  rintro s l s' a ⟨⟨b, h⟩, hfits, hsmall⟩ hok hstep
  have hstep' : ∃ b' a', Step (fun c m r m' => (r, m') = c.exec cuckooMap m) a (s.seen l) a' ∧
      TableDBAt cfg s' b' a' := by
    cases l with
    | invoke i c =>
      obtain ⟨a', hone, h'⟩ := h.invoke hstep
      exact ⟨b, a', hone, h'⟩
    | enter i => exact h.enter hstep
    | table l => exact h.table_step hstep
    | log i => exact ⟨b, a, .stay a, h.log_step hstep⟩
    | respond i =>
      obtain ⟨a', hone, h'⟩ := h.respond hstep
      exact ⟨b, a', hone, h'⟩
  obtain ⟨b', a', hone, h'⟩ := hstep'
  exact ⟨a', hone, ⟨b', h'⟩, TableDB.step_fits hfits hok hstep, hsmall.step hok hone⟩

/-! ## The server -/

/-- The default server: `SyncServer` or `PMemServer` with a `CuckooDB`. -/
def defaultServer (front : Front) (cfg : Cuckoo.Config Bytes) :
    TSys (Server TableDB) (ServerLabel DbLabel) :=
  Sync.server front.send (tableDB cfg) .create

theorem cuckooMap_answers (c : StoreCall) (m : DB) (r : StoreRet) (m' : DB)
    (h : (r, m') = c.exec cuckooMap m) : r.Answers c := by
  have hr : r = (c.exec cuckooMap m).1 := congrArg Prod.fst h
  rw [hr]
  exact Sync.exec_answers cuckooMap m c

/-- The server, the map that its clerks see and the map that its clients see. -/
theorem defaultServer_linear (hrun : (defaultServer front cfg).Run ⟨[], .create⟩ tr s) :
    ∃ place a b, Steps (Sync.CallEffect fun c m r m' => (r, m') = c.exec cuckooMap m)
        (.start fun _ => none) (seenOf Server.seen tr) b ∧
      Sync.ServerFollows place (TableDBFollows cfg) s a b := by
  obtain ⟨place, hsend⟩ := front.sends
  obtain ⟨a, b, hsteps, h⟩ := Sync.server_linear hsend (tableDB_linear cfg) storeCall_fits
    cuckooMap_answers (tableDBFollows_start cfg) hrun
  exact ⟨place, a, b, hsteps, h⟩

/-- **The default server is an atomic map.** For any number of clients, in every order of the
steps of clients, network, clerks and table, lock by lock, each call takes effect on one
plain map at one moment between its start and its return. -/
theorem default_linearizable (hrun : (defaultServer front cfg).Run ⟨[], .create⟩ tr s) :
    ∃ b, Steps (fun q db r db' => q ≠ .close ∧ (r, db') = Sync.exec cuckooMap db q)
        (.start fun _ => none) (seenOf Server.seen tr) b ∧ s.store.table.table.Inv cfg b.obj := by
  obtain ⟨place, a, b, hsteps, h⟩ := defaultServer_linear hrun
  refine ⟨b, hsteps.mono fun _ _ _ _ heff => Sync.callEffect_exec heff, ?_⟩
  obtain ⟨t, hdb⟩ := h.store.calls
  rw [h.obj, hdb.obj]
  exact hdb.table.follows.table

/-- Two clients connect; one asks to store a pair and the other one for its key, and both clerks
call the table. The second one has to wait for the lock of the bucket. -/
def contendSchedule : List (ServerLabel DbLabel) :=
  [.connect 0 (fun _ => 0) (fun _ => 0) (fun _ => 0),
    .connect 0 (fun _ => 0) (fun _ => 0) (fun _ => 0),
    .conn 0 (.call (.write Sync.smallRecord)), .conn 1 (.call (.get Sync.smallKey)),
    .conn 0 .toClerk, .conn 0 .toClerk, .conn 1 .toClerk, .conn 1 .toClerk,
    .take 0, .take 1, .call 0, .call 1, .store (.enter 0), .store (.enter 1)] ++
    List.replicate 3 (.store (.table (.run 0))) ++ List.replicate 2 (.store (.table (.run 1))) ++
    List.replicate 7 (.store (.table (.run 0))) ++ List.replicate 8 (.store (.table (.run 1)))

/-- The value is returned to the second client before `Put` has returned to the first one. -/
theorem default_linearizable_two :
    ∃ tr s, (defaultServer .sync (Cuckoo.lengthConfig UInt8)).Run ⟨[], .create⟩ tr s ∧
      seenOf Server.seen tr = [.invoke 0 (.write Sync.smallRecord), .invoke 1 (.get Sync.smallKey),
        .respond 1 (.value (some [2])), .respond 0 .done] ∧
      ∃ b, Steps (fun q db r db' => q ≠ .close ∧ (r, db') = Sync.exec cuckooMap db q)
        (.start fun _ => none) (seenOf Server.seen tr) b ∧
        s.store.table.table.Inv (Cuckoo.lengthConfig UInt8) b.obj := by
  obtain ⟨tr, s, htr, hseen⟩ : ∃ tr s, (defaultServer .sync (Cuckoo.lengthConfig UInt8)).trace
      ⟨[], .create⟩ (contendSchedule ++ [.store (.table (.respond 1)), .store (.respond 1),
        .conn 1 .toClient, .conn 1 .toClient, .conn 1 .client, .store (.table (.respond 0)),
        .store (.log 0), .store (.respond 0), .conn 0 .toClient, .conn 0 .toClient,
        .conn 0 .client]) = some (tr, s) ∧
      seenOf Server.seen tr = [.invoke 0 (.write Sync.smallRecord), .invoke 1 (.get Sync.smallKey),
        .respond 1 (.value (some [2])), .respond 0 .done] := ⟨_, _, rfl, rfl⟩
  have hrun := TSys.run_of_trace htr
  exact ⟨tr, s, hrun, hseen, default_linearizable hrun⟩

/-- As long as no client sends a request of more than `MAX_REQUEST` bytes, `LogFileDB::Put` stays
inside its buffer, and a value that is sent back inside the message area. -/
theorem never_overruns (hrun : (defaultServer front cfg).Run ⟨[], .create⟩ tr s) (i : Nat) :
    (∀ key val, s.store.calls i = .logging key val →
      ∃ s', (tableDB cfg).step s.store (.log i) = some s') ∧
    ∀ v, s.store.calls i = .returning (.got (some v)) → sizeofReply + v.length ≤ maxRequest := by
  obtain ⟨place, a, b, -, h⟩ := defaultServer_linear hrun
  refine ⟨fun key val hlogging => ?_, fun v hreturning => ?_⟩
  · have hfits := h.store.fits i
    rw [hlogging] at hfits
    have hbuffer : 8 + key.length + val.length ≤ LogFileDB.bufferSize := by
      have hfits : sizeofRequest + key.length + val.length ≤ maxRequest := hfits
      rw [sizeofRequest, maxRequest] at hfits
      rw [LogFileDB.bufferSize]
      omega
    have hlog : s.store.step cfg (.log i) = (s.store.log.put key val).map fun log =>
        ⟨s.store.table, log, Function.update s.store.calls i (.returning (.stored true))⟩ := by
      rw [TableDB.step, hlogging]
    rw [LogFileDB.put, if_pos hbuffer] at hlog
    exact ⟨_, hlog⟩
  · obtain ⟨t, hdb⟩ := h.store.calls
    have hi := hdb.calls i
    rw [hreturning] at hi
    refine h.store.small.got i v ?_
    generalize t.phase i = p at hi
    generalize a.phase i = q at hi ⊢
    cases hi with
    | done hres =>
      cases hres
      rfl

/-- What `LogFileDB::Put` does before it appends. -/
def insertSchedule : List DbLabel :=
  .enter 0 :: List.replicate 10 (.table (.run 0)) ++ [.table (.respond 0)]

theorem insertSchedule_hidden (cfg : Cuckoo.Config Bytes) :
    ∀ l ∈ insertSchedule, ∀ w, (tableDB cfg).seen w l = [] := by
  intro l hl w
  simp only [insertSchedule, List.cons_append, List.mem_cons, List.mem_append, List.mem_replicate,
    List.not_mem_nil, or_false] at hl
  rcases hl with rfl | ⟨-, rfl⟩ | rfl <;> rfl

/-- A request of exactly `MAX_REQUEST` bytes: its pair is about to be appended, and takes the
whole buffer of `LogFileDB::Put`. -/
theorem never_overruns_whole :
    ∃ tr s, (defaultServer .sync (Cuckoo.lengthConfig UInt8)).Run ⟨[], .create⟩ tr s ∧
      s.store.calls 0 = .logging [1] (List.replicate 8183 2) ∧
      8 + 1 + 8183 = LogFileDB.bufferSize ∧
      (∃ s', (tableDB (Cuckoo.lengthConfig UInt8)).step s.store (.log 0) = some s') ∧
      ∀ v, s.store.calls 0 = .returning (.got (some v)) → sizeofReply + v.length ≤ maxRequest := by
  obtain ⟨tr₁, x, hrun₁⟩ := Sync.first_call_taken (tableDB (Cuckoo.lengthConfig UInt8)) .create
    (fun _ => 0) (q := .write (Sync.largeRecord 8183 (Nat.le_refl _))) rfl
  obtain ⟨w, w', hinvoke, hinsert, hlogging⟩ : ∃ w w' : TableDB,
      (tableDB (Cuckoo.lengthConfig UInt8)).step .create
        (.invoke 0 (.put [1] (List.replicate 8183 2))) = some w ∧
      insertSchedule.foldlM (tableDB (Cuckoo.lengthConfig UInt8)).step w = some w' ∧
      w'.calls 0 = .logging [1] (List.replicate 8183 2) := ⟨_, _, rfl, rfl, rfl⟩
  have hcall : (defaultServer .sync (Cuckoo.lengthConfig UInt8)).step
      ⟨[⟨x, .holding (.put [1] (List.replicate 8183 2))⟩], .create⟩ (.call 0) =
        some ⟨[⟨x, .calling⟩], w⟩ := congrArg (Option.map _) hinvoke
  obtain ⟨tr₂, hrun₂⟩ := Sync.store_goes_on (insertSchedule_hidden _) hinsert
  have hrun := (hrun₁.snoc hcall).trans hrun₂
  obtain ⟨happends, hreplies⟩ := never_overruns hrun 0
  exact ⟨_, _, hrun, hlogging, rfl, happends _ _ hlogging, hreplies⟩

end LogDirect.Store
