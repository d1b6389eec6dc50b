import LogDirect.Group.Solo
import LogDirect.Store.Cuckoo
import LogDirect.Cuckoo.Exclusion

/-!
# The group front end on CuckooDB: the system

`front_type` "group" with `db_type` "cuckoodb". In `Group.Model` the store is called in one step.
Here `CuckooDB` is on a table that moves by itself: `Get` is a call of `find`, and `PutBatch`
(`dbtype.h`, lines 223–233) calls `insert_or_assign` for one entry of the batch after the other
and appends the buffer to the log at the end. Clerks with a `GET` call the table while a leader
is in that loop.

The steps of the clerks are those of `Group.Model`. The entries are read from the static
`batch`, of which `PutBatch` has references. An exception out of the table is caught by
nobody: the clerk does not go on.
-/

namespace LogDirect.Group

open Lib Lib.Atomic
open Sync (Seen clip)
open Store (LogFileDB)

variable {ω ℓ : Type}

/-- What a clerk does in `CuckooDB`. -/
inductive Work
  | free
  -- in `find`
  | finding
  -- in the loop of `PutBatch`, before round `k`
  | looping (k : Nat)
  -- in `insert_or_assign`, in round `k`
  | inserting (k : Nat)

/-- The front end with the log, what each clerk does in the store, and the table. -/
structure TableServer (ω : Type) where
  server : Server Nat LogFileDB
  work : Nat → Work
  table : ω

/-- A step of the front end; a clerk calls the table; the table makes a step. -/
inductive TableLabel (ℓ : Type)
  | front (l : Label Nat)
  | enter (i : Nat)
  | table (l : ℓ)

/-- What `CuckooDB` does apart from the calls of its table, of which `find` gave `v`. A group
clerk calls neither `Put` nor `Delete`. -/
def besides (v : Option Bytes) : DBType LogFileDB where
  put log _ _ := (true, log)
  get log _ := (some (v.getD []), log)
  delete log _ := (true, log)
  putBatch log _ _ buf := log.putBatch buf
  setSync log := log

namespace TableServer

/-- What the clerks do in the store after a step of the front end: a leader that has built its
batch calls `PutBatch`, and returns from it behind the loop. A `GET` is not served here. -/
def works (s : TableServer ω) : Label Nat → Option (Nat → Work)
  | .serve i => if Request.op (s.server.conns i).request = some .get then none else some s.work
  | .build i => some (Function.update s.work i (.looping 0))
  | .putBatch i =>
      match s.work i with
      | .looping k =>
          if k < s.server.batch.keys.length then none else some (Function.update s.work i .free)
      | _ => none
  | .call _ _ | .client _ | .toClerk _ | .toClient _ | .take _ | .wake _ | .complete _ | .reply _
  | .leave _ => some s.work

/-- The call of the table that a clerk is about to make. -/
def calling (s : TableServer ω) (i : Nat) : Option (Cuckoo.Call Bytes Bytes × Work) :=
  match s.work i with
  | .free =>
      match (s.server.conns i).clerk.pc with
      | .serving =>
          if Request.op (s.server.conns i).request = some .get then
            some (.find (Request.key (s.server.conns i).request), .finding)
          else none
      | _ => none
  | .looping k => s.server.batch.entries[k]?.map fun e => (.insertOrAssign e.1 e.2, .inserting k)
  | _ => none

/-- How it goes on with the answer. -/
def answered (s : TableServer ω) (i : Nat) (r : Cuckoo.Ret Bytes) :
    Option (Server Nat LogFileDB × Work) :=
  match s.work i with
  | .finding =>
      match r with
      | .found v => (s.server.step (besides v) (.serve i)).map fun x => (x, .free)
      | _ => none
  | .inserting k =>
      match r with
      | .inserted _ => some (s.server, .looping (k + 1))
      | _ => none
  | _ => none

theorem calling_inv {s : TableServer ω} {i : Nat} {tc : Cuckoo.Call Bytes Bytes} {w : Work}
    (h : s.calling i = some (tc, w)) :
    (s.work i = .free ∧ (s.server.conns i).clerk.pc = .serving ∧
      Request.op (s.server.conns i).request = some .get ∧
      tc = .find (Request.key (s.server.conns i).request) ∧ w = .finding) ∨
    ∃ k e, s.work i = .looping k ∧ s.server.batch.entries[k]? = some e ∧
      tc = .insertOrAssign e.1 e.2 ∧ w = .inserting k := by
  unfold calling at h
  split at h
  · rename_i hwork
    split at h
    · rename_i hpc
      split at h
      · rename_i hop
        cases h
        exact .inl ⟨hwork, hpc, hop, rfl, rfl⟩
      · cases h
    · cases h
  · rename_i k hwork
    obtain ⟨e, he, heq⟩ := Option.map_eq_some_iff.mp h
    cases heq
    exact .inr ⟨k, e, hwork, he, rfl, rfl⟩
  · cases h

theorem answered_inv {s : TableServer ω} {i : Nat} {r : Cuckoo.Ret Bytes}
    {x : Server Nat LogFileDB} {w : Work} (h : s.answered i r = some (x, w)) :
    (∃ v, s.work i = .finding ∧ r = .found v ∧
      s.server.step (besides v) (.serve i) = some x ∧ w = .free) ∨
    ∃ k new, s.work i = .inserting k ∧ r = .inserted new ∧ x = s.server ∧ w = .looping (k + 1) := by
  unfold answered at h
  split at h
  · rename_i hwork
    split at h
    · rename_i v
      obtain ⟨y, hy, heq⟩ := Option.map_eq_some_iff.mp h
      cases heq
      exact .inl ⟨v, hwork, rfl, hy, rfl⟩
    · cases h
  · rename_i k hwork
    split at h
    · rename_i new
      cases h
      exact .inr ⟨k, new, hwork, rfl, rfl, rfl⟩
    · cases h
  · cases h

/-- One step. -/
def step (O : Object ω ℓ (Cuckoo.Call Bytes Bytes) (Cuckoo.Ret Bytes)) (s : TableServer ω) :
    TableLabel ℓ → Option (TableServer ω)
  | .front l =>
      (s.works l).bind fun work =>
        (s.server.step (besides none) l).map fun x => ⟨x, work, s.table⟩
  | .enter i =>
      (s.calling i).bind fun p =>
        (O.step s.table (O.invoke i p.1)).map fun o => ⟨s.server, Function.update s.work i p.2, o⟩
  | .table l =>
      match O.seen s.table l with
      | [] => (O.step s.table l).map fun o => ⟨s.server, s.work, o⟩
      | [.respond i r] =>
          (s.answered i r).bind fun p =>
            (O.step s.table l).map fun o => ⟨p.1, Function.update s.work i p.2, o⟩
      | _ => none

end TableServer

/-- What the callers of the clients see. -/
def Server.seen {σ : Type} (s : Server Nat σ) : Label Nat → List (Event Nat Call Ret)
  | .call i q => [.invoke i q]
  | .client i =>
      match (s.conns i).client.pc with
      | .waiting q => [.respond i (q.ret (s.conns i).link.client.msg)]
      | _ => []
  | _ => []

def TableServer.seen (s : TableServer ω) : TableLabel ℓ → List (Event Nat Call Ret)
  | .front l => s.server.seen l
  | _ => []

/-- The server and its clients, with an empty log and a table that nobody has called. -/
def onTable (O : Object ω ℓ (Cuckoo.Call Bytes Bytes) (Cuckoo.Ret Bytes)) (o : ω) :
    TSys (TableServer ω) (TableLabel ℓ) where
  init s := (system (besides none)).init s.server ∧ s.server.db = ⟨[]⟩ ∧ (∀ i, s.work i = .free) ∧
    s.table = o
  step := TableServer.step O

/-! ## The map that the clients see -/

/-- What a call does. A `SendDelete` stores the empty value, and says that it has deleted or
that it has not. -/
inductive GroupEffect : Call → DB → Ret → DB → Prop
  | write (r : Record) (db) :
      GroupEffect (.write r) db .done (Function.update db r.key (some r.val))
  | get (k : Key) (db) : GroupEffect (.get k) db (.value (some (clip ((db k.bytes).getD [])))) db
  | sync (db) : GroupEffect .sync db .done db
  | delete (k : Key) (found : Bool) (db) :
      GroupEffect (.delete k) db (.deleted found) (Function.update db k.bytes (some []))

/-- The pairs that calls store, one after the other. -/
def stored (qs : List Call) : DB :=
  replay (fun _ => none) (qs.map fun q => ((Seen.ofCall q).key, some (Seen.ofCall q).val))

theorem stored_snoc (qs : List Call) (q : Call) :
    stored (qs ++ [q]) =
      Function.update (stored qs) (Seen.ofCall q).key (some (Seen.ofCall q).val) := by
  rw [stored, List.map_append, List.map_singleton, replay_snoc]
  rfl

/-- A request to be logged takes effect, whatever area its client reads the reply from. -/
theorem logged_effect {q : Call} (hq : LoggedCall q) (db : DB) (m : Mem) :
    GroupEffect q db (q.ret m)
      (Function.update db (Seen.ofCall q).key (some (Seen.ofCall q).val)) := by
  cases q with
  | write r => exact .write r db
  | delete k => exact .delete k _ db
  | get k => exact absurd rfl hq.2.1
  | sync => exact absurd rfl hq.2.2
  | close => exact absurd rfl hq.1

end LogDirect.Group
