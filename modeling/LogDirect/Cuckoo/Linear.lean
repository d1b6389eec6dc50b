import LogDirect.Cuckoo.Steps

/-!
# libcuckoo: the map that the threads share

Any number of threads call one table, and their steps interleave in any order. To its
callers the table is a plain map that serves one call after another, each at some moment
between its start and its end (`linearizable`), although elements are moved, looked for
along paths that are out of date, and rehashed lazily while the calls go on. No thread
comes upon a failed assertion or a bucket that is not there (`never_faults`), and the
counters of the locks add up to the number of keys of that map (`counters_exact`).

A critical section, from the first lock that is taken to the last one that is given up, is one step
here; `Exclusion` has the locks one by one.
-/

namespace LogDirect.Cuckoo

open Lib Lib.Cells Lib.Atomic

variable {K V : Type} [DecidableEq K]

/-- The table and the plain map side by side. -/
structure Follows (cfg : Config K) (w : World K V)
    (a : State Nat (Call K V) (Ret V) (K → Option V)) : Prop where
  table : w.table.Inv cfg a.obj
  known : ∀ tid, (w.threads tid).Ok cfg w.table.hashpower
  phase : ∀ tid, a.phase tid = (w.threads tid).phase

variable {cfg : Config K} {w w' : World K V} {a : State Nat (Call K V) (Ret V) (K → Option V)}

omit [DecidableEq K] in
theorem follows_start (cfg : Config K) (n : Nat) :
    Follows cfg (⟨.create n, fun _ => .idle⟩ : World K V) (State.start fun _ => none) :=
  ⟨Table.inv_create n, fun _ => trivial, fun _ => rfl⟩

omit [DecidableEq K] in
/-- The table and one thread change, and the table does not become smaller. -/
theorem Follows.change (h : Follows cfg w a) {t' : Table K V} {pc' : Pc K V} {m' : K → Option V}
    {p' : Phase (Call K V) (Ret V)} (tid : Nat) (htable : t'.Inv cfg m')
    (hgrow : w.table.hashpower ≤ t'.hashpower) (hok : pc'.Ok cfg t'.hashpower)
    (hphase : p' = pc'.phase) :
    Follows cfg ⟨t', Function.update w.threads tid pc'⟩ ⟨m', Function.update a.phase tid p'⟩ := by
  refine ⟨htable, fun u => ?_, fun u => ?_⟩
  · dsimp only
    by_cases hu : u = tid
    · rw [hu, Function.update_self]
      exact hok
    · rw [Function.update_of_ne hu]
      exact (h.known u).mono hgrow
  · dsimp only
    by_cases hu : u = tid
    · rw [hu, Function.update_self, Function.update_self]
      exact hphase
    · rw [Function.update_of_ne hu, Function.update_of_ne hu]
      exact h.phase u

/-- A step of a thread in the middle of a call: the map stays, or the call takes effect. -/
theorem Follows.run (h : Follows cfg w a) {tid : Nat} {c : Call K V}
    (hcalled : (w.threads tid).phase = .called c) :
    ∃ w' a', World.step cfg w (.run tid) = some w' ∧ Step Effect a [] a' ∧ Follows cfg w' a' := by
  have hphase : a.phase tid = .called c := (h.phase tid).trans hcalled
  obtain ⟨t', pc', m', hadv, hinv, hgrow, hok, hres⟩ := good_advance h.table (h.known tid) hcalled
  have hstep : World.step cfg w (.run tid) = some ⟨t', Function.update w.threads tid pc'⟩ := by
    rw [World.step, hadv]
    rfl
  rcases hres with ⟨hpc, hm⟩ | ⟨r, hpc, heff⟩
  · have hchange := h.change tid hinv hgrow hok hpc.symm
    rw [hm, ← hphase, Function.update_eq_self] at hchange
    exact ⟨_, a, hstep, .stay a, hchange⟩
  · exact ⟨_, _, hstep, .effect hphase heff,
      h.change tid hinv hgrow hok (by rw [hpc]; rfl)⟩

omit [DecidableEq K] in
theorem Pc.in_call {pc : Pc K V} (hidle : pc ≠ .idle) (hanswered : ∀ r, pc ≠ .answered r) :
    ∃ c, pc.phase = .called c := by
  cases pc with
  | idle => exact absurd rfl hidle
  | answered r => exact absurd rfl (hanswered r)
  | snapshot c => exact ⟨c, rfl⟩
  | locking c hp => exact ⟨c, rfl⟩
  | searching u hp q => exact ⟨.uprase u, rfl⟩
  | walking u hp path bucket slots => exact ⟨.uprase u, rfl⟩
  | moving u hp path depth => exact ⟨.uprase u, rfl⟩
  | expanding u hp => exact ⟨.uprase u, rfl⟩

/-- Only a thread in the middle of a call can take a step. -/
theorem advance_called {t : Table K V} {pc : Pc K V} {r : Table K V × Pc K V}
    (h : t.advance cfg pc = some r) : ∃ c, pc.phase = .called c := by
  refine Pc.in_call ?_ ?_
  · rintro rfl
    cases h
  · rintro r rfl
    cases h

/-- Every step of the system is one of the plain map, or none, and the callers see the same. -/
theorem Follows.step (h : Follows cfg w a) {act : Act K V}
    (hstep : World.step cfg w act = some w') :
    ∃ a', Step Effect a (w.seen act) a' ∧ Follows cfg w' a' := by
  cases act with
  | invoke tid c =>
    cases hpc : w.threads tid with
    | idle =>
      rw [World.step, hpc] at hstep
      cases hstep
      have hphase : a.phase tid = .idle := (h.phase tid).trans (congrArg Pc.phase hpc)
      exact ⟨_, .invoke c hphase, h.change tid h.table (Nat.le_refl _) trivial rfl⟩
    | _ =>
      rw [World.step, hpc] at hstep
      cases hstep
  | run tid =>
    obtain ⟨r, hadv, -⟩ := Option.map_eq_some_iff.mp hstep
    obtain ⟨c, hcalled⟩ := advance_called hadv
    obtain ⟨w'', a', hstep', hone, hfollows⟩ := h.run hcalled
    cases hstep.symm.trans hstep'
    exact ⟨a', hone, hfollows⟩
  | respond tid =>
    cases hpc : w.threads tid with
    | answered r =>
      rw [World.step, hpc] at hstep
      cases hstep
      have hphase : a.phase tid = .answered r := (h.phase tid).trans (congrArg Pc.phase hpc)
      have hseen : w.seen (.respond tid) = [.respond tid r] := by
        rw [World.seen, hpc]
      rw [hseen]
      exact ⟨_, .respond hphase, h.change tid h.table (Nat.le_refl _) trivial rfl⟩
    | _ =>
      rw [World.step, hpc] at hstep
      cases hstep

variable {n : Nat} {tr : List (World K V × Act K V)}

/-- The same for a whole run. -/
theorem follows_run (hrun : (system cfg n).Run ⟨.create n, fun _ => .idle⟩ tr w) :
    ∃ a, Steps Effect (State.start fun _ => none) (seenOf World.seen tr) a ∧ Follows cfg w a :=
  follows (fun _ _ => True) (fun _ _ _ _ h _ hstep => h.step hstep) hrun
    (fun _ _ => trivial) (follows_start cfg n)

/-! ## The results -/

/-- Whatever the order of the steps, the table is a plain map that serves one call after
another. -/
theorem linearizable (hrun : (system cfg n).Run ⟨.create n, fun _ => .idle⟩ tr w) :
    ∃ a, Steps Effect (State.start fun _ => none) (seenOf World.seen tr) a ∧
      ∀ tid, a.phase tid = (w.threads tid).phase := by
  obtain ⟨a, hsteps, hfollows⟩ := follows_run hrun
  exact ⟨a, hsteps, hfollows.phase⟩

/-- Small keys, which are hashed to themselves. -/
def plainConfig : Config Nat :=
  ⟨UInt64.ofNat, true, none, fun size capacity => decide (20 * size < capacity)⟩

/-- Keys that are hashed to their length. -/
def lengthConfig (α : Type) : Config (List α) :=
  ⟨fun key => UInt64.ofNat key.length, false, none,
    fun size capacity => decide (20 * size < capacity)⟩

/-- One thread stores a pair while another one looks for it. -/
theorem linearizable_two :
    ∃ tr w, (system plainConfig 8).Run (⟨.create 8, fun _ => .idle⟩ : World Nat Nat) tr w ∧
      seenOf World.seen tr = [.invoke 0 (.insertOrAssign 5 50), .invoke 1 (.find 5),
        .respond 1 (.found (some 50)), .respond 0 (.inserted true)] ∧
      ∃ a, Steps Effect (State.start fun _ => none) (seenOf World.seen tr) a ∧
        ∀ tid, a.phase tid = (w.threads tid).phase := by
  obtain ⟨tr, w, htr, hseen⟩ : ∃ tr w, (system plainConfig 8).trace ⟨.create 8, fun _ => .idle⟩
      [.invoke 0 (.insertOrAssign 5 50), .run 0, .invoke 1 (.find 5), .run 1, .run 0, .run 1,
        .respond 1, .respond 0] = some (tr, w) ∧
      seenOf World.seen tr = [.invoke 0 (.insertOrAssign 5 50), .invoke 1 (.find 5),
        .respond 1 (.found (some 50)), .respond 0 (.inserted true)] := ⟨_, _, rfl, rfl⟩
  have hrun := TSys.run_of_trace htr
  exact ⟨tr, w, hrun, hseen, linearizable hrun⟩

/-- A thread in the middle of a call can always take its next step: no assertion fails, and
no bucket, slot or lock is asked for that is not there. -/
theorem never_faults (hreach : (system cfg n).Reachable w) {tid : Nat} {c : Call K V}
    (hcalled : (w.threads tid).phase = .called c) :
    ∃ w', (system cfg n).step w (.run tid) = some w' := by
  obtain ⟨w₀, tr, rfl, hrun⟩ := hreach
  obtain ⟨a, -, hfollows⟩ := follows_run hrun
  obtain ⟨w', -, hstep, -, -⟩ := hfollows.run hcalled
  exact ⟨w', hstep⟩

/-- Two buckets: one of them is full of `1`, `3`, `5` and `257`, of which only the last one can
be moved. -/
def crowded : List (Act Nat Nat) :=
  [.invoke 0 (.insertOrAssign 1 10), .run 0, .run 0, .respond 0,
    .invoke 0 (.insertOrAssign 3 30), .run 0, .run 0, .respond 0,
    .invoke 0 (.insertOrAssign 5 50), .run 0, .run 0, .respond 0,
    .invoke 0 (.insertOrAssign 257 20), .run 0, .run 0, .respond 0]

/-- An insertion into the full bucket has found a path and is about to move `257` along it,
while another thread looks for `257`. -/
theorem never_faults_move :
    ∃ (w : World Nat Nat) (u : Uprase Nat Nat) (path : List CuckooRecord),
      (system plainConfig 8).Reachable w ∧ w.threads 0 = .moving u 1 path 1 ∧
      (w.threads 1).phase = .called (.find 257) ∧
      (∃ w', (system plainConfig 8).step w (.run 0) = some w') ∧
      ∃ w', (system plainConfig 8).step w (.run 1) = some w' := by
  obtain ⟨tr, w, u, path, htr, hmoving, hfind⟩ : ∃ tr w u path,
      (system plainConfig 8).trace (⟨.create 8, fun _ => .idle⟩ : World Nat Nat)
        (crowded ++ [.invoke 0 (.insertOrAssign 7 70), .run 0, .run 0, .run 0, .run 0, .run 0,
          .run 0, .run 0, .invoke 1 (.find 257), .run 1]) = some (tr, w) ∧
      w.threads 0 = .moving u 1 path 1 ∧ (w.threads 1).phase = .called (.find 257) :=
    ⟨_, _, _, _, rfl, rfl, rfl⟩
  have hreach : (system plainConfig 8).Reachable w := ⟨_, tr, rfl, TSys.run_of_trace htr⟩
  exact ⟨w, u, path, hreach, hmoving, hfind, never_faults hreach (congrArg Pc.phase hmoving),
    never_faults hreach hfind⟩

/-- The counters of the locks add up to the number of keys in the map that the callers see. -/
theorem counters_exact (hrun : (system cfg n).Run ⟨.create n, fun _ => .idle⟩ tr w) :
    ∃ a, Steps Effect (State.start fun _ => none) (seenOf World.seen tr) a ∧
      (∀ tid, a.phase tid = (w.threads tid).phase) ∧
      (keys a.obj).Finite ∧ w.table.size = (keys a.obj).ncard := by
  obtain ⟨a, hsteps, hfollows⟩ := follows_run hrun
  exact ⟨a, hsteps, hfollows.phase, hfollows.table.both.keys_ncard.1, hfollows.table.size_eq⟩

/-- Five keys, after one of them has been moved from one bucket to the other. -/
theorem counters_exact_moved :
    ∃ tr w, (system plainConfig 8).Run (⟨.create 8, fun _ => .idle⟩ : World Nat Nat) tr w ∧
      w.threads 0 = .answered (.inserted true) ∧ w.table.size = 5 ∧
      ∃ a, Steps Effect (State.start fun _ => none) (seenOf World.seen tr) a ∧
        (∀ tid, a.phase tid = (w.threads tid).phase) ∧
        (keys a.obj).Finite ∧ w.table.size = (keys a.obj).ncard := by
  obtain ⟨tr, w, htr, hanswered, hsize⟩ : ∃ tr w, (system plainConfig 8).trace
      (⟨.create 8, fun _ => .idle⟩ : World Nat Nat)
      (crowded ++ [.invoke 0 (.insertOrAssign 7 70), .run 0, .run 0, .run 0, .run 0, .run 0, .run 0,
        .run 0, .run 0]) = some (tr, w) ∧
      w.threads 0 = .answered (.inserted true) ∧ w.table.size = 5 := ⟨_, _, rfl, rfl, rfl⟩
  have hrun := TSys.run_of_trace htr
  exact ⟨tr, w, hrun, hanswered, hsize, counters_exact hrun⟩

end LogDirect.Cuckoo
