import LogDirect.Cuckoo.LockSteps
import Mathlib.Data.Prod.Lex
import Mathlib.Data.Set.Finite.Lattice

/-!
# libcuckoo: locks taken one by one

The threads take their locks one after the other, in the order of their arrays and places,
so not all of them can wait for each other (`no_deadlock`). While a thread is between
`check_hashpower` and giving up its locks the hashpower does not change and the array it
takes its locks from stays the current one, since a doubling needs every lock of it: one look
at the hashpower, after the first lock, is enough (`exclusive`). So the callers see
no more than they see when the locks are taken and given up at once (`linearizable_locks`).

All this needs a table that has all its locks from the start, which is one that is made for
more than half of the default number of elements. There is one array of locks then, so nobody
is left with the locks of an older one, and `AllUnlocker` finds no new one behind it
(`LocksFollow.safe`). `Doubling` shows what happens in a smaller table.
-/

namespace LogDirect.Cuckoo

open Lib Lib.Atomic Lib.Owners

variable {K V : Type} {cfg : Config K} {pc : Pc K V} {hp hashpower : Nat} {w : LockWorld K V}
  {tid : Nat} {s : Stage K V}

section

variable [DecidableEq K] {a : State Nat (Call K V) (Ret V) (K → Option V)} {w' : LockWorld K V}

/-! ## Waiting -/

omit [DecidableEq K] in
/-- Only in a call are locks needed. -/
theorem locks_called {ls : List Nat} (h : pc.locks cfg = some (hp, ls)) :
    ∃ c, pc.phase = .called c := by
  refine Pc.in_call ?_ ?_
  · rintro rfl
    cases h
  · rintro r rfl
    cases h

/-- The lock that a thread waits for. -/
def Stage.Wants (arrays : List Nat) (x : LockId) : Stage K V → Prop
  | .taking _ _ array held (l :: _) => held.head? ≠ some l ∧ x = (array, l)
  | .takingAll _ _ _ array i => InRange arrays x ∧ x = (array, i)
  | _ => False

/-- The thread is not in a call, or has its answer. -/
def Stage.resting : Stage K V → Bool
  | .free .idle => true
  | .free (.answered _) => true
  | _ => false

omit [DecidableEq K] in
/-- It comes after all that the thread holds. -/
theorem Stage.Ok.wants_above {arrays : List Nat} (h : s.Ok cfg hashpower arrays) {x y : LockId}
    (hx : s.Wants arrays x) (hy : s.Holds arrays y) : toLex y < toLex x := by
  rw [Prod.Lex.toLex_lt_toLex]
  cases s with
  | taking pc hp array held rest =>
    cases rest with
    | nil => exact hx.elim
    | cons l rest =>
      obtain ⟨hhead, rfl⟩ := hx
      exact .inr ⟨hy.1, h.1.above hhead y.2 hy.2⟩
  | takingAll u hp first array i =>
    obtain ⟨-, rfl⟩ := hx
    exact hy.2.2
  | _ => exact hx.elim

theorem finite_inRange (arrays : List Nat) : {x | InRange arrays x}.Finite := by
  refine Set.Finite.subset ((Set.finite_lt_nat arrays.length).biUnion fun a _ =>
    (Set.finite_lt_nat (arrays.getD a 0)).image fun i => (a, i)) ?_
  rintro ⟨a, i⟩ ⟨n, hn, hi⟩
  obtain ⟨hlt, -⟩ := List.getElem?_eq_some_iff.mp hn
  refine Set.mem_biUnion hlt ⟨i, ?_, rfl⟩
  change i < arrays.getD a 0
  have hn : arrays[a]? = some n := hn
  rw [List.getD_eq_getElem?_getD, hn]
  exact hi

variable {array n : Nat} {held : List Nat}

omit [DecidableEq K] in
/-- What a thread sees of the hashpower under its locks. -/
theorem LockInv.shown_inside (h : LockInv cfg w) (hs : w.threads tid = .inside pc hp array held) :
    w.hashpower = w.table.hashpower ∧ w.table.hashpower = hp := by
  have hok := h.ok tid
  rw [hs] at hok
  obtain ⟨hneeds, hhp⟩ := hok
  have hne : held ≠ [] := hneeds.nonempty.resolve_right fun hne => hne rfl
  obtain ⟨l, hl⟩ := List.exists_mem_of_ne_nil held hne
  have hholds : (w.threads tid).Holds w.arrays (array, l) := by
    rw [hs]
    exact ⟨rfl, hl⟩
  refine ⟨h.shown_of_holds ?_ hholds (hneeds.current hhp), hhp⟩
  rw [hs]
  rfl

/-- A thread in a call that does not wait for a lock can go on. -/
theorem go_enabled (h : LockInv cfg w) (hf : Follows cfg w.world a)
    (hbusy : (w.threads tid).resting = false)
    (hfree : ∀ x, (w.threads tid).Wants w.arrays x → w.owner x = none) :
    ∃ w', w.go cfg tid = some w' := by
  have hwork : ∀ c, (w.threads tid).pc.phase = .called c →
      ∃ r, w.table.advance cfg (w.threads tid).pc = some r := by
    intro c hc
    obtain ⟨t', pc', -, hadv, -⟩ := good_advance hf.table (hf.known tid) hc
    exact ⟨_, hadv⟩
  have hok := h.ok tid
  unfold LockWorld.go
  cases hs : w.threads tid with
  | free pc =>
    rw [hs] at hwork hbusy
    change ∃ w', w.goFree cfg tid pc = some w'
    unfold LockWorld.goFree
    cases pc.locks cfg with
    | some need => exact ⟨_, rfl⟩
    | none =>
      have hcall : ∃ c, pc.phase = .called c := by
        refine Pc.in_call ?_ ?_
        · rintro rfl
          cases hbusy
        · rintro r rfl
          cases hbusy
      obtain ⟨c, hc⟩ := hcall
      obtain ⟨r, hadv⟩ := hwork c hc
      cases pc with
      | snapshot c => exact ⟨_, rfl⟩
      | expanding u hp => exact ⟨_, rfl⟩
      | _ => exact ⟨_, Option.map_eq_some_iff.mpr ⟨r, hadv, rfl⟩⟩
  | taking pc hp array held rest =>
    rw [hs] at hfree
    cases rest with
    | nil => exact ⟨_, rfl⟩
    | cons l rest =>
      change ∃ w', w.goTaking tid pc hp array held (l :: rest) = some w'
      rw [LockWorld.goTaking]
      by_cases hhead : held.head? = some l
      · exact ⟨_, if_pos hhead⟩
      · rw [if_neg hhead, if_pos (hfree (array, l) ⟨hhead, rfl⟩)]
        split
        · exact ⟨_, rfl⟩
        · exact ⟨_, rfl⟩
  | checking pc hp array first rest => exact ⟨_, rfl⟩
  | inside pc hp array held =>
    obtain ⟨hshown, hhp⟩ := h.shown_inside hs
    rw [hs] at hwork hok
    obtain ⟨ls, hlocks, -⟩ := hok.1.locks
    obtain ⟨c, hc⟩ := locks_called hlocks
    obtain ⟨r, hadv⟩ := hwork c hc
    change ∃ w', w.goInside cfg tid pc hp array held = some w'
    rw [LockWorld.goInside, if_pos ⟨hshown, hhp⟩]
    exact ⟨_, Option.map_eq_some_iff.mpr ⟨r, hadv, rfl⟩⟩
  | takingAll u hp first array i =>
    rw [hs] at hfree hok
    obtain ⟨-, harray⟩ := hok
    have hn := List.getElem?_eq_getElem harray
    change ∃ w', w.goTakingAll tid u hp first array i = some w'
    rw [LockWorld.goTakingAll, hn, Option.bind_some]
    split
    · rename_i hi
      rw [if_pos (hfree (array, i) ⟨⟨_, hn, hi⟩, rfl⟩)]
      exact ⟨_, rfl⟩
    · split
      · exact ⟨_, rfl⟩
      · exact ⟨_, rfl⟩
  | insideAll u hp first =>
    obtain ⟨t', hdouble, -⟩ := hf.table.cuckooFastDouble hp
    exact ⟨_, Option.map_eq_some_iff.mpr ⟨_, hdouble, rfl⟩⟩
  | swapped u first => exact ⟨_, rfl⟩
  | releasing pc array held =>
    cases held with
    | nil => exact ⟨_, rfl⟩
    | cons l held => exact ⟨_, rfl⟩
  | releasingAll pc array i =>
    rw [hs] at hok
    have harray : array < w.arrays.length := hok
    exact ⟨_, Option.map_eq_some_iff.mpr ⟨_, List.getElem?_eq_getElem harray, rfl⟩⟩

/-! ## What a step changes -/

/-- A thread does one thing at a time, and goes on. -/
inductive Moves (cfg : Config K) (w : LockWorld K V) (tid : Nat) : LockWorld K V → Prop
  | set (s : Stage K V) : Moves cfg w tid (w.set tid s)
  | lock (x : LockId) (s : Stage K V) : Moves cfg w tid ((w.lock x tid).set tid s)
  | unlock (x : LockId) (s : Stage K V) : Moves cfg w tid ((w.unlock x).set tid s)
  | work (t' : Table K V) (s : Stage K V) : Moves cfg w tid ({ w with table := t' }.set tid s)
  | swap {hp : Nat} {t' : Table K V} (s : Stage K V) :
      w.table.cuckooFastDouble cfg hp = some (.ok, t') → Moves cfg w tid ((w.swap t' tid).set tid s)
  | assign (s : Stage K V) :
      Moves cfg w tid ({ w with hashpower := w.table.hashpower }.set tid s)

theorem moves_free (h : w.goFree cfg tid pc = some w') : Moves cfg w tid w' := by
  unfold LockWorld.goFree at h
  split at h
  · cases h
    exact .set _
  · split at h
    · cases h
      exact .set _
    · cases h
      exact .set _
    · obtain ⟨r, -, rfl⟩ := Option.map_eq_some_iff.mp h
      exact .work _ _

omit [DecidableEq K] in
theorem moves_taking {rest : List Nat} (h : w.goTaking tid pc hp array held rest = some w') :
    Moves cfg w tid w' := by
  cases rest with
  | nil =>
    cases h
    exact .set _
  | cons l rest =>
    rw [LockWorld.goTaking] at h
    split_ifs at h
    · cases h
      exact .set _
    · cases h
      exact .lock _ _
    · cases h
      exact .lock _ _

omit [DecidableEq K] in
theorem moves_takingAll {u : Uprase K V} {first i : Nat}
    (h : w.goTakingAll tid u hp first array i = some w') : Moves cfg w tid w' := by
  obtain ⟨n, -, h⟩ := Option.bind_eq_some_iff.mp h
  split_ifs at h
  · cases h
    exact .lock _ _
  · cases h
    exact .set _
  · cases h
    exact .set _

omit [DecidableEq K] in
theorem moves_insideAll {u : Uprase K V} {first : Nat}
    (h : w.goInsideAll cfg tid u hp first = some w') : Moves cfg w tid w' := by
  obtain ⟨⟨st, t'⟩, hdouble, rfl⟩ := Option.map_eq_some_iff.mp h
  cases st with
  | ok => exact .swap _ hdouble
  | underExpansion => exact .set _
  | threw => exact .set _

omit [DecidableEq K] in
theorem moves_releasingAll {i : Nat} (h : w.goReleasingAll tid pc array i = some w') :
    Moves cfg w tid w' := by
  obtain ⟨n, -, rfl⟩ := Option.map_eq_some_iff.mp h
  split_ifs
  · exact .unlock _ _
  · exact .set _
  · exact .set _

theorem moves_go (h : w.go cfg tid = some w') : Moves cfg w tid w' := by
  unfold LockWorld.go at h
  cases hs : w.threads tid with
  | free pc =>
    rw [hs] at h
    exact moves_free h
  | taking pc hp array held rest =>
    rw [hs] at h
    exact moves_taking h
  | checking pc hp array first rest =>
    rw [hs] at h
    cases h
    rw [LockWorld.goChecking]
    split
    · exact .set _
    · exact .unlock _ _
  | inside pc hp array held =>
    rw [hs] at h
    dsimp only [LockWorld.goInside] at h
    split at h
    · obtain ⟨r, -, rfl⟩ := Option.map_eq_some_iff.mp h
      exact .work _ _
    · cases h
  | takingAll u hp first array i =>
    rw [hs] at h
    exact moves_takingAll h
  | insideAll u hp first =>
    rw [hs] at h
    exact moves_insideAll h
  | swapped u first =>
    rw [hs] at h
    cases h
    exact .assign _
  | releasing pc array held =>
    rw [hs] at h
    cases held with
    | nil =>
      cases h
      exact .set _
    | cons l held =>
      cases h
      exact .unlock _ _
  | releasingAll pc array i =>
    rw [hs] at h
    exact moves_releasingAll h

/-- Only a doubling adds an array of locks. -/
theorem go_arrays (h : w.go cfg tid = some w') (hne : w'.arrays ≠ w.arrays) :
    ∃ hp t', w.table.cuckooFastDouble cfg hp = some (.ok, t') ∧
      t'.numLocks ≠ w.table.numLocks := by
  cases moves_go h with
  | @swap hp t' s hdouble =>
    refine ⟨hp, t', hdouble, fun hnum => hne ?_⟩
    change (w.swap t' tid).arrays = w.arrays
    rw [LockWorld.swap, if_pos hnum]
  | _ => exact absurd rfl hne

/-- A table that has all the locks it can have gets no more. -/
theorem go_arrays_max (hf : Follows cfg w.world a) (hmax : w.table.numLocks = kMaxNumLocks)
    (hgo : w.go cfg tid = some w') : w'.arrays = w.arrays := by
  by_contra hne
  obtain ⟨hp, t', hdouble, hnum⟩ := go_arrays hgo hne
  obtain ⟨t₂, hdouble', hinv, hcase⟩ := hf.table.cuckooFastDouble hp
  have heq : t' = t₂ := (Prod.mk.inj (Option.some.inj (hdouble.symm.trans hdouble'))).2
  subst heq
  rcases hcase with ⟨-, -, hgrow⟩ | ⟨-, hsame⟩
  · have hold : w.table.numLocks = min (hashsize w.table.hashpower) kMaxNumLocks := hf.table.locks
    have hnew := hinv.locks
    have hgrow : t'.hashpower = w.table.hashpower + 1 := hgrow
    rw [hgrow, hashsize_succ] at hnew
    omega
  · exact hnum (congrArg Table.numLocks hsame)

theorem step_arrays_max (hf : Follows cfg w.world a) (hmax : w.table.numLocks = kMaxNumLocks)
    {act : Act K V} (hstep : w.step cfg act = some w') : w'.arrays = w.arrays := by
  cases act with
  | run tid => exact go_arrays_max hf hmax hstep
  | invoke tid c =>
    unfold LockWorld.step at hstep
    dsimp only at hstep
    split at hstep
    · cases hstep
      rfl
    · cases hstep
  | respond tid =>
    unfold LockWorld.step at hstep
    dsimp only at hstep
    split at hstep
    · cases hstep
      rfl
    · cases hstep

/-! ## Tables with all locks -/

theorem le_blog2Loop {buckets turns blog2 : Nat} (h : buckets ≤ hashsize (blog2 + turns)) :
    buckets ≤ hashsize (Table.blog2Loop buckets turns blog2) := by
  induction turns generalizing blog2 with
  | zero => exact h
  | succ turns ih =>
    rw [Table.blog2Loop]
    split
    · refine ih ?_
      rw [Nat.add_assoc, Nat.add_comm 1]
      exact h
    · omega

/-- There are as many buckets as `reserve_calc` wants. -/
theorem le_hashsize_reserveCalc (n : Nat) :
    (n + slotPerBucket - 1) / slotPerBucket ≤ hashsize (Table.reserveCalc n) := by
  refine le_blog2Loop ?_
  rw [Nat.zero_add, hashsize_eq]
  exact Nat.le_of_lt Nat.lt_two_pow_self

omit [DecidableEq K] in
/-- A table for more than half of the default number of elements has all locks from the start. -/
theorem numLocks_create (hn : defaultSize < 2 * n) :
    (Table.create n : Table K V).numLocks = kMaxNumLocks := by
  have hle := le_hashsize_reserveCalc n
  rw [slotPerBucket] at hle
  rw [defaultSize, slotPerBucket, Nat.one_shiftLeft] at hn
  change min (hashsize (Table.reserveCalc n)) kMaxNumLocks = kMaxNumLocks
  rw [kMaxNumLocks, Nat.one_shiftLeft]
  -- more than half of the locks would be too few
  have hpow : 2 ^ 16 ≤ hashsize (Table.reserveCalc n) := by
    rw [hashsize_eq] at hle ⊢
    refine Nat.pow_le_pow_right Nat.two_pos ?_
    by_contra hlt
    have hhalf : 2 ^ Table.reserveCalc n ≤ 2 ^ 15 :=
      Nat.pow_le_pow_right Nat.two_pos (Nat.le_of_lt_succ (Nat.lt_of_not_le hlt))
    omega
  omega

theorem defaultSize_lt : defaultSize < 2 * defaultSize := by
  rw [defaultSize, slotPerBucket, Nat.one_shiftLeft]
  omega

/-- The table with its locks, all of which it has, and the plain map side by side. -/
structure LocksFollow (cfg : Config K) (w : LockWorld K V)
    (a : State Nat (Call K V) (Ret V) (K → Option V)) : Prop where
  locks : LockInv cfg w
  follows : Follows cfg w.world a
  arrays : w.arrays = [kMaxNumLocks]

omit [DecidableEq K] in
theorem locksFollow_start (hn : defaultSize < 2 * n) :
    LocksFollow cfg (.create n : LockWorld K V) (.start fun _ => none) :=
  ⟨lockInv_create n, follows_start cfg n, congrArg (fun k => [k]) (numLocks_create hn)⟩

omit [DecidableEq K] in
theorem LocksFollow.numLocks (h : LocksFollow cfg w a) : w.table.numLocks = kMaxNumLocks := by
  obtain ⟨pre, hpre⟩ := h.locks.last
  have harrays : pre ++ [w.table.numLocks] = [] ++ [kMaxNumLocks] := hpre.symm.trans h.arrays
  exact (List.append_singleton_inj.mp harrays).2

/-- Nothing is overtaken, since no locks are added; and every lock is one of the current array,
so nobody sees the hashpower of the old buckets after taking one. -/
theorem LocksFollow.safe (h : LocksFollow cfg w a) (act : Act K V) : w.Safe cfg act := by
  refine ⟨?_, ?_⟩
  · rintro ⟨tid, other, w', -, -, -, hstep, hne⟩
    exact hne (step_arrays_max h.follows h.numLocks hstep)
  · rintro ⟨tid, pc, hp, array, first, rest, -, hs, -, hne⟩
    have hholds : (w.threads tid).Holds w.arrays (array, first) := by
      rw [hs]
      exact rfl
    refine hne (h.locks.shown_of_holds ?_ hholds ?_)
    · rw [hs]
      rfl
    · obtain ⟨n, hn, -⟩ := (h.locks.ok tid).inRange hholds
      obtain ⟨hlt, -⟩ := List.getElem?_eq_some_iff.mp hn
      rw [h.arrays, List.length_singleton] at hlt ⊢
      dsimp only at hlt ⊢
      omega

/-- The table as an object, lock by lock. -/
def object (cfg : Config K) : Object (LockWorld K V) (Act K V) (Call K V) (Ret V) where
  step := LockWorld.step cfg
  seen := LockWorld.seen
  invoke := .invoke

/-- Each step of a table that has all its locks is followed by the plain map. -/
theorem object_linear (cfg : Config K) :
    (object cfg : Object (LockWorld K V) _ _ _).Linear (fun _ => True) Effect
      (LocksFollow cfg) := by
  refine ⟨fun _ _ _ => rfl, ?_⟩
  intro w act w' a h _ hstep
  obtain ⟨a', hone, hlocks, hf⟩ := locks_step h.locks h.follows (h.safe act) hstep
  exact ⟨a', hone, hlocks, hf, (step_arrays_max h.follows h.numLocks hstep).trans h.arrays⟩

/-- The same for a whole run. -/
theorem locksFollow_run (hn : defaultSize < 2 * n) {tr : List (LockWorld K V × Act K V)}
    (hrun : (lockSystem cfg n).Run (.create n) tr w) :
    ∃ a, Steps Effect (State.start fun _ => none) (seenOf LockWorld.seen tr) a ∧
      LocksFollow cfg w a :=
  follows (fun _ _ => True)
    (fun w act w' a h _ hstep =>
      (object_linear cfg).step w act w' a h (fun _ _ _ => trivial) hstep)
    hrun (fun _ _ => trivial) (locksFollow_start hn)

/-! ## The results -/

/-- Also when the locks are taken one by one, the table is a plain map that serves one call
after another. -/
theorem linearizable_locks (hn : defaultSize < 2 * n) {tr : List (LockWorld K V × Act K V)}
    (hrun : (lockSystem cfg n).Run (.create n) tr w) :
    ∃ a, Steps Effect (State.start fun _ => none) (seenOf LockWorld.seen tr) a ∧
      ∀ tid, a.phase tid = (w.threads tid).pc.phase := by
  obtain ⟨a, hsteps, h⟩ := locksFollow_run hn hrun
  exact ⟨a, hsteps, h.follows.phase⟩

/-- One thread stores a pair while another one, which looks for it, waits for the locks. -/
theorem linearizable_locks_two :
    ∃ tr w, (lockSystem plainConfig defaultSize).Run
        (.create defaultSize : LockWorld Nat Nat) tr w ∧
      seenOf LockWorld.seen tr = [.invoke 0 (.insertOrAssign 5 50), .invoke 1 (.find 5),
        .respond 0 (.inserted true), .respond 1 (.found (some 50))] ∧
      ∃ a, Steps Effect (State.start fun _ => none) (seenOf LockWorld.seen tr) a ∧
        ∀ tid, a.phase tid = (w.threads tid).pc.phase := by
  obtain ⟨tr, w, htr, hseen⟩ : ∃ tr w, (lockSystem plainConfig defaultSize).trace
      (.create defaultSize)
      [.invoke 0 (.insertOrAssign 5 50), .run 0, .run 0, .run 0, .invoke 1 (.find 5), .run 1,
        .run 1, .run 0, .run 0, .run 0, .run 0, .run 0, .run 0, .run 1, .run 1, .run 0, .respond 0,
        .run 1, .run 1, .run 1, .run 1, .run 1, .run 1, .respond 1] = some (tr, w) ∧
      seenOf LockWorld.seen tr = [.invoke 0 (.insertOrAssign 5 50), .invoke 1 (.find 5),
        .respond 0 (.inserted true), .respond 1 (.found (some 50))] := ⟨_, _, rfl, rfl⟩
  have hrun := TSys.run_of_trace htr
  exact ⟨tr, w, hrun, hseen, linearizable_locks defaultSize_lt hrun⟩

/-- Between `check_hashpower` and giving up its locks a thread is the owner of all that it
needs, in the current array, the hashpower is the one it has expected, and nobody is in the
middle of doubling the table. -/
theorem exclusive (hn : defaultSize < 2 * n) (hreach : (lockSystem cfg n).Reachable w)
    (hs : w.threads tid = .inside pc hp array held) :
    w.hashpower = hp ∧ w.table.hashpower = hp ∧ array + 1 = w.arrays.length ∧
      (∃ ls, pc.locks cfg = some (hp, ls) ∧ ∀ l ∈ ls, w.owner (array, l) = some tid) ∧
      ∀ other, ¬ (w.threads other).Full := by
  obtain ⟨w₀, tr, rfl, hrun⟩ := hreach
  obtain ⟨a, -, h, -⟩ := locksFollow_run hn hrun
  obtain ⟨hshown, hhp⟩ := h.shown_inside hs
  have hok := h.ok tid
  rw [hs] at hok
  have hneeds := hok.1
  have hcurrent := hneeds.current hhp
  have hholds : ∀ l ∈ held, (w.threads tid).Holds w.arrays (array, l) := by
    rw [hs]
    exact fun l hl => ⟨rfl, hl⟩
  obtain ⟨ls, hlocks, hmem⟩ := hneeds.locks
  refine ⟨hshown.trans hhp, hhp, hcurrent, ⟨ls, hlocks, fun l hl => ?_⟩, fun other hfull => ?_⟩
  · have hl := (hmem l hl).resolve_right List.not_mem_nil
    exact (h.owned (array, l) tid).mpr (hholds l hl)
  · have hne : held ≠ [] := hneeds.nonempty.resolve_right fun hne => hne rfl
    obtain ⟨l, hl⟩ := List.exists_mem_of_ne_nil held hne
    refine h.excludes hfull ?_ (hholds l hl) hcurrent
    rintro rfl
    rw [hs] at hfull
    exact hfull

/-- One thread is under its locks while another one waits for them. -/
theorem exclusive_find :
    ∃ w pc hp array held, (lockSystem plainConfig defaultSize).Reachable (w : LockWorld Nat Nat) ∧
      w.threads 0 = .inside pc hp array held ∧ LockWorld.step plainConfig w (.run 1) = none ∧
      w.hashpower = hp ∧ w.table.hashpower = hp ∧ array + 1 = w.arrays.length ∧
      (∃ ls, pc.locks plainConfig = some (hp, ls) ∧ ∀ l ∈ ls, w.owner (array, l) = some 0) ∧
      ∀ other, ¬ (w.threads other).Full := by
  obtain ⟨tr, w, pc, hp, array, held, htr, hs, hwaits⟩ : ∃ tr w pc hp array held,
      (lockSystem plainConfig defaultSize).trace (.create defaultSize : LockWorld Nat Nat)
        [.invoke 0 (.find 5), .run 0, .run 0, .run 0, .run 0, .run 0, .run 0,
          .invoke 1 (.insertOrAssign 5 50), .run 1, .run 1] = some (tr, w) ∧
      w.threads 0 = .inside pc hp array held ∧ LockWorld.step plainConfig w (.run 1) = none :=
    ⟨_, _, _, _, _, _, rfl, rfl, rfl⟩
  have hreach : (lockSystem plainConfig defaultSize).Reachable w :=
    ⟨_, tr, rfl, TSys.run_of_trace htr⟩
  exact ⟨w, pc, hp, array, held, hreach, hs, hwaits, exclusive defaultSize_lt hreach hs⟩

/-- As long as a thread is in a call, some thread can go on. -/
theorem no_deadlock (hn : defaultSize < 2 * n) (hreach : (lockSystem cfg n).Reachable w)
    (hbusy : (w.threads tid).resting = false) :
    ∃ tid' w', (lockSystem cfg n).step w (.run tid') = some w' := by
  obtain ⟨w₀, tr, rfl, hrun⟩ := hreach
  obtain ⟨a, -, h, hf, -⟩ := locksFollow_run hn hrun
  have hfinite : {x | ∃ t, (w.threads t).Holds w.arrays x}.Finite := by
    refine (finite_inRange w.arrays).subset ?_
    rintro x ⟨t, hx⟩
    exact (h.ok t).inRange hx
  obtain ⟨tid', hwho, hfree⟩ := exists_free toLex (fun t x => (w.threads t).Wants w.arrays x)
    h.owned hfinite (fun t x hx y hy => (h.ok t).wants_above hx hy) tid
  have hbusy' : (w.threads tid').resting = false := by
    rcases hwho with rfl | ⟨x, hx⟩
    · exact hbusy
    · -- who holds a lock is in a call
      cases hs : w.threads tid' with
      | free pc =>
        rw [hs] at hx
        exact hx.elim
      | _ => rfl
  obtain ⟨w', hgo⟩ := go_enabled h hf hbusy' hfree
  exact ⟨tid', w', hgo⟩

/-- One thread waits for the lock that another one holds. -/
theorem no_deadlock_two :
    ∃ w, (lockSystem plainConfig defaultSize).Reachable (w : LockWorld Nat Nat) ∧
      (w.threads 1).resting = false ∧ LockWorld.step plainConfig w (.run 1) = none ∧
      ∃ tid' w', (lockSystem plainConfig defaultSize).step w (.run tid') = some w' := by
  obtain ⟨tr, w, htr, hbusy, hwaits⟩ : ∃ tr w, (lockSystem plainConfig defaultSize).trace
      (.create defaultSize : LockWorld Nat Nat)
      [.invoke 0 (.find 5), .run 0, .run 0, .run 0, .invoke 1 (.find 5), .run 1, .run 1] =
        some (tr, w) ∧ (w.threads 1).resting = false ∧
      LockWorld.step plainConfig w (.run 1) = none := ⟨_, _, rfl, rfl, rfl⟩
  have hreach : (lockSystem plainConfig defaultSize).Reachable w :=
    ⟨_, tr, rfl, TSys.run_of_trace htr⟩
  exact ⟨w, hreach, hbusy, hwaits, no_deadlock defaultSize_lt hreach hbusy⟩

end

end LogDirect.Cuckoo
