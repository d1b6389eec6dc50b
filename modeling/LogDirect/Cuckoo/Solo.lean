import LogDirect.Cuckoo.Alone
import LogDirect.Cuckoo.Exclusion

/-!
# libcuckoo: one thread runs, lock by lock

A thread that runs alone while no other thread holds a lock gets its call answered
(`finishes_alone`). Between two steps of `Threads` it only takes and gives up locks, and comes to
the end of that (`settles`), since there are so many locks and no more; and the steps of
`Threads` come to an end by `Alone`.
-/

namespace LogDirect.Cuckoo

open Lib Lib.Atomic Lib.Owners

variable {K V : Type} [DecidableEq K] {cfg : Config K} {m m' : K → Option V} {w w' : LockWorld K V}
  {tid hp : Nat} {s : Stage K V} {pc : Pc K V} {c : Call K V}

/-! ## No other thread holds a lock -/

theorem go_threads (h : w.go cfg tid = some w') {other : Nat} (hother : other ≠ tid) :
    w'.threads other = w.threads other := by
  cases moves_go h with
  | @swap hp t' s hdouble =>
    have hsame : (w.swap t' tid).threads = w.threads := by
      rw [LockWorld.swap]
      split
      · rfl
      · rfl
    change Function.update (w.swap t' tid).threads tid s other = _
    rw [hsame, Function.update_of_ne hother]
  | _ => exact Function.update_of_ne hother _ _

theorem go_owner (h : w.go cfg tid = some w') {x : LockId} {other : Nat}
    (hx : w'.owner x = some other) : w.owner x = some other ∨ other = tid := by
  cases moves_go h with
  | lock y s =>
    have hx : Function.update w.owner y (some tid) x = some other := hx
    by_cases hxy : x = y
    · rw [hxy, Function.update_self] at hx
      exact .inr (Option.some.inj hx).symm
    · rw [Function.update_of_ne hxy] at hx
      exact .inl hx
  | unlock y s =>
    have hx : Function.update w.owner y none x = some other := hx
    by_cases hxy : x = y
    · rw [hxy, Function.update_self] at hx
      cases hx
    · rw [Function.update_of_ne hxy] at hx
      exact .inl hx
  | @swap hp t' s hdouble =>
    have hx : (w.swap t' tid).owner x = some other := hx
    rw [LockWorld.swap] at hx
    split at hx
    · exact .inl hx
    · rw [LockWorld.addArray] at hx
      dsimp only at hx
      split at hx
      · exact .inr (Option.some.inj hx).symm
      · exact .inl hx
  | _ => exact .inl hx

/-- A doubling begins with the array of locks that is the last one now. -/
def Stage.Last (arrays : List Nat) : Stage K V → Prop
  | .takingAll _ _ first _ _ => first + 1 = arrays.length
  | .insideAll _ _ first => first + 1 = arrays.length
  | _ => True

omit [DecidableEq K] in
theorem last_set (hthread : w'.threads tid = s) (h : s.Last w'.arrays) :
    (w'.threads tid).Last w'.arrays := by
  rw [hthread]
  exact h

theorem go_last (hpos : 0 < w.arrays.length) (h : (w.threads tid).Last w.arrays)
    (hgo : w.go cfg tid = some w') : (w'.threads tid).Last w'.arrays := by
  unfold LockWorld.go at hgo
  cases hs : w.threads tid with
  | free pc =>
    rw [hs] at hgo
    dsimp only [LockWorld.goFree] at hgo
    split at hgo
    · cases hgo
      exact last_set (Function.update_self ..) trivial
    · split at hgo
      · cases hgo
        exact last_set (Function.update_self ..) trivial
      · cases hgo
        exact last_set (Function.update_self ..) (Nat.sub_add_cancel hpos)
      · obtain ⟨r, -, rfl⟩ := Option.map_eq_some_iff.mp hgo
        exact last_set (Function.update_self ..) trivial
  | taking pc hp array held rest =>
    rw [hs] at hgo
    cases rest with
    | nil =>
      cases hgo
      exact last_set (Function.update_self ..) trivial
    | cons l rest =>
      dsimp only [LockWorld.goTaking] at hgo
      split_ifs at hgo <;> cases hgo <;> exact last_set (Function.update_self ..) trivial
  | checking pc hp array first rest =>
    rw [hs] at hgo
    cases hgo
    rw [LockWorld.goChecking]
    split <;> exact last_set (Function.update_self ..) trivial
  | inside pc hp array held =>
    rw [hs] at hgo
    dsimp only [LockWorld.goInside] at hgo
    split at hgo
    · obtain ⟨r, -, rfl⟩ := Option.map_eq_some_iff.mp hgo
      exact last_set (Function.update_self ..) trivial
    · cases hgo
  | takingAll u hp first array i =>
    rw [hs] at hgo h
    obtain ⟨n, -, hgo⟩ := Option.bind_eq_some_iff.mp hgo
    split_ifs at hgo <;> cases hgo <;> exact last_set (Function.update_self ..) h
  | insideAll u hp first =>
    rw [hs] at hgo
    obtain ⟨⟨st, t'⟩, -, rfl⟩ := Option.map_eq_some_iff.mp hgo
    cases st <;> exact last_set (Function.update_self ..) trivial
  | swapped u first =>
    rw [hs] at hgo
    cases hgo
    exact last_set (Function.update_self ..) trivial
  | releasing pc array held =>
    rw [hs] at hgo
    cases held <;> cases hgo <;> exact last_set (Function.update_self ..) trivial
  | releasingAll pc array i =>
    rw [hs] at hgo
    obtain ⟨n, -, rfl⟩ := Option.map_eq_some_iff.mp hgo
    split_ifs <;> exact last_set (Function.update_self ..) trivial

/-- The locks that are held are held by one thread, which no other one can get in the way of. -/
structure Solo (cfg : Config K) (tid : Nat) (w : LockWorld K V) (m : K → Option V) : Prop where
  locks : LockInv cfg w
  table : w.table.Inv cfg m
  known : ∀ t, (w.threads t).pc.Ok cfg w.table.hashpower
  owner : ∀ x other, w.owner x = some other → other = tid
  quiet : (∀ other, other ≠ tid → (w.threads other).unlocking = false) ∨
    w.table.numLocks = kMaxNumLocks
  last : (w.threads tid).Last w.arrays

namespace Solo

omit [DecidableEq K] in
theorem follows (h : Solo cfg tid w m) :
    Follows cfg w.world ⟨m, fun t => (w.threads t).pc.phase⟩ :=
  ⟨h.table, h.known, fun _ => rfl⟩

omit [DecidableEq K] in
/-- Nobody else is doubling the table. -/
theorem shown (h : Solo cfg tid w m) (hno : (w.threads tid).swapping = false) :
    w.hashpower = w.table.hashpower := by
  refine h.locks.shown fun v => ?_
  cases hv : (w.threads v).swapping with
  | false => rfl
  | true =>
    have hlast := h.locks.inRange_last (numLocks_pos h.table)
    have hholds := (Stage.Full.of_swapping hv).holds (h.locks.ok v) hlast
      (Nat.sub_add_cancel h.locks.length_pos)
    have hvt := h.owner _ _ ((h.locks.owned _ _).mpr hholds)
    rw [hvt, hno] at hv
    cases hv

theorem safe (h : Solo cfg tid w m) : w.Safe cfg (.run tid) := by
  refine ⟨?_, ?_⟩
  · rintro ⟨t, other, w', heq, hother, hunlocking, hstep, hne⟩
    cases heq
    rcases h.quiet with hquiet | hmax
    · rw [hquiet other hother] at hunlocking
      cases hunlocking
    · exact hne (step_arrays_max h.follows hmax hstep)
  · rintro ⟨t, pc, hp, array, first, rest, heq, hs, -, hne⟩
    cases heq
    refine hne (h.shown ?_)
    rw [hs]
    rfl

theorem go (h : Solo cfg tid w m) (hgo : w.go cfg tid = some w') (hinv : w'.table.Inv cfg m') :
    Solo cfg tid w' m' := by
  obtain ⟨a', -, hlocks, hf⟩ := locks_step h.locks h.follows h.safe hgo
  refine ⟨hlocks, hinv, hf.known, fun x other hx => ?_, ?_, go_last h.locks.length_pos h.last hgo⟩
  · rcases go_owner hgo hx with hold | heq
    · exact h.owner x other hold
    · exact heq
  · rcases h.quiet with hquiet | hmax
    · left
      intro other hother
      rw [go_threads hgo hother]
      exact hquiet other hother
    · right
      obtain ⟨pre, hpre⟩ := h.locks.last
      obtain ⟨pre', hpre'⟩ := hlocks.last
      have harrays := go_arrays_max h.follows hmax hgo
      rw [hpre, hpre', List.append_singleton_inj] at harrays
      exact harrays.2.trans hmax

end Solo

/-! ## The locks that are still to be taken or given up -/

/-- How many there are from here on, with one for the way to each further array. -/
def remaining (arrays : List Nat) (array i : Nat) : Nat :=
  ((arrays.drop (array + 1)).map (· + 1)).sum + (arrays.getD array 0 - i)

theorem remaining_succ {arrays : List Nat} {array i n : Nat} (hn : arrays[array]? = some n)
    (hi : i < n) : remaining arrays array (i + 1) < remaining arrays array i := by
  rw [remaining, remaining, List.getD_eq_getElem?_getD, hn, Option.getD_some]
  omega

theorem remaining_next {arrays : List Nat} {array : Nat} (i : Nat)
    (hlt : array + 1 < arrays.length) :
    remaining arrays (array + 1) 0 < remaining arrays array i := by
  rw [remaining, remaining, List.drop_eq_getElem_cons hlt, List.map_cons, List.sum_cons,
    List.getD_eq_getElem?_getD, List.getElem?_eq_getElem hlt, Option.getD_some]
  omega

/-- What is left to do before the next step of the call. -/
def Stage.rank (arrays : List Nat) : Stage K V → Nat
  | .free _ => remaining arrays (arrays.length - 1) 0 + 8
  | .taking _ _ _ _ rest => 2 * rest.length + 1
  | .checking _ _ _ _ rest => 2 * rest.length + 2
  | .inside _ _ _ _ => 0
  | .takingAll _ _ _ array i => remaining arrays array i + 1
  | .insideAll _ _ _ => 0
  | .swapped _ first => remaining arrays (arrays.length - 1) 0 + remaining arrays first 0 + 10
  | .releasing _ _ held => remaining arrays (arrays.length - 1) 0 + held.length + 9
  | .releasingAll _ array i => remaining arrays (arrays.length - 1) 0 + remaining arrays array i + 9

omit [DecidableEq K] in
theorem locks_length {ls : List Nat} (h : pc.locks cfg = some (hp, ls)) : ls.length ≤ 3 := by
  have htwo : ∀ a b, (Table.lockTwoOrder a b).length = 2 := by
    intro a b
    rw [Table.lockTwoOrder]
    split
    · rfl
    · rfl
  cases pc with
  | locking c hp' =>
    cases h
    rw [htwo]
    omega
  | searching u hp' q =>
    obtain ⟨x, -, heq⟩ := Option.map_eq_some_iff.mp h
    cases heq
    exact Nat.le_add_left 1 2
  | walking u hp' path bucket slots =>
    cases h
    exact Nat.le_add_left 1 2
  | moving u hp' path depth =>
    cases depth with
    | zero =>
      cases h
      rw [htwo]
      omega
    | succ depth =>
      obtain ⟨source, -, h⟩ := Option.bind_eq_some_iff.mp h
      obtain ⟨target, -, heq⟩ := Option.map_eq_some_iff.mp h
      cases heq
      split
      · exact Nat.le_refl 3
      · rw [htwo]
        omega
  | _ => cases h

/-- Nothing has happened to the table and the call, and less is left to do. -/
structure Nears (w : LockWorld K V) (tid : Nat) (w' : LockWorld K V) : Prop where
  world : w'.world = w.world
  arrays : w'.arrays = w.arrays
  rank : (w'.threads tid).rank w'.arrays < (w.threads tid).rank w.arrays

/-- The call has taken its next step; before a doubling it had all locks. -/
structure Acts (cfg : Config K) (w : LockWorld K V) (tid : Nat) (w' : LockWorld K V) : Prop where
  advance : w.table.advance cfg (w.threads tid).pc = some (w'.table, (w'.threads tid).pc)
  full : ∀ u hp, (w.threads tid).pc = .expanding u hp →
    ∃ first, w.threads tid = .insideAll u hp first

omit [DecidableEq K] in
theorem nears_set {s₀ : Stage K V} (hs : w.threads tid = s₀) (hw : w'.world = (w.set tid s).world)
    (harrays : w'.arrays = w.arrays) (hthread : w'.threads tid = s) (hpc : s.pc = s₀.pc)
    (hrank : s.rank w.arrays < s₀.rank w.arrays) : Nears w tid w' := by
  refine ⟨?_, harrays, ?_⟩
  · have hsame : Function.update w.world.threads tid s.pc = w.world.threads := by
      rw [hpc, ← hs]
      exact Function.update_eq_self tid w.world.threads
    rw [hw, world_set, hsame]
    rfl
  · rw [harrays, hthread, hs]
    exact hrank

theorem acts_set {s₀ : Stage K V} (hs : w.threads tid = s₀) (hthread : w'.threads tid = s)
    (hadv : w.table.advance cfg s₀.pc = some (w'.table, s.pc))
    (hfull : ∀ u hp, s₀.pc = .expanding u hp → ∃ first, s₀ = .insideAll u hp first) :
    Acts cfg w tid w' := by
  subst hs hthread
  exact ⟨hadv, hfull⟩

omit [DecidableEq K] in
/-- The locks for a doubling are taken in another way. -/
theorem locks_full {ls : List Nat} (h : pc.locks cfg = some (hp, ls)) (u : Uprase K V) (hp' : Nat)
    (hpc : pc = .expanding u hp') : ∃ first, s = .insideAll u hp' first := by
  subst hpc
  cases h

theorem free_nears (h : Solo cfg tid w m) (hs : w.threads tid = .free pc)
    (hgo : w.goFree cfg tid pc = some w') : Nears w tid w' ∨ Acts cfg w tid w' := by
  have hself : ∀ s, (w.set tid s).threads tid = s := fun s => Function.update_self ..
  unfold LockWorld.goFree at hgo
  split at hgo
  · rename_i need hlocks
    cases hgo
    have hlen := locks_length hlocks
    refine .inl (nears_set hs rfl rfl (hself _) rfl ?_)
    simp only [Stage.rank]
    omega
  · rename_i hlocks
    split at hgo
    · rename_i c
      cases hgo
      have hshown : w.hashpower = w.table.hashpower := h.shown (by rw [hs]; rfl)
      refine .inr (acts_set hs (hself _) ?_ fun _ _ heq => by cases heq)
      rw [hshown]
      rfl
    · rename_i u hp
      cases hgo
      refine .inl (nears_set hs rfl rfl (hself _) rfl ?_)
      simp only [Stage.rank]
      omega
    · rename_i hnot
      obtain ⟨⟨t', pc'⟩, hadv, rfl⟩ := Option.map_eq_some_iff.mp hgo
      exact .inr (acts_set hs (Function.update_self ..) hadv fun u hp heq => (hnot u hp heq).elim)

omit [DecidableEq K] in
theorem taking_nears {array : Nat} {held rest : List Nat}
    (hs : w.threads tid = .taking pc hp array held rest)
    (hgo : w.goTaking tid pc hp array held rest = some w') : Nears w tid w' := by
  cases rest with
  | nil =>
    cases hgo
    refine nears_set hs rfl rfl (Function.update_self ..) rfl ?_
    simp only [Stage.rank]
    omega
  | cons l rest =>
    rw [LockWorld.goTaking] at hgo
    split_ifs at hgo
    · cases hgo
      refine nears_set hs rfl rfl (Function.update_self ..) rfl ?_
      simp only [Stage.rank, List.length_cons]
      omega
    · cases hgo
      refine nears_set hs rfl rfl (Function.update_self ..) rfl ?_
      simp only [Stage.rank, List.length_cons]
      omega
    · cases hgo
      refine nears_set hs rfl rfl (Function.update_self ..) rfl ?_
      simp only [Stage.rank, List.length_cons]
      omega

theorem checking_nears (h : Solo cfg tid w m) {array first : Nat} {rest : List Nat}
    (hs : w.threads tid = .checking pc hp array first rest) :
    Nears w tid (w.goChecking tid pc hp array first rest) ∨
      Acts cfg w tid (w.goChecking tid pc hp array first rest) := by
  rw [LockWorld.goChecking]
  by_cases hhp : w.hashpower = hp
  · rw [if_pos hhp]
    refine .inl (nears_set hs rfl rfl (Function.update_self ..) rfl ?_)
    simp only [Stage.rank]
    omega
  · rw [if_neg hhp]
    right
    have hneeds := h.locks.ok tid
    have hknown := h.known tid
    rw [hs] at hneeds hknown
    obtain ⟨ls, hlocks, -⟩ := Needs.locks hneeds
    have hshown : w.hashpower = w.table.hashpower := h.shown (by rw [hs]; rfl)
    exact acts_set hs (Function.update_self ..)
      (advance_retry h.table hknown hlocks (hshown ▸ hhp)) (locks_full hlocks)

omit [DecidableEq K] in
theorem takingAll_nears {u : Uprase K V} {first array i : Nat}
    (hs : w.threads tid = .takingAll u hp first array i)
    (hgo : w.goTakingAll tid u hp first array i = some w') : Nears w tid w' := by
  obtain ⟨n, hn, hgo⟩ := Option.bind_eq_some_iff.mp hgo
  split_ifs at hgo with hi hfree hnext
  · cases hgo
    refine nears_set hs rfl rfl (Function.update_self ..) rfl ?_
    exact Nat.succ_lt_succ (remaining_succ hn hi)
  · cases hgo
    refine nears_set hs rfl rfl (Function.update_self ..) rfl ?_
    exact Nat.succ_lt_succ (remaining_next i hnext)
  · cases hgo
    exact nears_set hs rfl rfl (Function.update_self ..) rfl (Nat.succ_pos _)

omit [DecidableEq K] in
theorem releasingAll_nears {array i : Nat} (hs : w.threads tid = .releasingAll pc array i)
    (hgo : w.goReleasingAll tid pc array i = some w') : Nears w tid w' := by
  obtain ⟨n, hn, rfl⟩ := Option.map_eq_some_iff.mp hgo
  split_ifs with hi hnext
  · refine nears_set hs rfl rfl (Function.update_self ..) rfl ?_
    have hless := remaining_succ hn hi
    simp only [Stage.rank]
    omega
  · refine nears_set hs rfl rfl (Function.update_self ..) rfl ?_
    have hless := remaining_next i hnext
    simp only [Stage.rank]
    omega
  · refine nears_set hs rfl rfl (Function.update_self ..) rfl ?_
    simp only [Stage.rank]
    omega

omit [DecidableEq K] in
theorem swap_table (t' : Table K V) : (w.swap t' tid).table = t' := by
  rw [LockWorld.swap]
  split
  · rfl
  · rfl

theorem insideAll_acts {u : Uprase K V} {first : Nat} (h : Solo cfg tid w m)
    (hs : w.threads tid = .insideAll u hp first)
    (hgo : w.goInsideAll cfg tid u hp first = some w') : Acts cfg w tid w' := by
  obtain ⟨t', hdouble, -, hcase⟩ := h.table.cuckooFastDouble hp
  rw [LockWorld.goInsideAll, hdouble] at hgo
  have hadv : w.table.advance cfg (.expanding u hp) = w.table.expand cfg u hp := rfl
  rw [Table.expand, hdouble] at hadv
  have hfull : ∀ u' hp', (Stage.insideAll u hp first).pc = .expanding u' hp' →
      ∃ first', Stage.insideAll u hp first = .insideAll u' hp' first' := by
    intro u' hp' heq
    cases heq
    exact ⟨first, rfl⟩
  cases hst : w.table.checkResizeValidity cfg hp (hp + 1) with
  | ok =>
    rw [hst] at hgo hadv
    cases hgo
    refine acts_set (s := .swapped u first) hs (Function.update_self ..) (hadv.trans ?_) hfull
    change _ = some ((w.swap t' tid).table, _)
    rw [swap_table]
    rfl
  | underExpansion =>
    rw [hst] at hgo hadv
    cases hgo
    obtain ⟨-, rfl⟩ := hcase.resolve_left fun heq => by cases hst.symm.trans heq.1
    exact acts_set hs (Function.update_self ..) hadv hfull
  | threw =>
    rw [hst] at hgo hadv
    cases hgo
    obtain ⟨-, rfl⟩ := hcase.resolve_left fun heq => by cases hst.symm.trans heq.1
    exact acts_set hs (Function.update_self ..) hadv hfull

/-- Every step is a step of the call, or one less on the way to it. -/
theorem nears_or_acts (h : Solo cfg tid w m) (hgo : w.go cfg tid = some w') :
    Nears w tid w' ∨ Acts cfg w tid w' := by
  unfold LockWorld.go at hgo
  cases hs : w.threads tid with
  | free pc =>
    rw [hs] at hgo
    exact free_nears h hs hgo
  | taking pc hp array held rest =>
    rw [hs] at hgo
    exact .inl (taking_nears hs hgo)
  | checking pc hp array first rest =>
    rw [hs] at hgo
    cases hgo
    exact checking_nears h hs
  | inside pc hp array held =>
    rw [hs] at hgo
    dsimp only [LockWorld.goInside] at hgo
    split at hgo
    · obtain ⟨⟨t', pc'⟩, hadv, rfl⟩ := Option.map_eq_some_iff.mp hgo
      have hneeds := h.locks.ok tid
      rw [hs] at hneeds
      obtain ⟨ls, hlocks, -⟩ := hneeds.1.locks
      exact .inr (acts_set hs (Function.update_self ..) hadv (locks_full hlocks))
    · cases hgo
  | takingAll u hp first array i =>
    rw [hs] at hgo
    exact .inl (takingAll_nears hs hgo)
  | insideAll u hp first =>
    rw [hs] at hgo
    exact .inr (insideAll_acts h hs hgo)
  | swapped u first =>
    rw [hs] at hgo
    cases hgo
    refine .inl (nears_set hs rfl rfl (Function.update_self ..) rfl ?_)
    simp only [Stage.rank]
    omega
  | releasing pc array held =>
    rw [hs] at hgo
    cases held with
    | nil =>
      cases hgo
      refine .inl (nears_set hs rfl rfl (Function.update_self ..) rfl ?_)
      simp only [Stage.rank]
      omega
    | cons l held =>
      cases hgo
      refine .inl (nears_set hs rfl rfl (Function.update_self ..) rfl ?_)
      simp only [Stage.rank, List.length_cons]
      omega
  | releasingAll pc array i =>
    rw [hs] at hgo
    exact .inl (releasingAll_nears hs hgo)

/-! ## Runs of one thread -/

/-- The thread gets from one state to the other without anyone else. -/
def RunsAlone (cfg : Config K) (n tid : Nat) (w w' : LockWorld K V) : Prop :=
  ∃ tr, (lockSystem cfg n).Run w tr w' ∧ TSys.Meets (fun _ act => act = .run tid) tr

namespace RunsAlone

variable {n : Nat} {w₁ w₂ : LockWorld K V}

theorem refl (w : LockWorld K V) : RunsAlone cfg n tid w w := ⟨[], .nil, .nil⟩

theorem trans (h : RunsAlone cfg n tid w w₁) (h' : RunsAlone cfg n tid w₁ w₂) :
    RunsAlone cfg n tid w w₂ := by
  obtain ⟨tr, hrun, hmeets⟩ := h
  obtain ⟨tr', hrun', hmeets'⟩ := h'
  exact ⟨tr ++ tr', hrun.trans hrun', TSys.meets_append.mpr ⟨hmeets, hmeets'⟩⟩

theorem single (h : w.go cfg tid = some w₁) : RunsAlone cfg n tid w w₁ := by
  have hstep : (lockSystem cfg n).step w (.run tid) = some w₁ := h
  exact ⟨[] ++ [(w, .run tid)], TSys.Run.nil.snoc hstep, TSys.meets_snoc.mpr ⟨.nil, rfl⟩⟩

/-- The others stay where they are. -/
theorem threads (h : RunsAlone cfg n tid w w₁) {other : Nat} (hother : other ≠ tid) :
    w₁.threads other = w.threads other := by
  obtain ⟨tr, hrun, hmeets⟩ := h
  have hkeeps : ∀ (w' : LockWorld K V) act w'', w'.threads other = w.threads other →
      act = .run tid → (lockSystem cfg n).step w' act = some w'' →
      w''.threads other = w.threads other := by
    rintro w' act w'' hsame rfl hstep
    exact (go_threads hstep hother).trans hsame
  refine hrun.invariant ?_ hkeeps hmeets
  rfl

end RunsAlone

/-- No lock is missing that the thread could wait for. -/
theorem Solo.enabled (h : Solo cfg tid w m) (hbusy : (w.threads tid).resting = false) :
    ∃ w', w.go cfg tid = some w' := by
  refine go_enabled h.locks h.follows hbusy fun x hx => ?_
  cases hown : w.owner x with
  | none => rfl
  | some other =>
    obtain rfl := h.owner x other hown
    exact absurd ((h.locks.ok other).wants_above hx ((h.locks.owned x other).mp hown)) (lt_irrefl _)

/-- The thread is not in a call, or has its answer, or its call takes its next step now. -/
def Settled (cfg : Config K) (w : LockWorld K V) (tid : Nat) : Prop :=
  (w.threads tid).resting = true ∨ ∃ w', w.go cfg tid = some w' ∧ Acts cfg w tid w'

/-- It has taken or given up all locks after a while. -/
theorem settles (h : Solo cfg tid w m) (n : Nat) :
    ∃ w₁, RunsAlone cfg n tid w w₁ ∧ Solo cfg tid w₁ m ∧ w₁.world = w.world ∧
      w₁.arrays = w.arrays ∧ Settled cfg w₁ tid := by
  have hstep : ∀ (w₁ : LockWorld K V) act w₂,
      (Solo cfg tid w₁ m ∧ w₁.world = w.world ∧ w₁.arrays = w.arrays) →
      (act = .run tid ∧ ¬ Settled cfg w₁ tid) → (lockSystem cfg n).step w₁ act = some w₂ →
      (Solo cfg tid w₂ m ∧ w₂.world = w.world ∧ w₂.arrays = w.arrays) ∧
        (w₂.threads tid).rank w₂.arrays < (w₁.threads tid).rank w₁.arrays := by
    rintro w₁ act w₂ ⟨hsolo, hworld, harrays⟩ ⟨rfl, hnot⟩ hgo
    rcases nears_or_acts hsolo hgo with hnears | hacts
    · have htable : w₂.table = w₁.table := congrArg World.table hnears.world
      exact ⟨⟨hsolo.go hgo (htable ▸ hsolo.table), hnears.world.trans hworld,
        hnears.arrays.trans harrays⟩, hnears.rank⟩
    · exact absurd (.inr ⟨w₂, hgo, hacts⟩) hnot
  have hgo : ∀ w₁ : LockWorld K V,
      (Solo cfg tid w₁ m ∧ w₁.world = w.world ∧ w₁.arrays = w.arrays) → ¬ Settled cfg w₁ tid →
      ∃ act w₂, (act = .run tid ∧ ¬ Settled cfg w₁ tid) ∧
        (lockSystem cfg n).step w₁ act = some w₂ := by
    rintro w₁ ⟨hsolo, -⟩ hnot
    have hbusy : (w₁.threads tid).resting = false := by
      cases hrest : (w₁.threads tid).resting with
      | false => rfl
      | true => exact absurd (.inl hrest) hnot
    obtain ⟨w₂, hgo⟩ := hsolo.enabled hbusy
    exact ⟨.run tid, w₂, ⟨rfl, hnot⟩, hgo⟩
  obtain ⟨tr, w₁, hrun, hmeets, ⟨hsolo, hworld, harrays⟩, hsettled⟩ :=
    TSys.reaches (fun w₁ => (w₁.threads tid).rank w₁.arrays) hstep hgo ⟨h, rfl, rfl⟩
  exact ⟨w₁, ⟨tr, hrun, hmeets.mono fun _ _ hact => hact.1⟩, hsolo, hworld, harrays, hsettled⟩

/-- The call goes on, or has taken effect. -/
def Outcome (c : Call K V) (m : K → Option V) (pc : Pc K V) (m' : K → Option V) : Prop :=
  (pc.phase = .called c ∧ m' = m) ∨ ∃ r, pc = .answered r ∧ Effect c m r m'

omit [DecidableEq K] in
theorem resting_phase (h : s.resting = true) : s.pc.phase ≠ .called c := by
  cases s with
  | free pc =>
    cases pc with
    | idle => exact fun heq => by cases heq
    | answered r => exact fun heq => by cases heq
    | _ => cases h
  | _ => cases h

/-- One step of the call, with all that it takes. -/
theorem Solo.act (h : Solo cfg tid w m) (hphase : (w.threads tid).pc.phase = .called c) (n : Nat) :
    ∃ w' m', RunsAlone cfg n tid w w' ∧ Solo cfg tid w' m' ∧
      w.table.advance cfg (w.threads tid).pc = some (w'.table, (w'.threads tid).pc) ∧
      Outcome c m (w'.threads tid).pc m' := by
  obtain ⟨w₁, halone, hsolo, hworld, -, hsettled⟩ := settles h n
  have htable : w₁.table = w.table := congrArg World.table hworld
  have hpc : (w₁.threads tid).pc = (w.threads tid).pc :=
    congrFun (congrArg World.threads hworld) tid
  rcases hsettled with hrest | ⟨w₂, hgo, hacts⟩
  · rw [← hpc] at hphase
    exact absurd hphase (resting_phase hrest)
  · have hacts := hacts.advance
    rw [htable, hpc] at hacts
    obtain ⟨t', pc', m', hadv, hinv, -, -, hres⟩ := good_advance h.table (h.known tid) hphase
    cases hacts.symm.trans hadv
    exact ⟨w₂, m', halone.trans (.single hgo), hsolo.go hgo hinv, hacts, hres⟩

/-- What a thread comes to without the locks it comes to with them. -/
theorem Ends.solo {P : Table K V → Pc K V → Prop} {t : Table K V} (h : Ends cfg P t pc) (n : Nat) :
    ∀ {w : LockWorld K V} {m : K → Option V}, w.table = t → (w.threads tid).pc = pc →
      Solo cfg tid w m → pc.phase = .called c → ∃ w' m', RunsAlone cfg n tid w w' ∧
        Solo cfg tid w' m' ∧ P w'.table (w'.threads tid).pc ∧
          Outcome c m (w'.threads tid).pc m' := by
  induction h with
  | here hP =>
    rintro w m rfl rfl hsolo hphase
    exact ⟨w, m, .refl w, hsolo, hP, .inl ⟨hphase, rfl⟩⟩
  | @step t pc t' pc' hadv hends ih =>
    rintro w m rfl rfl hsolo hphase
    obtain ⟨w₁, m₁, halone, hsolo₁, hadv₁, hout⟩ := hsolo.act hphase n
    cases hadv.symm.trans hadv₁
    rcases hout with ⟨hphase₁, rfl⟩ | ⟨r, hr, heff⟩
    · obtain ⟨w₂, m₂, halone', hrest⟩ := ih rfl rfl hsolo₁ hphase₁
      exact ⟨w₂, m₂, halone.trans halone', hrest⟩
    · -- nothing comes after the answer
      cases hends with
      | here hP => exact ⟨w₁, m₁, halone, hsolo₁, hP, .inr ⟨r, hr, heff⟩⟩
      | step hadv' _ =>
        rw [hr] at hadv'
        cases hadv'

/-! ## The result -/

omit [DecidableEq K] in
theorem LocksFollow.solo {a : State Nat (Call K V) (Ret V) (K → Option V)} (h : LocksFollow cfg w a)
    (hfree : ∀ x other, w.owner x = some other → other = tid) : Solo cfg tid w a.obj := by
  refine ⟨h.locks, h.follows.table, h.follows.known, hfree, .inr h.numLocks, ?_⟩
  have hok := h.locks.ok tid
  rw [h.arrays] at hok ⊢
  cases hs : w.threads tid with
  | takingAll u hp first array i =>
    rw [hs] at hok
    obtain ⟨hle, hlt⟩ := hok
    exact congrArg (· + 1) (Nat.lt_one_iff.mp (Nat.lt_of_le_of_lt hle hlt))
  | insideAll u hp first =>
    rw [hs] at hok
    exact congrArg (· + 1) (Nat.lt_one_iff.mp hok)
  | _ => trivial

/-- From any state in which no other thread holds a lock, a thread that is left alone gets its
call answered. -/
theorem finishes_alone {n : Nat} (hn : defaultSize < 2 * n) (hbounded : cfg.Bounded)
    (hreach : (lockSystem cfg n).Reachable w)
    (hfree : ∀ x other, w.owner x = some other → other = tid)
    (hcalled : (w.threads tid).pc.phase = .called c) :
    ∃ tr w' r, (lockSystem cfg n).Run w tr w' ∧ TSys.Meets (fun _ act => act = .run tid) tr ∧
      w'.threads tid = .free (.answered r) := by
  obtain ⟨w₀, tr, rfl, hrun⟩ := hreach
  obtain ⟨a, -, hfollow⟩ := locksFollow_run hn hrun
  have hsolo := hfollow.solo hfree
  have hends := ends_call hbounded hsolo.table (hsolo.known tid) hcalled
  obtain ⟨w₁, m₁, halone, hsolo₁, ⟨r, hr⟩, -⟩ := hends.solo n rfl rfl hsolo hcalled
  -- the answer is there, and the last locks are given up
  obtain ⟨w₂, halone', -, hworld, -, hsettled⟩ := settles hsolo₁ n
  have hpc : (w₂.threads tid).pc = .answered r :=
    (congrFun (congrArg World.threads hworld) tid).trans hr
  obtain ⟨tr', hrun', hmeets⟩ := halone.trans halone'
  refine ⟨tr', w₂, r, hrun', hmeets, ?_⟩
  rcases hsettled with hrest | ⟨w₃, -, hacts⟩
  · cases hs : w₂.threads tid with
    | free pc =>
      rw [hs] at hpc
      exact congrArg Stage.free hpc
    | _ =>
      rw [hs] at hrest
      cases hrest
  · have hadv := hacts.advance
    rw [hpc] at hadv
    cases hadv

/-- An insertion under its locks, for which another thread waits. -/
theorem finishes_alone_insert :
    ∃ w : LockWorld Nat Nat, plainConfig.Bounded ∧
      (lockSystem plainConfig defaultSize).Reachable w ∧
      (∀ x other, w.owner x = some other → other = 0) ∧
      (w.threads 0).pc.phase = .called (.insertOrAssign 5 50) ∧
      (w.threads 1).pc.phase = .called (.find 5) ∧ w.step plainConfig (.run 1) = none ∧
      ∃ tr w' r, (lockSystem plainConfig defaultSize).Run w tr w' ∧
        TSys.Meets (fun _ act => act = .run 0) tr ∧ w'.threads 0 = .free (.answered r) := by
  obtain ⟨tr, w, l₁, l₂, htr, howner, hcalled, hother, hwaits⟩ : ∃ tr w l₁ l₂,
      (lockSystem plainConfig defaultSize).trace (.create defaultSize : LockWorld Nat Nat)
        [.invoke 0 (.insertOrAssign 5 50), .run 0, .run 0, .run 0, .run 0, .run 0, .run 0,
          .invoke 1 (.find 5), .run 1, .run 1] = some (tr, w) ∧
      w.owner = Function.update (Function.update (fun _ => none) l₁ (some 0)) l₂ (some 0) ∧
      (w.threads 0).pc.phase = .called (.insertOrAssign 5 50) ∧
      (w.threads 1).pc.phase = .called (.find 5) ∧ w.step plainConfig (.run 1) = none :=
    ⟨_, _, _, _, rfl, rfl, rfl, rfl, rfl⟩
  have hfree : ∀ x other, w.owner x = some other → other = 0 := by
    intro x other hx
    rw [howner, Function.update_apply, Function.update_apply] at hx
    split_ifs at hx
    · exact (Option.some.inj hx).symm
    · exact (Option.some.inj hx).symm
  have hreach : (lockSystem plainConfig defaultSize).Reachable w :=
    ⟨_, tr, rfl, TSys.run_of_trace htr⟩
  exact ⟨w, plainConfig_bounded, hreach, hfree, hcalled, hother, hwaits,
    finishes_alone defaultSize_lt plainConfig_bounded hreach hfree hcalled⟩

end LogDirect.Cuckoo
