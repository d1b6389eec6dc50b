import LogDirect.Cuckoo.Held

/-!
# libcuckoo: the steps of a thread that takes its locks

Every step keeps the locks and the threads in order (`LockInv`), and the plain map follows
it (`Goes`): a lock that is taken or given up is no step of the call, and a hashpower that
has changed sends the call back to where it would have gone (`advance_retry`). A doubling
finds nobody else with a lock of the current array.
-/

namespace LogDirect.Cuckoo

open Lib Lib.Atomic Lib.Owners

variable {K V : Type} {cfg : Config K} {pc : Pc K V} {hp hashpower : Nat} {w : LockWorld K V}
  {tid : Nat} {s : Stage K V}

/-! ## A thread that has all locks -/

/-- The thread has every lock of the current array. -/
def Stage.Full : Stage K V → Prop
  | .insideAll _ _ _ => True
  | .swapped _ _ => True
  | _ => False

theorem Stage.Full.of_swapping (h : s.swapping = true) : s.Full := by
  cases s with
  | swapped u first => trivial
  | _ => cases h

variable {x : LockId}

theorem Stage.Full.holds {arrays : List Nat} (h : s.Full) (hok : s.Ok cfg hashpower arrays)
    (hx : InRange arrays x) (hlast : x.1 + 1 = arrays.length) : s.Holds arrays x := by
  cases s with
  | insideAll u hp first =>
    have hfirst : first < arrays.length := hok
    exact ⟨hx, by omega⟩
  | swapped u first =>
    have hfirst : first < arrays.length := hok
    exact ⟨hx, by omega⟩
  | _ => cases h

/-- Nobody else holds a lock of the current array then. -/
theorem LockInv.excludes (h : LockInv cfg w) {other : Nat} (hfull : (w.threads tid).Full)
    (hother : other ≠ tid) (hx : (w.threads other).Holds w.arrays x) :
    x.1 + 1 ≠ w.arrays.length := fun hlast =>
  hother (h.owned.unique hx (hfull.holds (h.ok tid) ((h.ok other).inRange hx) hlast))

/-- A thread with a lock of the current array sees the hashpower of the table. -/
theorem LockInv.shown_of_holds (h : LockInv cfg w) (hno : (w.threads tid).swapping = false)
    (hx : (w.threads tid).Holds w.arrays x) (hlast : x.1 + 1 = w.arrays.length) :
    w.hashpower = w.table.hashpower := by
  refine h.shown fun v => ?_
  cases hv : (w.threads v).swapping with
  | false => rfl
  | true =>
    have hne : tid ≠ v := by
      rintro rfl
      rw [hno] at hv
      cases hv
    exact absurd hlast (h.excludes (.of_swapping hv) hne hx)

/-! ## One step -/

section

variable [DecidableEq K] {a : State Nat (Call K V) (Ret V) (K → Option V)} {w' : LockWorld K V}

/-- The locks are in order after a step, and the plain map has followed it. -/
def Goes (cfg : Config K) (a : State Nat (Call K V) (Ret V) (K → Option V))
    (w' : LockWorld K V) : Prop :=
  ∃ a', Step Effect a [] a' ∧ LockInv cfg w' ∧ Follows cfg w'.world a'

omit [DecidableEq K] in
theorem world_set : (w.set tid s).world = ⟨w.table, Function.update w.world.threads tid s.pc⟩ := by
  have hthreads : (w.set tid s).world.threads = Function.update w.world.threads tid s.pc := by
    funext u
    change (Function.update w.threads tid s u).pc = _
    by_cases hu : u = tid
    · rw [hu, Function.update_self, Function.update_self]
    · rw [Function.update_of_ne hu, Function.update_of_ne hu]
      rfl
  rw [← hthreads]
  rfl

/-- Only the locks change. -/
theorem goes_same (hf : Follows cfg w.world a) (h : LockInv cfg w')
    (hw : w'.world = (w.set tid s).world) (hpc : s.pc = (w.threads tid).pc) : Goes cfg a w' := by
  refine ⟨a, .stay a, h, ?_⟩
  have hsame : Function.update w.world.threads tid s.pc = w.world.threads := by
    rw [hpc]
    exact Function.update_eq_self tid w.world.threads
  rw [hw, world_set, hsame]
  exact hf

variable {t' : Table K V} {array first : Nat} {held rest arrays extra : List Nat} {u : Uprase K V}
  {x : LockId}

/-- A step of the call. -/
theorem goes_advance (hf : Follows cfg w.world a)
    (hadv : w.table.advance cfg (w.threads tid).pc = some (t', s.pc)) (h : LockInv cfg w')
    (hw : w'.world = ({ w with table := t' }.set tid s).world) : Goes cfg a w' := by
  obtain ⟨c, hcalled⟩ := advance_called hadv
  have hcalled : (w.world.threads tid).phase = .called c := hcalled
  obtain ⟨w'', a', hstep, hone, hf'⟩ := hf.run hcalled
  have hstep' : World.step cfg w.world (.run tid) =
      some ⟨t', Function.update w.world.threads tid s.pc⟩ := by
    change (w.table.advance cfg (w.threads tid).pc).map _ = _
    rw [hadv]
    rfl
  cases hstep.symm.trans hstep'
  refine ⟨a', hone, h, ?_⟩
  rw [hw, world_set]
  exact hf'

theorem Follows.stays (hf : Follows cfg w.world a) {pc' : Pc K V}
    (hadv : w.table.advance cfg (w.threads tid).pc = some (t', pc'))
    (hpc : ∀ u hp, (w.threads tid).pc ≠ .expanding u hp) :
    t'.hashpower = w.table.hashpower ∧ t'.numLocks = w.table.numLocks := by
  obtain ⟨c, hcalled⟩ := advance_called hadv
  obtain ⟨t'', pc'', m', heq, hinv, hhp, -⟩ := good_stays hf.table (hf.known tid) hcalled hpc
  cases hadv.symm.trans heq
  refine ⟨hhp.symm, ?_⟩
  rw [hinv.locks, ← hhp]
  exact hf.table.locks.symm

/-- A step of the call that is not a doubling, under the same locks as before. -/
theorem goes_work (h : LockInv cfg w) (hf : Follows cfg w.world a)
    (hadv : w.table.advance cfg (w.threads tid).pc = some (t', s.pc))
    (hpc : ∀ u hp, (w.threads tid).pc ≠ .expanding u hp) (hno : (w.threads tid).swapping = false)
    (hok : s.Ok cfg w.table.hashpower w.arrays)
    (hholds : ∀ x, s.Holds w.arrays x ↔ (w.threads tid).Holds w.arrays x) :
    Goes cfg a ({ w with table := t' }.set tid s) := by
  obtain ⟨hhp, hnum⟩ := hf.stays hadv hpc
  refine goes_advance hf hadv ((h.table hhp hnum).set hno ?_ hholds) rfl
  change s.Ok cfg t'.hashpower w.arrays
  rw [hhp]
  exact hok

/-- A thread reads the hashpower that shows, which may be an old one. -/
theorem goes_snapshot (h : LockInv cfg w) (hf : Follows cfg w.world a) {c : Call K V}
    (hs : w.threads tid = .free (.snapshot c)) :
    Goes cfg a (w.set tid (.free (.locking c w.hashpower))) := by
  have hphase : a.phase tid = .called c := by
    rw [hf.phase tid]
    exact congrArg (fun s => s.pc.phase) hs
  have hle : (Pc.locking c w.hashpower).Ok cfg w.world.table.hashpower := h.below.1
  have hchange : Follows cfg _ ⟨a.obj, Function.update a.phase tid (a.phase tid)⟩ :=
    hf.change tid hf.table (Nat.le_refl _) hle hphase
  rw [Function.update_eq_self] at hchange
  refine ⟨a, .stay a, h.set ?_ trivial fun x => ?_, ?_⟩
  · rw [hs]
    rfl
  · rw [hs]
    exact Iff.rfl
  · rw [world_set]
    exact hchange

theorem goes_free (h : LockInv cfg w) (hf : Follows cfg w.world a)
    (hs : w.threads tid = .free pc) (hgo : w.goFree cfg tid pc = some w') : Goes cfg a w' := by
  have hknown : (w.threads tid).pc.Ok cfg w.table.hashpower := hf.known tid
  rw [hs] at hknown
  have hpc : pc = (w.threads tid).pc := by
    rw [hs]
    rfl
  have hno : (w.threads tid).swapping = false := by
    rw [hs]
    rfl
  cases hlocks : pc.locks cfg with
  | some need =>
    obtain ⟨hp, ls⟩ := need
    unfold LockWorld.goFree at hgo
    rw [hlocks] at hgo
    cases hgo
    obtain ⟨hle, hls⟩ := locks_spec hknown hlocks
    have hneeds : Needs cfg w.table.hashpower w.arrays pc hp (w.arrays.length - 1) [] ls := {
      locks := ⟨ls, hlocks, fun l hl => .inr hl⟩
      inRange := fun l hl => by
        have hl := hl.resolve_left List.not_mem_nil
        exact h.inRange_last (hls.lt hf.table hle l hl)
      nonempty := .inr hls.nonempty
      sorted := hls.sorted
      distinct := List.nodup_nil
      current := fun _ => Nat.sub_add_cancel h.length_pos }
    refine goes_same hf (h.set hno ⟨hneeds, fun hne => absurd rfl hne⟩ fun x => ?_) rfl hpc
    rw [hs]
    exact ⟨fun hx => absurd hx.2 List.not_mem_nil, False.elim⟩
  | none =>
    unfold LockWorld.goFree at hgo
    rw [hlocks] at hgo
    have hwork : (∀ u hp, pc ≠ .expanding u hp) →
        ((w.table.advance cfg pc).map fun r => { w with table := r.1 }.set tid (.free r.2)) =
          some w' → Goes cfg a w' := by
      intro hne hgo
      obtain ⟨⟨t', pc'⟩, hadv, rfl⟩ := Option.map_eq_some_iff.mp hgo
      refine goes_work h hf ?_ ?_ hno trivial fun x => ?_
      · rw [hs]
        exact hadv
      · rw [hs]
        exact hne
      · rw [hs]
        exact Iff.rfl
    cases pc with
    | snapshot c =>
      cases hgo
      exact goes_snapshot h hf hs
    | expanding u hp =>
      cases hgo
      have hpos := h.length_pos
      refine goes_same hf (h.set hno ⟨Nat.le_refl _, Nat.sub_lt hpos Nat.one_pos⟩ fun x => ?_) rfl
        hpc
      rw [hs]
      refine ⟨fun hx => ?_, False.elim⟩
      obtain ⟨-, hle, hlt⟩ := hx
      omega
    | _ => exact hwork (fun _ _ heq => by cases heq) hgo

theorem goes_taking (h : LockInv cfg w) (hf : Follows cfg w.world a)
    (hs : w.threads tid = .taking pc hp array held rest)
    (hgo : w.goTaking tid pc hp array held rest = some w') : Goes cfg a w' := by
  have hok := h.ok tid
  rw [hs] at hok
  obtain ⟨hneeds, hhp⟩ := hok
  have hpc : pc = (w.threads tid).pc := by
    rw [hs]
    rfl
  have hno : (w.threads tid).swapping = false := by
    rw [hs]
    rfl
  cases rest with
  | nil =>
    cases hgo
    have hne : held ≠ [] := hneeds.nonempty.resolve_right fun hne => hne rfl
    refine goes_same hf (h.set hno ⟨hneeds, hhp hne⟩ fun x => ?_) rfl hpc
    rw [hs]
    exact Iff.rfl
  | cons l rest =>
    rw [LockWorld.goTaking] at hgo
    by_cases hhead : held.head? = some l
    · rw [if_pos hhead] at hgo
      cases hgo
      refine goes_same hf (h.set hno ⟨hneeds.skip hhead, hhp⟩ fun x => ?_) rfl hpc
      rw [hs]
      exact Iff.rfl
    rw [if_neg hhead] at hgo
    have htaken := hneeds.take hhead
    by_cases hfree : w.owner (array, l) = none
    · rw [if_pos hfree] at hgo
      by_cases hheld : held = []
      · subst hheld
        rw [if_pos rfl] at hgo
        cases hgo
        refine goes_same hf (h.lock hno hfree htaken fun x => ?_) rfl hpc
        rw [hs]
        simp [Stage.Holds]
      · rw [if_neg hheld] at hgo
        cases hgo
        refine goes_same hf (h.lock hno hfree ⟨htaken, fun _ => hhp hheld⟩ fun x => ?_) rfl hpc
        rw [hs]
        simp only [Stage.Holds, List.mem_cons, Prod.ext_iff]
        tauto
    · rw [if_neg hfree] at hgo
      cases hgo

theorem goes_checking (h : LockInv cfg w) (hf : Follows cfg w.world a)
    (hs : w.threads tid = .checking pc hp array first rest)
    (hslip : w.hashpower = hp → w.hashpower = w.table.hashpower) :
    Goes cfg a (w.goChecking tid pc hp array first rest) := by
  have hneeds := h.ok tid
  rw [hs] at hneeds
  have hpc : pc = (w.threads tid).pc := by
    rw [hs]
    rfl
  have hno : (w.threads tid).swapping = false := by
    rw [hs]
    rfl
  have hlock : (w.threads tid).Holds w.arrays (array, first) := by
    rw [hs]
    exact rfl
  rw [LockWorld.goChecking]
  by_cases hhp : w.hashpower = hp
  · rw [if_pos hhp]
    have hcurrent : w.table.hashpower = hp := (hslip hhp).symm.trans hhp
    refine goes_same hf (h.set hno ⟨hneeds, fun _ => hcurrent⟩ fun x => ?_) rfl hpc
    rw [hs]
    simp [Stage.Holds, Prod.ext_iff]
  · rw [if_neg hhp]
    -- with a lock of the current array it would see the hashpower of the table
    have hold : w.table.hashpower ≠ hp := by
      intro heq
      have hlast : array + 1 = w.arrays.length := Needs.current hneeds heq
      exact hhp ((h.shown_of_holds hno hlock hlast).trans heq)
    obtain ⟨ls, hlocks, -⟩ := Needs.locks hneeds
    have hknown : pc.Ok cfg w.table.hashpower := hpc ▸ hf.known tid
    have hadv : w.table.advance cfg (w.threads tid).pc = some (w.table, pc.retry) := by
      rw [← hpc]
      exact advance_retry hf.table hknown hlocks hold
    refine goes_advance (s := .free pc.retry) hf hadv ?_ rfl
    refine h.unlock hno hlock trivial fun x => ?_
    rw [hs]
    exact ⟨False.elim, fun hx => hx.2 hx.1⟩

theorem goes_inside (h : LockInv cfg w) (hf : Follows cfg w.world a)
    (hs : w.threads tid = .inside pc hp array held)
    (hgo : w.goInside cfg tid pc hp array held = some w') : Goes cfg a w' := by
  have hok := h.ok tid
  rw [hs] at hok
  obtain ⟨hneeds, -⟩ := hok
  unfold LockWorld.goInside at hgo
  split at hgo
  · obtain ⟨⟨t', pc'⟩, hadv, rfl⟩ := Option.map_eq_some_iff.mp hgo
    have hrange : ∀ l ∈ held, InRange w.arrays (array, l) := fun l hl => hneeds.inRange l (.inl hl)
    refine goes_work h hf ?_ ?_ ?_ ⟨hneeds.distinct, hrange⟩ fun x => ?_
    · rw [hs]
      exact hadv
    · rw [hs]
      rintro u hp' rfl
      obtain ⟨ls, hlocks, -⟩ := hneeds.locks
      cases hlocks
    · rw [hs]
      rfl
    · rw [hs]
      exact Iff.rfl
  · cases hgo

theorem goes_releasing (h : LockInv cfg w) (hf : Follows cfg w.world a) {l : Nat}
    (hs : w.threads tid = .releasing pc array (l :: held)) :
    Goes cfg a ((w.unlock (array, l)).set tid (.releasing pc array held)) := by
  have hok := h.ok tid
  rw [hs] at hok
  obtain ⟨hnodup, hrange⟩ := hok
  obtain ⟨hl, hnodup⟩ := List.nodup_cons.mp hnodup
  have hpc : pc = (w.threads tid).pc := by
    rw [hs]
    rfl
  refine goes_same hf (h.unlock ?_ ?_ ⟨hnodup, fun k hk => hrange k (List.mem_cons_of_mem l hk)⟩
    fun x => ?_) rfl hpc
  · rw [hs]
    rfl
  · rw [hs]
    exact ⟨rfl, List.mem_cons_self⟩
  · rw [hs]
    obtain ⟨b, i⟩ := x
    simp only [Stage.Holds, List.mem_cons, ne_eq, Prod.mk.injEq]
    constructor
    · rintro ⟨rfl, hi⟩
      refine ⟨⟨rfl, .inr hi⟩, ?_⟩
      rintro ⟨-, rfl⟩
      exact hl hi
    · rintro ⟨⟨rfl, hi⟩, hne⟩
      exact ⟨rfl, hi.resolve_left fun heq => hne ⟨rfl, heq⟩⟩

theorem goes_takingAll (h : LockInv cfg w) (hf : Follows cfg w.world a) {i : Nat}
    (hs : w.threads tid = .takingAll u hp first array i)
    (hgo : w.goTakingAll tid u hp first array i = some w') : Goes cfg a w' := by
  have hok := h.ok tid
  rw [hs] at hok
  obtain ⟨hle, hlt⟩ := hok
  have hpc : .expanding u hp = (w.threads tid).pc := by
    rw [hs]
    rfl
  have hno : (w.threads tid).swapping = false := by
    rw [hs]
    rfl
  obtain ⟨n, hn, hgo⟩ := Option.bind_eq_some_iff.mp hgo
  have hsize : ∀ k, w.arrays[array]? = some k → k = n := fun k hk =>
    Option.some.inj (hk.symm.trans hn)
  by_cases hi : i < n
  · rw [if_pos hi] at hgo
    by_cases hfree : w.owner (array, i) = none
    · rw [if_pos hfree] at hgo
      cases hgo
      refine goes_same hf (h.lock hno hfree ⟨hle, hlt⟩ fun x => ?_) rfl hpc
      rw [hs]
      obtain ⟨b, j⟩ := x
      simp only [Stage.Holds, Prod.mk.injEq]
      constructor
      · rintro ⟨hx, hfirst, hlast⟩
        by_cases heq : b = array ∧ j = i
        · exact .inr heq
        · exact .inl ⟨hx, hfirst, by omega⟩
      · rintro (⟨hx, hfirst, hlast⟩ | ⟨rfl, rfl⟩)
        · exact ⟨hx, hfirst, by omega⟩
        · exact ⟨⟨n, hn, hi⟩, hle, by omega⟩
    · rw [if_neg hfree] at hgo
      cases hgo
  · rw [if_neg hi] at hgo
    by_cases hnext : array + 1 < w.arrays.length
    · rw [if_pos hnext] at hgo
      cases hgo
      refine goes_same hf (h.set hno ⟨by omega, hnext⟩ fun x => ?_) rfl hpc
      rw [hs]
      obtain ⟨b, j⟩ := x
      refine and_congr_right fun hx => and_congr_right fun _ => ?_
      obtain ⟨k, hget, hj⟩ := hx
      dsimp only at hget hj ⊢
      have hk : b = array → k = n := by
        rintro rfl
        exact hsize k hget
      omega
    · -- all of them are taken
      rw [if_neg hnext] at hgo
      cases hgo
      have hfirst : first < w.arrays.length := by omega
      refine goes_same hf (h.set hno hfirst fun x => ?_) rfl hpc
      rw [hs]
      obtain ⟨b, j⟩ := x
      refine ⟨fun hx => ⟨hx.1, hx.2, ?_⟩, fun hx => ⟨hx.1, hx.2.1⟩⟩
      obtain ⟨⟨k, hget, hj⟩, -⟩ := hx
      obtain ⟨hb, -⟩ := List.getElem?_eq_some_iff.mp hget
      dsimp only at hget hj hb ⊢
      have hk : b = array → k = n := by
        rintro rfl
        exact hsize k hget
      omega

theorem goes_releasingAll (h : LockInv cfg w) (hf : Follows cfg w.world a) {i : Nat}
    (hs : w.threads tid = .releasingAll pc array i)
    (hgo : w.goReleasingAll tid pc array i = some w') : Goes cfg a w' := by
  have harray := h.ok tid
  rw [hs] at harray
  have hpc : pc = (w.threads tid).pc := by
    rw [hs]
    rfl
  have hno : (w.threads tid).swapping = false := by
    rw [hs]
    rfl
  obtain ⟨n, hn, rfl⟩ := Option.map_eq_some_iff.mp hgo
  have hsize : ∀ k, w.arrays[array]? = some k → k = n := fun k hk =>
    Option.some.inj (hk.symm.trans hn)
  by_cases hi : i < n
  · rw [if_pos hi]
    refine goes_same hf (h.unlock hno ?_ harray fun x => ?_) rfl hpc
    · rw [hs]
      exact ⟨⟨n, hn, hi⟩, .inr ⟨rfl, Nat.le_refl i⟩⟩
    · rw [hs]
      obtain ⟨b, j⟩ := x
      simp only [Stage.Holds, ne_eq, Prod.mk.injEq]
      rw [and_assoc]
      refine and_congr_right fun _ => ?_
      omega
  rw [if_neg hi]
  by_cases hnext : array + 1 < w.arrays.length
  · rw [if_pos hnext]
    refine goes_same hf (h.set hno hnext fun x => ?_) rfl hpc
    rw [hs]
    obtain ⟨b, j⟩ := x
    refine and_congr_right fun hx => ?_
    obtain ⟨k, hget, hj⟩ := hx
    dsimp only at hget hj ⊢
    have hk : b = array → k = n := by
      rintro rfl
      exact hsize k hget
    omega
  · rw [if_neg hnext]
    refine goes_same hf (h.set hno trivial fun x => ?_) rfl hpc
    rw [hs]
    obtain ⟨b, j⟩ := x
    refine ⟨False.elim, fun hx => ?_⟩
    obtain ⟨⟨k, hget, hj⟩, hplace⟩ := hx
    obtain ⟨hb, -⟩ := List.getElem?_eq_some_iff.mp hget
    dsimp only at hget hj hb hplace
    have hk : b = array → k = n := by
      rintro rfl
      exact hsize k hget
    omega

/-! ## The table is doubled -/

theorem InRange.append (h : InRange arrays x) : InRange (arrays ++ extra) x := by
  obtain ⟨n, hn, hx⟩ := h
  obtain ⟨hlt, -⟩ := List.getElem?_eq_some_iff.mp hn
  exact ⟨n, by rw [List.getElem?_append_left hlt, hn], hx⟩

theorem InRange.of_append (hlt : x.1 < arrays.length) (h : InRange (arrays ++ extra) x) :
    InRange arrays x := by
  obtain ⟨n, hn, hx⟩ := h
  rw [List.getElem?_append_left hlt] at hn
  exact ⟨n, hn, hx⟩

omit [DecidableEq K] in
theorem Needs.grown (h : Needs cfg hashpower arrays pc hp array held rest)
    (hknown : pc.Ok cfg hashpower) :
    Needs cfg (hashpower + 1) (arrays ++ extra) pc hp array held rest where
  locks := h.locks
  inRange l hl := (h.inRange l hl).append
  nonempty := h.nonempty
  sorted := h.sorted
  distinct := h.distinct
  current heq := by
    obtain ⟨ls, hlocks, -⟩ := h.locks
    have hle := (locks_spec hknown hlocks).1
    omega

omit [DecidableEq K] in
/-- A thread that holds no lock of the current array has not looked at the hashpower, or
has seen another one. -/
theorem Stage.Ok.grown (h : s.Ok cfg hashpower arrays) (hknown : s.pc.Ok cfg hashpower)
    (hno : ∀ x, s.Holds arrays x → x.1 + 1 ≠ arrays.length) :
    s.Ok cfg (hashpower + 1) (arrays ++ extra) := by
  have hlen : arrays.length ≤ (arrays ++ extra).length := by
    rw [List.length_append]
    exact Nat.le_add_right _ _
  cases s with
  | free pc => trivial
  | taking pc hp array held rest =>
    obtain ⟨hneeds, hhp⟩ := h
    refine ⟨hneeds.grown hknown, fun hne => ?_⟩
    obtain ⟨l, hl⟩ := List.exists_mem_of_ne_nil held hne
    exact absurd (hneeds.current (hhp hne)) (hno (array, l) ⟨rfl, hl⟩)
  | checking pc hp array first rest => exact Needs.grown h hknown
  | inside pc hp array held =>
    obtain ⟨hneeds, hhp⟩ := h
    have hne : held ≠ [] := hneeds.nonempty.resolve_right fun hne => hne rfl
    obtain ⟨l, hl⟩ := List.exists_mem_of_ne_nil held hne
    exact absurd (hneeds.current hhp) (hno (array, l) ⟨rfl, hl⟩)
  | takingAll u hp first array i => exact ⟨h.1, Nat.lt_of_lt_of_le h.2 hlen⟩
  | insideAll u hp first => exact Nat.lt_of_lt_of_le h hlen
  | swapped u first => exact Nat.lt_of_lt_of_le h hlen
  | releasing pc array held => exact ⟨h.1, fun l hl => (h.2 l hl).append⟩
  | releasingAll pc array i => exact Nat.lt_of_lt_of_le h hlen

omit [DecidableEq K] in
/-- It holds the same locks when an array is added, unless it is just giving them up. -/
theorem Stage.holds_append (h : s.Ok cfg hashpower arrays)
    (hno : ∀ x, s.Holds arrays x → x.1 + 1 ≠ arrays.length)
    (hlast : InRange arrays (arrays.length - 1, 0)) (hunlocking : s.unlocking = false)
    (x : LockId) : s.Holds (arrays ++ extra) x ↔ s.Holds arrays x := by
  have hfull : ¬ s.Full := by
    intro hfull
    have hpos : arrays.length - 1 + 1 = arrays.length := by
      obtain ⟨n, hn, -⟩ := hlast
      obtain ⟨hlt, -⟩ := List.getElem?_eq_some_iff.mp hn
      dsimp only at hlt
      omega
    exact hno _ (hfull.holds h hlast hpos) hpos
  cases s with
  | takingAll u hp first array i =>
    obtain ⟨-, harray⟩ := h
    constructor
    · rintro ⟨hx, hrest⟩
      exact ⟨hx.of_append (by omega), hrest⟩
    · rintro ⟨hx, hrest⟩
      exact ⟨hx.append, hrest⟩
  | insideAll u hp first => exact absurd trivial hfull
  | swapped u first => exact absurd trivial hfull
  | releasingAll pc array i => cases hunlocking
  | _ => exact Iff.rfl

omit [DecidableEq K] in
/-- The table is doubled by a thread that has taken all locks, and arrays of locks may be
added. -/
theorem LockInv.ok_double (h : LockInv cfg w)
    (hknown : ∀ u, (w.threads u).pc.Ok cfg w.table.hashpower)
    (hs : w.threads tid = .insideAll u hp first) (hgrow : t'.hashpower = w.table.hashpower + 1)
    (extra : List Nat) (v : Nat) :
    (Function.update w.threads tid (.swapped u first) v).Ok cfg t'.hashpower
      (w.arrays ++ extra) := by
  have hok := h.ok tid
  rw [hs] at hok
  rw [hgrow]
  by_cases hv : v = tid
  · rw [hv, Function.update_self]
    have hfirst : first < w.arrays.length := hok
    change first < (w.arrays ++ extra).length
    rw [List.length_append]
    omega
  · rw [Function.update_of_ne hv]
    have hfull : (w.threads tid).Full := by
      rw [hs]
      trivial
    exact (h.ok v).grown (hknown v) fun x hx => h.excludes hfull hv hx

omit [DecidableEq K] in
/-- A lock that is not there has no owner. -/
theorem LockInv.owner_none (h : LockInv cfg w) (hx : ¬ InRange w.arrays x) : w.owner x = none := by
  cases hown : w.owner x with
  | none => rfl
  | some t => exact absurd ((h.ok t).inRange ((h.owned x t).mp hown)) hx

omit [DecidableEq K] in
/-- The new array is held by the thread that adds it. -/
theorem LockInv.owned_addArray (h : LockInv cfg w) {n : Nat}
    (hs : w.threads tid = .insideAll u hp first) (hpos : 0 < w.table.numLocks)
    (hquiet : ∀ other, other ≠ tid → (w.threads other).unlocking = false) :
    Owned (w.addArray n tid).owner fun v x =>
      (Function.update w.threads tid (.swapped u first) v).Holds (w.arrays ++ [n]) x := by
  have hfirst := h.ok tid
  rw [hs] at hfirst
  have hfirst : first < w.arrays.length := hfirst
  have hfull : (w.threads tid).Full := by
    rw [hs]
    trivial
  have hnew : ∀ x : LockId, x.1 = w.arrays.length → ¬ InRange w.arrays x := by
    rintro x hx ⟨k, hk, -⟩
    obtain ⟨hlt, -⟩ := List.getElem?_eq_some_iff.mp hk
    omega
  refine h.owned.take (t := tid) (fun x => x.1 = w.arrays.length ∧ x.2 < n) ?_ ?_ ?_ ?_ ?_
  · exact fun x hx => h.owner_none (hnew x hx.1)
  · exact fun x hx => if_pos hx
  · exact fun x hx => if_neg hx
  · intro other x hother
    rw [Function.update_of_ne hother]
    exact Stage.holds_append (h.ok other) (fun x hx => h.excludes hfull hother hx)
      (h.inRange_last hpos) (hquiet other hother) x
  · intro x
    rw [Function.update_self, hs]
    have hget : x.1 = w.arrays.length → (w.arrays ++ [n])[x.1]? = some n := by
      intro hx
      rw [hx, List.getElem?_append_right (Nat.le_refl _), Nat.sub_self]
      rfl
    constructor
    · rintro ⟨hx, hle⟩
      by_cases hlt : x.1 < w.arrays.length
      · exact .inl ⟨hx.of_append hlt, by omega⟩
      · obtain ⟨k, hk, hxk⟩ := hx
        obtain ⟨hlen, -⟩ := List.getElem?_eq_some_iff.mp hk
        rw [List.length_append, List.length_singleton] at hlen
        have hx : x.1 = w.arrays.length := by omega
        cases (hget hx).symm.trans hk
        exact .inr ⟨hx, hxk⟩
    · rintro (⟨hx, hle⟩ | ⟨hx, hlt⟩)
      · exact ⟨hx.append, by omega⟩
      · exact ⟨⟨n, hget hx, hlt⟩, by omega⟩

omit [DecidableEq K] in
theorem numLocks_pos {t : Table K V} {m : K → Option V} (h : t.Inv cfg m) : 0 < t.numLocks := by
  rw [h.locks]
  exact Nat.lt_min.mpr ⟨hashsize_pos _, hashsize_pos 16⟩

/-- The doubling is done, as far as the exchange of the buckets. -/
theorem goes_double (h : LockInv cfg w) (hf : Follows cfg w.world a)
    (hs : w.threads tid = .insideAll u hp first)
    (hdouble : w.table.cuckooFastDouble cfg hp = some (.ok, t'))
    (hgrow : t'.hashpower = w.table.hashpower + 1) (hquiet : t'.numLocks ≠ w.table.numLocks →
      ∀ other, other ≠ tid → (w.threads other).unlocking = false) :
    Goes cfg a ((w.swap t' tid).set tid (.swapped u first)) := by
  have hadv : w.table.advance cfg (w.threads tid).pc = some (t', (Stage.swapped u first).pc) := by
    rw [hs]
    change w.table.expand cfg u hp = _
    rw [Table.expand, hdouble]
    rfl
  have hswapping : ¬ ∀ v, (Function.update w.threads tid (.swapped u first) v).swapping =
      false := by
    intro hall
    have hself := hall tid
    rw [Function.update_self] at hself
    cases hself
  have hbelow : w.oldHashpower ≤ t'.hashpower ∧ w.hashpower ≤ t'.hashpower := by
    have hle := h.below
    omega
  rw [LockWorld.swap]
  by_cases hnum : t'.numLocks = w.table.numLocks
  · rw [if_pos hnum]
    refine goes_advance (s := .swapped u first) hf hadv ?_ rfl
    have hok := h.ok_double hf.known hs hgrow []
    rw [List.append_nil] at hok
    refine ⟨h.owned.same fun v x => ?_, hok, ?_, fun hall => absurd hall hswapping, hbelow⟩
    · change (Function.update w.threads tid (.swapped u first) v).Holds w.arrays x ↔ _
      by_cases hv : v = tid
      · rw [hv, Function.update_self, hs]
        exact Iff.rfl
      · rw [Function.update_of_ne hv]
    · change ∃ pre, w.arrays = pre ++ [t'.numLocks]
      rw [hnum]
      exact h.last
  · rw [if_neg hnum]
    refine goes_advance (s := .swapped u first) hf hadv ?_ rfl
    exact ⟨h.owned_addArray hs (numLocks_pos hf.table) (hquiet hnum),
      h.ok_double hf.known hs hgrow [t'.numLocks],
      ⟨w.arrays, rfl⟩, fun hall => absurd hall hswapping, hbelow⟩

/-- It is refused. -/
theorem goes_refused (h : LockInv cfg w) (hf : Follows cfg w.world a)
    (hs : w.threads tid = .insideAll u hp first)
    (hexp : w.table.expand cfg u hp = some (w.table, pc)) :
    Goes cfg a (w.set tid (.releasingAll pc first 0)) := by
  have hadv : w.table.advance cfg (w.threads tid).pc =
      some (w.table, (Stage.releasingAll pc first 0).pc) := by
    rw [hs]
    exact hexp
  have hok := h.ok tid
  rw [hs] at hok
  refine goes_advance (s := .releasingAll pc first 0) hf hadv (h.set ?_ hok fun x => ?_) rfl
  · rw [hs]
    rfl
  · rw [hs]
    refine and_congr_right fun _ => ?_
    omega

theorem goes_insideAll (h : LockInv cfg w) (hf : Follows cfg w.world a)
    (hs : w.threads tid = .insideAll u hp first) (hgo : w.goInsideAll cfg tid u hp first = some w')
    (hquiet : w'.arrays ≠ w.arrays → ∀ other, other ≠ tid → (w.threads other).unlocking = false) :
    Goes cfg a w' := by
  obtain ⟨t', hdouble, -, hcase⟩ := hf.table.cuckooFastDouble hp
  have hdouble : w.table.cuckooFastDouble cfg hp = some (_, t') := hdouble
  rw [LockWorld.goInsideAll, hdouble, Option.map_some] at hgo
  cases hst : w.table.checkResizeValidity cfg hp (hp + 1) with
  | ok =>
    rw [show w.world.table.checkResizeValidity cfg hp (hp + 1) = .ok from hst] at hdouble hgo
    cases hgo
    obtain ⟨-, -, hgrow⟩ := hcase.resolve_right fun hne => hne.1 hst
    refine goes_double h hf hs hdouble hgrow fun hnum => hquiet ?_
    change (w.swap t' tid).arrays ≠ w.arrays
    rw [LockWorld.swap, if_neg hnum]
    exact fun heq => List.cons_ne_nil _ _ (List.append_right_eq_self.mp heq)
  | underExpansion =>
    rw [show w.world.table.checkResizeValidity cfg hp (hp + 1) = _ from hst] at hdouble hgo
    cases hgo
    obtain ⟨-, hsame⟩ := hcase.resolve_left fun heq => by cases hst.symm.trans heq.1
    refine goes_refused h hf hs ?_
    rw [Table.expand, hdouble, hsame]
    rfl
  | threw =>
    rw [show w.world.table.checkResizeValidity cfg hp (hp + 1) = _ from hst] at hdouble hgo
    cases hgo
    obtain ⟨-, hsame⟩ := hcase.resolve_left fun heq => by cases hst.symm.trans heq.1
    refine goes_refused h hf hs ?_
    rw [Table.expand, hdouble, hsame]
    rfl

/-- The new buckets show their hashpower. -/
theorem goes_swapped (h : LockInv cfg w) (hf : Follows cfg w.world a)
    (hs : w.threads tid = .swapped u first) : Goes cfg a (w.goSwapped tid u first) := by
  have hok := h.ok tid
  rw [hs] at hok
  refine goes_same (s := .releasingAll (.snapshot (.uprase u)) first 0) hf ?_ rfl ?_
  · refine ⟨h.owned.same fun v x => ?_, ok_update (w := w) (s := .releasingAll _ first 0) h hok,
      h.last, fun _ => rfl, ⟨Nat.le_refl _, h.below.2⟩⟩
    change (Function.update w.threads tid (.releasingAll _ first 0) v).Holds w.arrays x ↔ _
    by_cases hv : v = tid
    · rw [hv, Function.update_self, hs]
      refine and_congr_right fun _ => ?_
      omega
    · rw [Function.update_of_ne hv]
  · rw [hs]
    rfl

/-! ## Every step -/

theorem goes_run (h : LockInv cfg w) (hf : Follows cfg w.world a) (hgo : w.go cfg tid = some w')
    (hquiet : w'.arrays ≠ w.arrays → ∀ other, other ≠ tid → (w.threads other).unlocking = false)
    (hslip : ¬ w.Slips (.run tid)) : Goes cfg a w' := by
  unfold LockWorld.go at hgo
  cases hs : w.threads tid with
  | free pc =>
    rw [hs] at hgo
    exact goes_free h hf hs hgo
  | taking pc hp array held rest =>
    rw [hs] at hgo
    exact goes_taking h hf hs hgo
  | checking pc hp array first rest =>
    rw [hs] at hgo
    cases hgo
    refine goes_checking h hf hs fun hhp => ?_
    by_contra hne
    exact hslip ⟨tid, pc, hp, array, first, rest, rfl, hs, hhp, hne⟩
  | inside pc hp array held =>
    rw [hs] at hgo
    exact goes_inside h hf hs hgo
  | takingAll u hp first array i =>
    rw [hs] at hgo
    exact goes_takingAll h hf hs hgo
  | insideAll u hp first =>
    rw [hs] at hgo
    exact goes_insideAll h hf hs hgo hquiet
  | swapped u first =>
    rw [hs] at hgo
    cases hgo
    exact goes_swapped h hf hs
  | releasing pc array held =>
    rw [hs] at hgo
    cases held with
    | nil =>
      cases hgo
      refine goes_same hf (h.set ?_ trivial fun x => ?_) rfl ?_
      · rw [hs]
        rfl
      · rw [hs]
        exact ⟨False.elim, fun hx => absurd hx.2 List.not_mem_nil⟩
      · rw [hs]
        rfl
    | cons l held =>
      cases hgo
      exact goes_releasing h hf hs
  | releasingAll pc array i =>
    rw [hs] at hgo
    exact goes_releasingAll h hf hs hgo

/-- A call is made or answered. -/
theorem goes_seen (h : LockInv cfg w) (hf : Follows cfg w.world a) {act : Act K V} {pc pc' : Pc K V}
    (hs : w.threads tid = .free pc)
    (hstep : World.step cfg w.world act = some (w.set tid (.free pc')).world) :
    ∃ a', Step Effect a (w.world.seen act) a' ∧ LockInv cfg (w.set tid (.free pc')) ∧
      Follows cfg (w.set tid (.free pc')).world a' := by
  obtain ⟨a', hone, hf'⟩ := hf.step hstep
  refine ⟨a', hone, h.set ?_ trivial fun x => ?_, hf'⟩
  · rw [hs]
    rfl
  · rw [hs]
    exact Iff.rfl

theorem locks_step (h : LockInv cfg w) (hf : Follows cfg w.world a) {act : Act K V}
    (hsafe : w.Safe cfg act) (hstep : LockWorld.step cfg w act = some w') :
    ∃ a', Step Effect a (w.seen act) a' ∧ LockInv cfg w' ∧ Follows cfg w'.world a' := by
  cases act with
  | run tid =>
    refine goes_run h hf hstep (fun hne other hother => ?_) hsafe.2
    cases hunlocking : (w.threads other).unlocking with
    | false => rfl
    | true => exact absurd ⟨tid, other, w', rfl, hother, hunlocking, hstep, hne⟩ hsafe.1
  | invoke tid c =>
    unfold LockWorld.step at hstep
    dsimp only at hstep
    split at hstep
    · rename_i hs
      cases hstep
      change ∃ a', Step Effect a (w.world.seen (.invoke tid c)) a' ∧ _
      refine goes_seen h hf hs ?_
      have hidle : w.world.threads tid = .idle := congrArg Stage.pc hs
      rw [World.step, hidle, world_set]
      rfl
    · cases hstep
  | respond tid =>
    unfold LockWorld.step at hstep
    dsimp only at hstep
    split at hstep
    · rename_i r hs
      cases hstep
      have hanswered : w.world.threads tid = .answered r := congrArg Stage.pc hs
      have hseen : w.seen (.respond tid) = w.world.seen (.respond tid) := by
        rw [LockWorld.seen, hs, World.seen, hanswered]
      rw [hseen]
      refine goes_seen h hf hs ?_
      rw [World.step, hanswered, world_set]
      rfl
    · cases hstep

end

end LogDirect.Cuckoo
